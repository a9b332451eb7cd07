import OpTree.Proofs.Proper
import OpTree.Check

/-!
# Shapes

Every op of a made tree has the shape its class asks for: its flag for kids is right, it has a number of
kids that its opcode allows, and a fused op has a side table. The one exception is the end of a sub that
is called without a body, which no listing asks for.
-/

namespace OpTree

set_option autoImplicit false

namespace Flags

theorem has_or_of_disjoint (f : Flags) {g bit : Flags} (h : g &&& bit = 0) :
    (f ||| g).has bit = f.has bit := by
  rw [has, has, or_and, h, UInt16.or_zero]

theorem has_or_kids (f : Flags) : (f ||| kids).has kids = true := by
  have hpart : kids &&& ((f ||| kids) &&& kids) = kids := by
    rw [or_and, UInt16.and_self, UInt16.or_comm, UInt16.and_comm]
    apply UInt16.eq_of_toBitVec_eq
    simp only [UInt16.toBitVec_and, UInt16.toBitVec_or]
    ext i hi
    simp only [BitVec.getElem_and, BitVec.getElem_or]
    cases kids.toBitVec[i] <;> simp
  rw [has, bne_iff_ne]
  intro hz
  rw [hz] at hpart
  exact absurd hpart (by decide)

theorem has_and_of_disjoint (f : Flags) {g bit : Flags} (h : g &&& bit = 0) : (f &&& g).has bit = false := by
  simp [has, UInt16.and_assoc, h]

theorem has_zero (bit : Flags) : (0 : Flags).has bit = false := by simp [has]

theorem has_withWant (f : Flags) (w : Want) : (f.withWant w).has kids = f.has kids := by
  rw [withWant, has_or_of_disjoint _ (by cases w <;> decide), has, has, UInt16.and_assoc,
    show ~~~wantMask &&& kids = kids by decide]

end Flags

/-- A number of kids that constructors give to ops of an opcode. -/
def Opcode.Takes (t : Opcode) (k : Nat) : Prop :=
  match t.opClass with
  | .base | .padop | .svop | .cop => k = 0
  | .unop => k = 1 ∨ k = 0 ∧ t ≠ .leavesub
  | .binop | .loop => k = 2
  | .logop => k = if t = .condExpr then 3 else 2
  | .listop => t = .lineseq ∨ 1 ≤ k
  | .auxop | .freed => False

namespace Node

/-- What an op with so many kids has to look like. -/
structure Shape (n : Node) (count : Nat) : Prop where
  flag : n.flags.has Flags.kids = decide (count ≠ 0)
  count : n.code ≠ .null → n.kidCountOk count = true
  path : n.opClass = .auxop → ∃ p, n.path = some p ∧ p.items ≠ []

/-- An op that keeps its opcodes, its flag for kids and its side table. -/
structure Alike (n n' : Node) : Prop where
  code : n'.code = n.code
  ex : n'.ex = n.ex
  kids : n'.flags.has Flags.kids = n.flags.has Flags.kids
  path : n'.path = n.path

theorem Alike.refl (n : Node) : n.Alike n := ⟨rfl, rfl, rfl, rfl⟩

theorem Alike.opClass {n n' : Node} (h : n.Alike n') : n'.opClass = n.opClass := by
  rw [Node.opClass, Node.opClass, isEx, isEx, h.code, h.ex]

theorem kidRange_congr {n n' : Node} (hc : n'.code = n.code) (hx : n'.opClass = n.opClass) :
    n'.kidRange = n.kidRange := by
  rw [kidRange, kidRange, hc, hx]

theorem kidCountOk_congr {n n' : Node} (hc : n'.code = n.code) (hx : n'.opClass = n.opClass) (k : Nat) :
    n'.kidCountOk k = n.kidCountOk k := by
  rw [kidCountOk, kidCountOk, kidRange_congr hc hx]

theorem Shape.alike {n n' : Node} {k : Nat} (h : n.Shape k) (hn : n.Alike n') : n'.Shape k where
  flag := hn.kids.trans h.flag
  count hc := (kidCountOk_congr hn.code hn.opClass k).trans (h.count (hn.code ▸ hc))
  path hc := hn.path ▸ h.path (hn.opClass.symm.trans hc)

theorem shape_plain {n : Node} {k : Nat} : n.plain.Shape k ↔ n.Shape k :=
  ⟨fun h => h.alike ⟨rfl, rfl, rfl, rfl⟩, fun h => h.alike ⟨rfl, rfl, rfl, rfl⟩⟩

theorem alike_withWant (n : Node) (w : Want) : n.Alike (n.withWant w) :=
  ⟨rfl, rfl, n.flags.has_withWant w, rfl⟩

theorem alike_operand (n : Node) (w : Want) : n.Alike (if n.want = .unknown then n.withWant w else n).plain := by
  split
  · exact ⟨rfl, rfl, n.flags.has_withWant w, rfl⟩
  · exact ⟨rfl, rfl, rfl, rfl⟩

theorem alike_flags (n : Node) {f : Flags} (hf : f &&& Flags.kids = 0) :
    n.Alike { n with flags := n.flags ||| f }.plain :=
  ⟨rfl, rfl, n.flags.has_or_of_disjoint hf, rfl⟩

theorem Shape.neutralized {n : Node} {k : Nat} (h : n.Shape k) : n.neutralized.Shape k := by
  unfold Node.neutralized
  by_cases hc : n.code = .null
  · simpa [hc] using h
  · have hclass : ({ n with ex := n.code, code := .null } : Node).opClass = n.opClass := by
      simp [opClass, isEx, hc]
    rw [if_neg (by simpa using hc)]
    exact ⟨h.flag, fun hn => absurd rfl hn, fun ha => h.path (hclass.symm.trans ha)⟩

theorem kidCountOk_of_takes {n : Node} {k : Nat} (hc : n.code ≠ .null) (h : n.code.Takes k) :
    n.kidCountOk k = true := by
  have hclass : n.opClass = n.code.opClass := by simp [opClass, isEx, hc]
  unfold Opcode.Takes at h
  unfold kidCountOk kidRange
  rw [hclass]
  cases hn : n.code <;> rw [hn] at h <;> simp_all [Opcode.opClass] <;> omega

theorem opClass_of_takes {n : Node} {k : Nat} (hc : n.code ≠ .null) (h : n.code.Takes k) :
    n.opClass ≠ .auxop := by
  have hclass : n.opClass = n.code.opClass := by simp [opClass, isEx, hc]
  intro ha
  rw [hclass] at ha
  rw [Opcode.Takes, ha] at h
  exact h

end Node

namespace Tree

open Build

def Shaped (t : Tree) : Prop := ∀ u ∈ t.subtrees, u.op.Shape u.kids.length

theorem shaped_mk {r : RecId} {o : Node} {ks : List Tree} :
    (Tree.mk r o ks).Shaped ↔ o.Shape ks.length ∧ ∀ k ∈ ks, k.Shaped := by
  constructor
  · intro h
    exact ⟨h _ (self_mem_subtrees _), fun k hk u hu => h u (mem_subtrees_mk.mpr (Or.inr ⟨k, hk, hu⟩))⟩
  · rintro ⟨ho, hks⟩ u hu
    rcases mem_subtrees_mk.mp hu with rfl | ⟨k, hk, hu⟩
    · exact ho
    · exact hks k hk u hu

theorem Shaped.op {t : Tree} (h : t.Shaped) : t.op.Shape t.kids.length := h t (self_mem_subtrees t)

theorem Shaped.subtree {t u : Tree} (h : t.Shaped) (hu : u ∈ t.subtrees) : u.Shaped :=
  fun v hv => h v (subtrees_trans hu hv)

theorem Shaped.kid {t k : Tree} (h : t.Shaped) (hk : k ∈ t.kids) : k.Shaped := h.subtree (kid_mem_subtrees hk)

theorem Shaped.mapOps {t : Tree} {g : RecId → Node → Node} (h : t.Shaped)
    (hg : ∀ u ∈ t.subtrees, u.op.Alike (g u.root u.op)) : (t.mapOps g).Shaped := by
  intro u hu
  rw [subtrees_mapOps] at hu
  obtain ⟨v, hv, rfl⟩ := List.mem_map.mp hu
  rw [op_mapOps, kids_mapOps, List.length_map]
  exact (h v hv).alike (hg v hv)

theorem Shaped.reroot {t : Tree} {o : Node} (h : t.Shaped) (ho : t.op.Alike o) : (Tree.mk t.root o t.kids).Shaped :=
  shaped_mk.mpr ⟨h.op.alike ho, fun _ hk => h.kid hk⟩

theorem Shaped.wantScalar {t : Tree} (h : t.Shaped) : t.wantScalar.Shaped :=
  h.reroot (t.op.alike_operand .scalar)

theorem Shaped.wantList {t : Tree} (h : t.Shaped) : t.wantList.Shaped := h.reroot (t.op.alike_operand .list)

theorem Shaped.withFlag {t : Tree} (h : t.Shaped) {f : Flags} (hf : f &&& Flags.kids = 0) :
    (t.withFlag f).Shaped := h.reroot (t.op.alike_flags hf)

theorem Shaped.void {t : Tree} (h : t.Shaped) : t.void.Shaped := by
  refine h.mapOps fun u _ => ?_
  rw [markVoid]
  split
  · exact u.op.alike_withWant .void
  · exact .refl _

theorem Shaped.derefKid {t : Tree} (h : t.Shaped) (deref : Priv) : (derefKid t deref).Shaped := by
  have hmod : ∀ q : RecId, (t.modify q fun n => { n with priv := n.priv ||| deref }.plain).Shaped := by
    intro q
    refine h.mapOps fun u _ => ?_
    split
    · exact ⟨rfl, rfl, rfl, rfl⟩
    · exact .refl _
  unfold Build.derefKid
  split
  · split
    · exact hmod _
    · exact h
  · split
    · exact hmod _
    · exact h
  · exact h

theorem Shaped.nulled {t : Tree} (h : t.Shaped) : (nulled t).Shaped :=
  shaped_mk.mpr ⟨h.op.neutralized.alike ⟨rfl, rfl, rfl, rfl⟩, fun _ hk => h.kid hk⟩

structure Growing (t : Tree) : Prop where
  flag : t.op.flags.has Flags.kids = decide (t.kids.length ≠ 0)
  kids : ∀ k ∈ t.kids, k.Shaped

theorem growing_leaf {r : RecId} {o : Node} (h : o.flags.has Flags.kids = false) : (Tree.mk r o []).Growing :=
  ⟨by simpa using h, nofun⟩

theorem Growing.snoc {t k : Tree} (h : t.Growing) (hk : k.Shaped) : (t.snoc k).Growing := by
  refine ⟨?_, fun j hj => ?_⟩
  · rw [kids_snoc, List.length_append, List.length_singleton]
    simp only [Tree.snoc, op_mk]
    cases hks : t.kids with
    | nil => simpa using t.op.flags.has_or_kids
    | cons j js =>
      have hflag := h.flag
      rw [hks] at hflag
      simpa using hflag
  · rw [kids_snoc] at hj
    rcases List.mem_append.mp hj with hj | hj
    · exact h.kids j hj
    · rwa [List.mem_singleton.mp hj]

theorem Growing.shaped {t : Tree} (h : t.Growing) (hc : t.op.code ≠ .null)
    (hk : t.op.code.Takes t.kids.length) : t.Shaped := by
  obtain ⟨r, o, ks⟩ := t
  exact shaped_mk.mpr ⟨⟨h.flag, fun hc => Node.kidCountOk_of_takes hc hk,
    fun ha => absurd ha (Node.opClass_of_takes hc hk)⟩, h.kids⟩

theorem Growing.shaped_null {t : Tree} (h : t.Growing) (hc : t.op.code = .null) (hx : t.op.ex = .null) :
    t.Shaped := by
  obtain ⟨r, o, ks⟩ := t
  refine shaped_mk.mpr ⟨⟨h.flag, fun hn => absurd hc hn, fun ha => ?_⟩, h.kids⟩
  rw [op_mk] at hc hx
  simp [Node.opClass, Node.isEx, hc, hx, Opcode.opClass] at ha

theorem shaped_leaf {r : RecId} {o : Node} (hf : o.flags.has Flags.kids = false) (hc : o.code ≠ .null)
    (hk : o.code.Takes 0) : (Tree.mk r o []).Shaped := (growing_leaf hf).shaped hc hk

theorem Growing.snocAll {t : Tree} {ks : List Tree} (h : t.Growing) (hks : ∀ k ∈ ks, k.Shaped) :
    (snocAll t ks).Growing := by
  induction ks generalizing t with
  | nil => exact h
  | cons k ks ih =>
    exact ih (h.snoc (hks k (List.mem_cons_self ..)).wantList) fun j hj => hks j (List.mem_cons_of_mem k hj)

theorem length_kids_snocAll (t : Tree) (ks : List Tree) :
    (Build.snocAll t ks).kids.length = t.kids.length + ks.length := by
  induction ks generalizing t with
  | nil => rfl
  | cons k ks ih =>
    refine (ih _).trans ?_
    rw [kids_snoc, List.length_append, List.length_singleton, List.length_cons]
    omega

theorem Growing.grown {t : Tree} {ks : List Tree} (h : t.Growing) (hks : ∀ k ∈ ks, k.Shaped) :
    (grown t ks).Growing := by
  induction ks generalizing t with
  | nil => exact h
  | cons k ks ih => exact ih (h.snoc (hks k (List.mem_cons_self ..))) fun j hj => hks j (List.mem_cons_of_mem k hj)

end Tree

namespace Build

open OpTree.Tree TreeM

theorem shaped_of_folded {t t' : Tree} (h : Folded t t') (ht : t' = t → t.Shaped) : t'.Shaped := by
  rcases h with rfl | ⟨-, r, v, line, id, rfl⟩
  · exact ht rfl
  · exact shaped_leaf (Flags.has_and_of_disjoint _ (by decide)) (by simp) rfl

theorem shaped_unary {r : RecId} {o : Node} {k : Tree} (hc : o.code.opClass = .unop) (hx : o.ex = .null)
    (hf : o.flags.has Flags.kids = false) (hk : k.Shaped) : ((Tree.mk r o []).snoc k).Shaped := by
  by_cases hn : o.code = .null
  · exact ((growing_leaf hf).snoc hk).shaped_null ((code_snoc ..).trans hn) hx
  · refine ((growing_leaf hf).snoc hk).shaped ?_ ?_
    · rwa [code_snoc]
    · rw [code_snoc, Opcode.Takes, op_mk, hc]
      exact Or.inl rfl

theorem shaped_binary {r : RecId} {o : Node} {x y : Tree} (hc : o.code.opClass = .binop ∨ o.code.opClass = .loop)
    (hf : o.flags.has Flags.kids = false) (hx : x.Shaped) (hy : y.Shaped) :
    (((Tree.mk r o []).snoc x).snoc y).Shaped := by
  have hn : o.code ≠ .null := fun hn => by
    rw [hn] at hc
    rcases hc with hc | hc <;> cases hc
  refine (((growing_leaf hf).snoc hx).snoc hy).shaped ?_ ?_
  · rwa [code_snoc, code_snoc]
  · rw [code_snoc, code_snoc, Opcode.Takes, op_mk]
    rcases hc with hc | hc <;> rw [hc] <;> rfl

theorem shaped_join {r : RecId} {j : Nat} {k : Tree} (hk : k.Shaped) :
    ((Tree.mk r { code := .null, id := j } []).snoc k).Shaped :=
  ((growing_leaf (Flags.has_zero _)).snoc hk).shaped_null (code_snoc ..) rfl

theorem shaped_logTree {t : Opcode} {l : RecId} {i : Nat} {x y : Tree} (ht : t = .and ∨ t = .or ∨ t = .dor)
    (hx : x.Shaped) (hy : y.Shaped) : (logTree t l i x y).Shaped := by
  have hcode : (logTree t l i x y).op.code = t := by rw [logTree, code_snoc, code_snoc, op_mk]
  refine Growing.shaped (((growing_leaf (Flags.has_zero _)).snoc hx).snoc hy) ?_ ?_ <;> rw [hcode]
  · rcases ht with rfl | rfl | rfl <;> simp
  · rcases ht with rfl | rfl | rfl <;> rfl

theorem shaped_condTree {l : RecId} {i : Nat} {x y z : Tree} (hx : x.Shaped) (hy : y.Shaped) (hz : z.Shaped) :
    (condTree l i x y z).Shaped := by
  have hcode : (condTree l i x y z).op.code = .condExpr := by
    rw [condTree, code_snoc, code_snoc, code_snoc, op_mk]
  refine Growing.shaped ((((growing_leaf (Flags.has_zero _)).snoc hx).snoc hy).snoc hz) ?_ ?_ <;> rw [hcode]
  · decide
  · rfl

theorem Items.shaped {tail : Bool} {stmts : List Stmt} {es ks : List Tree} (h : Items tail stmts es ks)
    (hes : ∀ e ∈ es, e.Shaped) : ∀ k ∈ ks, k.Shaped := by
  induction h with
  | nil => simp
  | empty n i file he h ih =>
    intro k hk
    rcases List.mem_cons.mp hk with rfl | hk
    · exact shaped_leaf (Flags.has_zero _) (by simp) rfl
    · exact ih hes k hk
  | @expr s rest e es ks n i file he h ih =>
    have hall := ih fun e' he' => hes e' (List.mem_cons_of_mem _ he')
    have hee := hes e (List.mem_cons_self ..)
    intro k hk
    rcases List.mem_cons.mp hk with rfl | hk
    · exact shaped_leaf (Flags.has_zero _) (by simp) rfl
    rcases List.mem_cons.mp hk with rfl | hk
    · split
      · exact hee.void
      · exact hee
    · exact hall k hk

theorem shaped_sequence {t : Tree} (h : t.Growing) (hc : t.op.code = .lineseq) : t.Shaped := by
  refine h.shaped ?_ ?_ <;> rw [hc]
  · exact nofun
  · exact Or.inl rfl

theorem growing_block {r : RecId} {i : Nat} {ks : List Tree} (hks : ∀ k ∈ ks, k.Shaped) :
    (grown (.mk r { code := .lineseq, id := i } []) ks).Growing := (growing_leaf (Flags.has_zero _)).grown hks

/-- What a constructor makes of trees that have their shapes has its shape, if it is not the end of a sub
without a body. -/
theorem Makes.shaped {ks : List Tree} {t : Tree} (h : Makes ks t) (hks : ∀ k ∈ ks, k.Shaped)
    (hne : ks = [] → t.op.code ≠ .leavesub) : t.Shaped := by
  cases h with
  | const | gv | stub => exact shaped_leaf (Flags.has_zero _) (by simp) rfl
  | pad _ _ _ _ ht => rcases ht with rfl | rfl | rfl <;> exact shaped_leaf (Flags.has_zero _) (by simp) rfl
  | rv2 _ k _ ht =>
    rcases ht with rfl | rfl | rfl <;> exact shaped_unary rfl rfl (Flags.has_zero _) (hks k (by simp)).wantScalar
  | scalar _ k =>
    have hflag : Flags.has (Want.toBits .scalar) Flags.kids = false := by decide
    exact shaped_unary rfl rfl hflag (hks k (by simp)).wantScalar
  | unop _ k _ _ ht hf =>
    exact shaped_of_folded hf fun _ => (shaped_unary ht rfl (Flags.has_zero _) (hks k (by simp)).wantScalar)
  | @unopNone o t p id t' ht hf =>
    refine shaped_of_folded hf fun he => ?_
    by_cases hn : t = .null
    · exact Growing.shaped_null (growing_leaf (Flags.has_zero _)) hn rfl
    · refine shaped_leaf (Flags.has_zero _) hn ?_
      rw [Opcode.Takes, ht]
      exact Or.inr ⟨rfl, by simpa [he] using hne rfl⟩
  | binop _ x y _ ht hf =>
    exact shaped_of_folded hf fun _ => (shaped_binary (Or.inl ht) (Flags.has_zero _) (hks x (by simp)).wantScalar
      (hks y (by simp)).wantScalar)
  | @listop o m t ks i j t' ht hf =>
    have hmark : (Tree.mk m { code := .pushmark, id := j } []).Shaped := shaped_leaf (Flags.has_zero _) (by simp) rfl
    have hgrow := ((@growing_leaf o { code := t, id := i } (Flags.has_zero _)).snoc hmark).snocAll hks
    refine shaped_of_folded hf fun _ => hgrow.shaped ?_ ?_ <;> rw [code_snocAll, code_snoc, op_mk]
    · rintro rfl
      cases ht
    · rw [Opcode.Takes, ht, length_kids_snocAll, kids_snoc, List.length_append]
      exact Or.inr (by simp)
  | elem _ c key deref _ ht =>
    refine shaped_binary ?_ (Flags.has_zero _) (((hks c (by simp)).withFlag (by decide)).derefKid deref)
      (hks key (by simp)).wantScalar
    rcases ht with rfl | rfl <;> exact Or.inl rfl
  | elemop _ e _ ht he =>
    rcases ht with rfl | rfl <;> exact shaped_unary rfl rfl (Flags.has_zero _) (hks e (by simp)).nulled
  | arylen _ av => exact shaped_unary rfl rfl (Flags.has_zero _) ((hks av (by simp)).withFlag (by decide))
  | sassign _ src dst =>
    exact shaped_binary (Or.inl rfl) (Flags.has_zero _) (hks src (by simp)).wantScalar
      ((hks dst (by simp)).withFlag (by decide)).wantScalar
  | logop _ _ x y _ _ ht => exact shaped_join (shaped_logTree ht (hks x (by simp)).wantScalar (hks y (by simp)))
  | cond _ _ x y z =>
    exact shaped_join (shaped_condTree (hks x (by simp)).wantScalar (hks y (by simp)) (hks z (by simp)))
  | foreach _ _ _ _ _ _ _ _ lo hi _ _ _ _ _ _ _ hit =>
    have hbody := hit.shaped fun e he => hks e (by simp [he])
    refine shaped_binary (Or.inl rfl) (Flags.has_zero _) ?_ (shaped_join (shaped_logTree (Or.inl rfl) ?_ ?_))
    · exact shaped_binary (Or.inr rfl) (Flags.has_zero _) (hks lo (by simp)).wantScalar (hks hi (by simp)).wantScalar
    · exact Shaped.wantScalar (shaped_leaf (Flags.has_zero _) (by simp) rfl)
    · refine shaped_sequence ((growing_block hbody).snoc (shaped_leaf (Flags.has_zero _) (by simp) rfl)) ?_
      rw [bodyTree, code_snoc, code_grown, op_mk]

theorem shaped_sub {r s : RecId} {i j : Nat} {n : Int} {stmts : List Stmt} {es ks : List Tree}
    (h : Items true stmts es ks) (hes : ∀ e ∈ es, e.Shaped) :
    (Tree.mk r { code := .leavesub, flags := 0 ||| Flags.kids, refs := n, id := i }
      [grown (.mk s { code := .lineseq, id := j } []) ks]).Shaped := by
  refine Growing.shaped ⟨Flags.has_or_kids 0, ?_⟩ (by simp) (Or.inl rfl)
  simpa using shaped_sequence (growing_block (h.shaped hes)) (code_grown _ ks)

end Build

end OpTree
