import OpTree.Proofs.Made

/-!
# Proper trees

Every op of a made tree has the kids its opcode takes. How many there are is known of element ops,
of the ops below them and of those that stay where an op was neutralized; a list among the operands
of an op that may be folded has a context of its own.
-/

namespace OpTree

set_option autoImplicit false

namespace Opcode

def isLeaf : Opcode → Bool
  | const | padsv | padav | padhv | gv => true
  | _ => false

def isElem : Opcode → Bool
  | aelem | aelemU | helem => true
  | _ => false

def isSingle : Opcode → Bool
  | rv2av | rv2hv | existsElem | deleteElem => true
  | _ => false

end Opcode

theorem Flags.or_and (f g h : Flags) : (f ||| g) &&& h = (f &&& h) ||| (g &&& h) := by
  apply UInt16.eq_of_toBitVec_eq
  simp only [UInt16.toBitVec_and, UInt16.toBitVec_or]
  ext i hi
  simp [Bool.and_or_distrib_right]

theorem Want.ofBits_withWant (f : Flags) (w : Want) : ofBits (f.withWant w) = w := by
  have hlow : f.withWant w &&& 3 = w.toBits &&& 3 := by
    rw [Flags.withWant, Flags.or_and, Flags.wantMask, UInt16.and_assoc]
    simp
  rw [ofBits, hlow]
  exact w.ofBits_toBits

theorem Want.ofBits_or (f g : Flags) (h : g &&& 3 = 0) : ofBits (f ||| g) = ofBits f := by
  rw [ofBits, Flags.or_and, h, UInt16.or_zero, ofBits]

namespace Node

theorem want_withWant (n : Node) (w : Want) : (n.withWant w).want = w :=
  Want.ofBits_withWant n.flags w

/-- The opcode of a node, or the one it had before it was neutralized. -/
def role (n : Node) : Opcode := if n.code = .null then n.ex else n.code

theorem role_of_ne {n : Node} (h : n.code ≠ .null) : n.role = n.code := if_neg h

theorem role_neutralized (n : Node) (h : n.code ≠ .null) : n.neutralized.role = n.role := by
  rw [role_of_ne h, role, Build.neutralized_of_ne h]
  rfl

structure Arity (o : Node) (n : Nat) : Prop where
  leaf : o.role.isLeaf = true → n = 0
  elem : o.role.isElem = true → n = 2
  single : o.role.isSingle = true → n ≤ 1

/-- What is known of a node and its kids when a tree has been built. -/
structure Proper (o : Node) (ks : List Node) : Prop extends Arity o ks.length where
  ex : o.isEx = true → o.ex = .aelem ∨ o.ex = .helem
  /-- The operands of an op that may be folded know their context. -/
  known : o.code.foldSafe = true → o.isEx = false → ∀ k ∈ ks, k.code = .list → k.want ≠ .unknown
  /-- An element op is neutralized by the op above it. -/
  user : ∀ k ∈ ks, k.isEx = true → o.code = .existsElem ∨ o.code = .deleteElem

/-- An op after changes to its flags and payloads. A context that is known stays so. -/
structure Revised (o o' : Node) : Prop where
  code : o'.code = o.code
  ex : o'.ex = o.ex
  known : o.want ≠ .unknown → o'.want ≠ .unknown

theorem Revised.refl (o : Node) : o.Revised o := ⟨rfl, rfl, fun h => h⟩

theorem Revised.trans {o o' o'' : Node} (h : o.Revised o') (h' : o'.Revised o'') : o.Revised o'' :=
  ⟨h'.code.trans h.code, h'.ex.trans h.ex, h'.known ∘ h.known⟩

theorem Revised.role {o o' : Node} (h : o.Revised o') : o'.role = o.role := by
  rw [Node.role, Node.role, h.code, h.ex]

theorem Revised.isEx {o o' : Node} (h : o.Revised o') : o'.isEx = o.isEx := by
  rw [Node.isEx, Node.isEx, h.code, h.ex]

theorem Revised.opClass {o o' : Node} (h : o.Revised o') : o'.opClass = o.opClass := by
  rw [Node.opClass, Node.opClass, h.isEx, h.code, h.ex]

theorem Revised.sameShape {o o' : Node} (h : o.Revised o') : o.SameShape o' := .of_code_eq h.code

theorem Arity.revised {o o' : Node} {n : Nat} (h : o.Arity n) (ho : o.Revised o') : o'.Arity n := by
  constructor <;> rw [ho.role]
  · exact h.leaf
  · exact h.elem
  · exact h.single

theorem Proper.revised {o o' : Node} {ks ks' : List Node} (h : o.Proper ks) (ho : o.Revised o')
    (hks : List.Forall₂ Revised ks ks') : o'.Proper ks' where
  toArity := hks.length_eq ▸ h.toArity.revised ho
  ex := by
    rw [ho.isEx, ho.ex]
    exact h.ex
  known hsafe hex k' hk' hlist := by
    obtain ⟨i, hi, rfl⟩ := List.getElem_of_mem hk'
    have hi' : i < ks.length := hks.length_eq ▸ hi
    have hrev := hks.get hi' hi
    rw [ho.code] at hsafe
    rw [ho.isEx] at hex
    exact hrev.known (h.known hsafe hex _ (List.getElem_mem hi') (hrev.code.symm.trans hlist))
  user k' hk' hex := by
    obtain ⟨i, hi, rfl⟩ := List.getElem_of_mem hk'
    have hi' : i < ks.length := hks.length_eq ▸ hi
    have hrev := hks.get hi' hi
    rw [ho.code]
    exact h.user _ (List.getElem_mem hi') (hrev.isEx.symm.trans hex)

theorem revised_want (n : Node) (w : Want) (hw : w ≠ .unknown) : n.Revised (n.withWant w) := by
  refine ⟨rfl, rfl, fun _ => ?_⟩
  rw [want_withWant]
  exact hw

theorem revised_operand (n : Node) (w : Want) (hw : w ≠ .unknown) :
    n.Revised (if n.want = .unknown then n.withWant w else n).plain := by
  split
  · exact ⟨rfl, rfl, (n.revised_want w hw).known⟩
  · exact ⟨rfl, rfl, fun h => h⟩

theorem want_operand (n : Node) (w : Want) (hw : w ≠ .unknown) :
    (if n.want = .unknown then n.withWant w else n).plain.want ≠ .unknown := by
  rw [want_plain]
  split
  · rw [want_withWant]
    exact hw
  · assumption

theorem revised_flags (n : Node) (f : Flags) (hf : f &&& 3 = 0) :
    n.Revised { n with flags := n.flags ||| f } := by
  refine ⟨rfl, rfl, fun h => ?_⟩
  rw [want, Want.ofBits_or _ _ hf]
  exact h

end Node

namespace Tree

open Build Arena

/-- The parts of a loop below its end: what enters it, the null op and the branching op of its rounds,
the test, and the body with its statements. -/
structure Rounds where
  ent : Tree
  wrap : RecId
  branch : RecId
  test : Tree
  seq : RecId
  body : List Tree

/-- The parts of a loop over a range, if these are its kids. -/
def rounds? : List Tree → Option Rounds
  | [ent, .mk w wo [.mk l lo [iter, .mk s so body]]] =>
    if wo.code = .null ∧ lo.opClass = .logop ∧ so.code = .lineseq then some ⟨ent, w, l, iter, s, body⟩
    else none
  | _ => none

theorem rounds?_eq_some {ks : List Tree} {d : Rounds} (h : rounds? ks = some d) :
    ∃ wo lo so : Node, wo.code = .null ∧ lo.opClass = .logop ∧ so.code = .lineseq ∧
      ks = [d.ent, .mk d.wrap wo [.mk d.branch lo [d.test, .mk d.seq so d.body]]] := by
  unfold rounds? at h
  split at h
  · split at h
    · rename_i hc
      obtain rfl := Option.some.inj h
      exact ⟨_, _, _, hc.1, hc.2.1, hc.2.2, rfl⟩
    · cases h
  · cases h

theorem isSome_rounds?_mapOps {ks : List Tree} {g : RecId → Node → Node}
    (hnull : ∀ k ∈ ks, ∀ u ∈ k.subtrees, u.op.code = .null → (g u.root u.op).code = .null)
    (hlog : ∀ k ∈ ks, ∀ u ∈ k.subtrees, u.op.opClass = .logop → (g u.root u.op).opClass = .logop)
    (hseq : ∀ k ∈ ks, ∀ u ∈ k.subtrees, u.op.code = .lineseq → (g u.root u.op).code = .lineseq)
    (h : (rounds? ks).isSome = true) : (rounds? (ks.map (Tree.mapOps g))).isSome = true := by
  obtain ⟨d, hd⟩ := Option.isSome_iff_exists.mp h
  obtain ⟨wo, lo, so, hw, hl, hs, rfl⟩ := rounds?_eq_some hd
  have hmem : ∀ u ∈ (Tree.mk d.wrap wo [.mk d.branch lo [d.test, .mk d.seq so d.body]]).subtrees,
      ∃ k ∈ [d.ent, .mk d.wrap wo [.mk d.branch lo [d.test, .mk d.seq so d.body]]], u ∈ k.subtrees :=
    fun u hu => ⟨_, by simp, hu⟩
  obtain ⟨k₁, hk₁, hu₁⟩ := hmem _ (self_mem_subtrees _)
  obtain ⟨k₂, hk₂, hu₂⟩ := hmem (.mk d.branch lo [d.test, .mk d.seq so d.body])
    (kid_mem_subtrees (by simp))
  have hseq' : Tree.mk d.seq so d.body ∈ (Tree.mk d.branch lo [d.test, .mk d.seq so d.body]).subtrees :=
    kid_mem_subtrees (by simp)
  obtain ⟨k₃, hk₃, hu₃⟩ := hmem _ (subtrees_trans (kid_mem_subtrees (by simp)) hseq')
  simp only [List.map_cons, List.map_nil, mapOps_mk, rounds?]
  rw [if_pos ⟨hnull k₁ hk₁ _ hu₁ hw, hlog k₂ hk₂ _ hu₂ hl, hseq k₃ hk₃ _ hu₃ hs⟩]
  rfl

structure Proper (t : Tree) : Prop where
  ops : ∀ u ∈ t.subtrees, u.op.Proper (u.kids.map Tree.op)
  loops : ∀ u ∈ t.subtrees, isLoop u.op u.kids = true → (rounds? u.kids).isSome = true

theorem proper_mk {r : RecId} {o : Node} {ks : List Tree} :
    (Tree.mk r o ks).Proper ↔
      o.Proper (ks.map Tree.op) ∧ (isLoop o ks = true → (rounds? ks).isSome = true) ∧
        ∀ k ∈ ks, k.Proper := by
  constructor
  · intro h
    have hsub : ∀ k ∈ ks, ∀ u ∈ k.subtrees, u ∈ (Tree.mk r o ks).subtrees :=
      fun k hk u hu => mem_subtrees_mk.mpr (Or.inr ⟨k, hk, hu⟩)
    refine ⟨h.ops _ (self_mem_subtrees _), h.loops _ (self_mem_subtrees _), fun k hk => ?_⟩
    exact ⟨fun u hu => h.ops u (hsub k hk u hu), fun u hu => h.loops u (hsub k hk u hu)⟩
  · rintro ⟨ho, hl, hks⟩
    constructor
    · intro u hu
      rcases mem_subtrees_mk.mp hu with rfl | ⟨k, hk, hu⟩
      · exact ho
      · exact (hks k hk).ops u hu
    · intro u hu
      rcases mem_subtrees_mk.mp hu with rfl | ⟨k, hk, hu⟩
      · exact hl
      · exact (hks k hk).loops u hu

theorem Proper.op {t : Tree} (h : t.Proper) : t.op.Proper (t.kids.map Tree.op) :=
  h.ops t (self_mem_subtrees t)

theorem Proper.subtree {t u : Tree} (h : t.Proper) (hu : u ∈ t.subtrees) : u.Proper :=
  ⟨fun v hv => h.ops v (subtrees_trans hu hv), fun v hv => h.loops v (subtrees_trans hu hv)⟩

theorem Proper.kid {t k : Tree} (h : t.Proper) (hk : k ∈ t.kids) : k.Proper :=
  h.subtree (kid_mem_subtrees hk)

theorem Proper.mapOps {t : Tree} {g : RecId → Node → Node} (h : t.Proper)
    (hg : ∀ u ∈ t.subtrees, u.op.Revised (g u.root u.op)) : (t.mapOps g).Proper := by
  constructor
  · intro u hu
    rw [subtrees_mapOps] at hu
    obtain ⟨v, hv, rfl⟩ := List.mem_map.mp hu
    rw [op_mapOps, kids_mapOps, List.map_map]
    refine (h.ops v hv).revised (hg v hv) ?_
    rw [List.forall₂_map_left_iff, List.forall₂_map_right_iff, List.forall₂_same]
    intro k hk
    rw [Function.comp_apply, op_mapOps]
    exact hg k (subtrees_trans hv (kid_mem_subtrees hk))
  · intro u hu hloop
    rw [subtrees_mapOps] at hu
    obtain ⟨v, hv, rfl⟩ := List.mem_map.mp hu
    have hbelow : ∀ k ∈ v.kids, ∀ u ∈ k.subtrees, u.op.Revised (g u.root u.op) := fun k hk u hu =>
      hg u (subtrees_trans hv (subtrees_trans (kid_mem_subtrees hk) hu))
    rw [op_mapOps, kids_mapOps, isLoop_mapOps (hg v hv).sameShape fun k hk =>
      (hbelow k hk k (self_mem_subtrees k)).sameShape] at hloop
    rw [kids_mapOps]
    refine isSome_rounds?_mapOps ?_ ?_ ?_ (h.loops v hv hloop)
    · exact fun k hk u hu hc => (hbelow k hk u hu).code.trans hc
    · exact fun k hk u hu hc => (hbelow k hk u hu).opClass.trans hc
    · exact fun k hk u hu hc => (hbelow k hk u hu).code.trans hc

theorem isLoop_revised {o o' : Node} (h : o.Revised o') (ks : List Tree) : isLoop o' ks = isLoop o ks := by
  rw [isLoop, isLoop, h.code]

theorem Proper.reroot {t : Tree} {o : Node} (h : t.Proper) (ho : t.op.Revised o) :
    (Tree.mk t.root o t.kids).Proper := by
  refine proper_mk.mpr ⟨h.op.revised ho ?_, ?_, fun k hk => h.kid hk⟩
  · rw [List.forall₂_same]
    exact fun k _ => .refl k
  · rw [isLoop_revised ho]
    exact h.loops t (self_mem_subtrees t)

structure Finished (t : Tree) : Prop where
  proper : t.Proper
  isEx : t.op.isEx = false

theorem Finished.reroot {t : Tree} {o : Node} (h : t.Finished) (ho : t.op.Revised o) :
    (Tree.mk t.root o t.kids).Finished := ⟨h.proper.reroot ho, ho.isEx.trans h.isEx⟩

theorem Finished.wantScalar {t : Tree} (h : t.Finished) : t.wantScalar.Finished :=
  h.reroot (t.op.revised_operand .scalar (by simp))

theorem Finished.wantList {t : Tree} (h : t.Finished) : t.wantList.Finished :=
  h.reroot (t.op.revised_operand .list (by simp))

theorem Finished.withFlag {t : Tree} (h : t.Finished) {f : Flags} (hf : f &&& 3 = 0) :
    (t.withFlag f).Finished :=
  h.reroot ⟨rfl, rfl, fun hw => (t.op.revised_flags f hf).known hw⟩

theorem Finished.mapOps {t : Tree} {g : RecId → Node → Node} (h : t.Finished)
    (hg : ∀ u ∈ t.subtrees, u.op.Revised (g u.root u.op)) : (t.mapOps g).Finished := by
  refine ⟨h.proper.mapOps hg, ?_⟩
  rw [op_mapOps, (hg t (self_mem_subtrees t)).isEx]
  exact h.isEx

theorem Finished.void {t : Tree} (h : t.Finished) : t.void.Finished := by
  refine h.mapOps fun u _ => ?_
  rw [markVoid]
  split
  · exact u.op.revised_want .void (by simp)
  · exact .refl _

theorem Finished.derefKid {t : Tree} (h : t.Finished) (deref : Priv) : (derefKid t deref).Finished := by
  have hmod : ∀ q : RecId,
      (t.modify q fun n => { n with priv := n.priv ||| deref }.plain).Finished := by
    intro q
    refine h.mapOps fun u _ => ?_
    split
    · exact ⟨rfl, rfl, fun h => h⟩
    · exact .refl _
  unfold Build.derefKid
  split
  · split
    · exact hmod _
    · exact h
  · split
    · exact hmod _
    · exact h
  · exact h

/-- The kids an op takes are told by its opcode alone while it has no context to pass on. -/
theorem proper_op {o : Node} {ks : List Node} (hn : o.code ≠ .null ∨ o.ex = .null)
    (ha : o.Arity ks.length) (hks : ∀ k ∈ ks, k.isEx = false)
    (hk : o.code.foldSafe = true → ∀ k ∈ ks, k.code = .list → k.want ≠ .unknown) : o.Proper ks where
  toArity := ha
  ex h := by
    rcases hn with hn | hn <;> simp [Node.isEx, hn] at h
  known hs _ := hk hs
  user k hk hex := by simp [hks k hk] at hex

theorem Finished.mk_op {r : RecId} {o o' : Node} {ks : List Tree} (ho : o.Revised o')
    (hn : o.code ≠ .null ∨ o.ex = .null) (ha : o.Arity ks.length)
    (hl : isLoop o ks = true → (rounds? ks).isSome = true) (hks : ∀ k ∈ ks, k.Finished)
    (hk : o.code.foldSafe = true → ∀ k ∈ ks, k.op.code = .list → k.op.want ≠ .unknown) :
    (Tree.mk r o' ks).Finished := by
  have hproper : o.Proper (ks.map Tree.op) := by
    refine proper_op hn (by simpa using ha) (fun k h => ?_) fun hs k h => ?_
    · obtain ⟨u, hu, rfl⟩ := List.mem_map.mp h
      exact (hks u hu).isEx
    · obtain ⟨u, hu, rfl⟩ := List.mem_map.mp h
      exact hk hs u hu
  refine ⟨proper_mk.mpr ⟨hproper.revised ho ?_, ?_, fun k h => (hks k h).proper⟩, ?_⟩
  · rw [List.forall₂_same]
    exact fun k _ => .refl k
  · rw [isLoop_revised ho]
    exact hl
  · rw [op_mk, ho.isEx]
    rcases hn with hn | hn <;> simp [Node.isEx, hn]

theorem arity_of_role {o : Node} {n : Nat} (hl : o.role.isLeaf = false) (he : o.role.isElem = false)
    (hs : o.role.isSingle = true → n ≤ 1) : o.Arity n where
  leaf h := by simp [hl] at h
  elem h := by simp [he] at h
  single := hs

/-- A tree with the given code at its root, made by adding kids one after the other. -/
theorem snoc_eq (r : RecId) (o : Node) (ks : List Tree) (k : Tree) :
    ∃ o', o.Revised o' ∧ (Tree.mk r o ks).snoc k = Tree.mk r o' (ks ++ [k]) := by
  cases ks with
  | nil => exact ⟨_, o.revised_flags Flags.kids (by decide), rfl⟩
  | cons => exact ⟨o, .refl o, rfl⟩

theorem snocAll_eq (r : RecId) (o : Node) (ks js : List Tree) :
    ∃ o', o.Revised o' ∧ snocAll (Tree.mk r o ks) js = Tree.mk r o' (ks ++ js.map Tree.wantList) := by
  induction js generalizing o ks with
  | nil => exact ⟨o, .refl o, by simp [snocAll]⟩
  | cons j js ih =>
    obtain ⟨o', ho', h⟩ := snoc_eq r o ks j.wantList
    obtain ⟨o'', ho'', h'⟩ := ih o' (ks ++ [j.wantList])
    refine ⟨o'', ho'.trans ho'', ?_⟩
    rw [snocAll, List.foldl_cons, h]
    simpa [snocAll] using h'

theorem grown_eq (r : RecId) (o : Node) (ks js : List Tree) :
    ∃ o', o.Revised o' ∧ grown (Tree.mk r o ks) js = Tree.mk r o' (ks ++ js) := by
  induction js generalizing o ks with
  | nil => exact ⟨o, .refl o, by simp [grown]⟩
  | cons j js ih =>
    obtain ⟨o', ho', h⟩ := snoc_eq r o ks j
    obtain ⟨o'', ho'', h'⟩ := ih o' (ks ++ [j])
    refine ⟨o'', ho'.trans ho'', ?_⟩
    rw [grown, List.foldl_cons, h]
    simpa [grown] using h'

theorem Finished.leaf {r : RecId} {o : Node} (hn : o.code ≠ .null)
    (he : o.code.isElem = false) : (Tree.mk r o []).Finished := by
  refine .mk_op (.refl o) (Or.inl hn) ⟨fun _ => rfl, fun h => ?_, fun _ => Nat.zero_le 1⟩
    (by simp [isLoop]) (by simp) (by simp)
  rw [Node.role_of_ne hn, he] at h
  cases h

theorem want_wantScalar (t : Tree) : t.wantScalar.op.want ≠ .unknown :=
  t.op.want_operand .scalar (by simp)

theorem want_wantList (t : Tree) : t.wantList.op.want ≠ .unknown := t.op.want_operand .list (by simp)

end Tree

namespace Build

open OpTree.Tree TreeM

theorem finished_of_folded {t t' : Tree} (h : Folded t t') (ht : t.Finished) : t'.Finished := by
  rcases h with rfl | ⟨-, r, v, line, id, rfl⟩
  · exact ht
  · exact .leaf (by simp) rfl

theorem arity_of_class {t : Opcode} {n : Nat} {o : Node} (ho : o.code = t) (hx : o.ex = .null)
    (ht : t.opClass = .unop ∧ n ≤ 1 ∨ t.opClass = .binop ∧ n = 2 ∨ t.opClass = .listop) : o.Arity n := by
  have hrole : o.role = t := by
    unfold Node.role
    split <;> simp_all
  constructor <;> rw [hrole] <;> intro h
  all_goals
    rcases ht with ⟨ht, hn⟩ | ⟨ht, hn⟩ | ht
    all_goals
      cases t <;> simp_all [Opcode.opClass, Opcode.isLeaf, Opcode.isElem, Opcode.isSingle]

theorem finished_unary {r : RecId} {o : Node} {k : Tree} (hc : o.code.opClass = .unop)
    (hx : o.ex = .null) (hk : k.Finished)
    (hw : o.code.foldSafe = true → k.op.code = .list → k.op.want ≠ .unknown) :
    ((Tree.mk r o []).snoc k).Finished := by
  obtain ⟨o', ho, h⟩ := snoc_eq r o [] k
  have hloop : o.code ≠ .leaveloop := fun hl => by simp [hl, Opcode.opClass] at hc
  rw [h]
  refine .mk_op ho (Or.inr hx) (arity_of_class rfl hx (Or.inl ⟨hc, by simp⟩)) ?_ ?_ ?_
  · simp [isLoop, hloop]
  · simpa using hk
  · simpa using hw

theorem finished_binary {r : RecId} {o : Node} {x y : Tree} (hc : o.code.opClass = .binop)
    (hx : o.ex = .null) (hl : isLoop o [x, y] = true → (rounds? [x, y]).isSome = true)
    (hks : x.Finished ∧ y.Finished)
    (hw : o.code.foldSafe = true → x.op.want ≠ .unknown ∧ y.op.want ≠ .unknown) :
    (((Tree.mk r o []).snoc x).snoc y).Finished := by
  obtain ⟨o', ho, h⟩ := snoc_eq r o [] x
  obtain ⟨o'', ho', h'⟩ := snoc_eq r o' ([] ++ [x]) y
  rw [h, h']
  refine .mk_op (ho.trans ho') (Or.inr hx)
    (arity_of_class rfl hx (Or.inr (Or.inl ⟨hc, by simp⟩))) hl (by simpa using hks) fun hs => ?_
  have := hw hs
  simp [this]

theorem Items.finished {tail : Bool} {stmts : List Stmt} {es ks : List Tree}
    (h : Items tail stmts es ks) (hes : ∀ e ∈ es, e.Finished) : ∀ k ∈ ks, k.Finished := by
  induction h with
  | nil => simp
  | empty n i file he h ih =>
    intro k hk
    rcases List.mem_cons.mp hk with rfl | hk
    · exact .leaf (by simp) rfl
    · exact ih hes k hk
  | @expr s rest e es ks n i file he h ih =>
    have hall := ih fun e' he' => hes e' (List.mem_cons_of_mem _ he')
    have hee := hes e (List.mem_cons_self ..)
    intro k hk
    rcases List.mem_cons.mp hk with rfl | hk
    · exact .leaf (by simp) rfl
    rcases List.mem_cons.mp hk with rfl | hk
    · split
      · exact hee.void
      · exact hee
    · exact hall k hk

theorem finished_block {r : RecId} {i : Nat} {ks : List Tree} (hks : ∀ k ∈ ks, k.Finished) :
    (grown (.mk r { code := .lineseq, id := i } []) ks).Finished := by
  obtain ⟨o', ho, h⟩ := grown_eq r { code := .lineseq, id := i } [] ks
  rw [h]
  refine .mk_op ho (Or.inr rfl) (arity_of_class rfl rfl (Or.inr (Or.inr rfl))) (by simp [isLoop])
    (by simpa using hks) ?_
  simp [Opcode.foldSafe, Opcode.foldable]

theorem finished_bodyTree {s u : RecId} {i j : Nat} {ks : List Tree} (hks : ∀ k ∈ ks, k.Finished) :
    (bodyTree s u i j ks).Finished := by
  have hgrown : bodyTree s u i j ks =
      grown (.mk s { code := .lineseq, id := i } []) (ks ++ [.mk u { code := .unstack, id := j } []]) := by
    simp [bodyTree, grown]
  rw [hgrown]
  refine finished_block fun k hk => ?_
  rcases List.mem_append.mp hk with hk | hk
  · exact hks k hk
  · rw [List.mem_singleton.mp hk]
    exact .leaf (by simp) rfl

theorem finished_logTree {t : Opcode} {l : RecId} {i : Nat} {x y : Tree}
    (ht : t = .and ∨ t = .or ∨ t = .dor) (hx : x.Finished) (hy : y.Finished) :
    (logTree t l i x y).Finished := by
  obtain ⟨o', ho, h⟩ := snoc_eq l { code := t, id := i } [] x
  obtain ⟨o'', ho', h'⟩ := snoc_eq l o' ([] ++ [x]) y
  rw [logTree, h, h']
  refine .mk_op (ho.trans ho') (Or.inr rfl) (arity_of_role ?_ ?_ ?_) ?_ (by simp [hx, hy]) ?_
  all_goals
    rcases ht with rfl | rfl | rfl <;>
      simp [Node.role, isLoop, Opcode.isLeaf, Opcode.isElem, Opcode.isSingle, Opcode.foldSafe,
        Opcode.foldable]

theorem finished_condTree {l : RecId} {i : Nat} {x y z : Tree} (hx : x.Finished) (hy : y.Finished)
    (hz : z.Finished) : (condTree l i x y z).Finished := by
  obtain ⟨o₁, h₁, e₁⟩ := snoc_eq l { code := .condExpr, id := i } [] x
  obtain ⟨o₂, h₂, e₂⟩ := snoc_eq l o₁ ([] ++ [x]) y
  obtain ⟨o₃, h₃, e₃⟩ := snoc_eq l o₂ ([] ++ [x] ++ [y]) z
  rw [condTree, e₁, e₂, e₃]
  refine .mk_op ((h₁.trans h₂).trans h₃) (Or.inr rfl) (arity_of_role rfl rfl ?_) (by simp [isLoop]) ?_ ?_
  · simp [Node.role, Opcode.isSingle]
  · simp [hx, hy, hz]
  · simp [Opcode.foldSafe, Opcode.foldable]

theorem finished_enterTree {r : RecId} {targ : Int} {i : Nat} {lo hi : Tree} (hlo : lo.Finished)
    (hhi : hi.Finished) : (enterTree r targ i lo hi).Finished := by
  obtain ⟨o₁, h₁, e₁⟩ := snoc_eq r { code := .enteriter, targ := targ, id := i } [] lo.wantScalar
  obtain ⟨o₂, h₂, e₂⟩ := snoc_eq r o₁ ([] ++ [lo.wantScalar]) hi.wantScalar
  rw [enterTree, e₁, e₂]
  refine .mk_op (h₁.trans h₂) (Or.inr rfl) (arity_of_role rfl rfl ?_) (by simp [isLoop]) ?_ ?_
  · simp [Node.role, Opcode.isSingle]
  · simp [hlo.wantScalar, hhi.wantScalar]
  · simp [Opcode.foldSafe, Opcode.foldable]

theorem isSome_rounds?_foreach (ent x : Tree) (w l s u : RecId) (i₁ i₂ i₃ i₄ : Nat) (ks : List Tree) :
    (rounds? [ent, (Tree.mk w { code := .null, id := i₁ } []).snoc
      (logTree .and l i₂ x (bodyTree s u i₃ i₄ ks))]).isSome = true := by
  obtain ⟨so, hso, hbody⟩ := bodyTree_eq s u i₃ i₄ ks
  obtain ⟨o₁, h₁, e₁⟩ := snoc_eq l { code := .and, id := i₂ } [] x
  obtain ⟨o₂, h₂, e₂⟩ := snoc_eq l o₁ ([] ++ [x]) (bodyTree s u i₃ i₄ ks)
  have hlog : o₂.opClass = .logop := (h₁.trans h₂).opClass
  rw [logTree, e₁, e₂, hbody]
  simp only [snoc, rounds?, op_mk, root_mk, kids_mk, List.nil_append, List.cons_append]
  rw [if_pos ⟨rfl, hlog, hso⟩]
  rfl

/-- The element op under a test or a removal is the one op that is neutralized from the start. -/
theorem finished_elemop {r : RecId} {t : Opcode} {e : Tree} {i : Nat} (h : e.Finished)
    (ht : t = .existsElem ∨ t = .deleteElem) (he : e.op.code = .aelem ∨ e.op.code = .helem) :
    ((Tree.mk r { code := t, id := i } []).snoc (nulled e)).Finished := by
  obtain ⟨o', ho, heq⟩ := snoc_eq r { code := t, id := i } [] (nulled e)
  have hcode : e.op.code ≠ .null := by rcases he with he | he <;> simp [he]
  have hrole : e.op.neutralized.plain.role = e.op.role := e.op.role_neutralized hcode
  have hkids : ∀ k ∈ e.kids.map Tree.op, k.isEx = false := by
    intro k hk
    by_contra hex
    rcases h.proper.op.user k hk (by simpa using hex) with hc | hc <;> rcases he with he | he <;>
      rw [he] at hc <;> cases hc
  have hnulled : (nulled e).Proper := by
    refine proper_mk.mpr ⟨⟨⟨?_, ?_, ?_⟩, fun _ => ?_, fun _ hex => ?_, fun k hk hex => ?_⟩, ?_,
      fun k hk => h.proper.kid hk⟩
    · rw [hrole]
      exact h.proper.op.leaf
    · rw [hrole]
      exact h.proper.op.elem
    · rw [hrole]
      exact h.proper.op.single
    · simpa [neutralized_of_ne hcode, Node.plain] using he
    · simp [neutralized_of_ne hcode, Node.plain, Node.isEx, hcode] at hex
    · simp [hkids k hk] at hex
    · simp [isLoop, Node.neutralized_code]
  rw [heq]
  have hop : (Node.Proper { code := t, id := i } [(nulled e).op]) := by
    refine ⟨⟨?_, ?_, ?_⟩, ?_, ?_, ?_⟩ <;> rcases ht with rfl | rfl <;>
      simp [Node.role, Node.isEx, Opcode.isLeaf, Opcode.isElem, Opcode.foldSafe, Opcode.foldable]
  refine ⟨proper_mk.mpr ⟨hop.revised ho ?_, ?_, by simpa using hnulled⟩, ?_⟩
  · simp [Node.Revised.refl]
  · rw [isLoop_revised ho]
    rcases ht with rfl | rfl <;> simp [isLoop]
  · rw [op_mk, ho.isEx]
    rcases ht with rfl | rfl <;> rfl

theorem Makes.finished {ks : List Tree} {t : Tree} (h : Makes ks t)
    (hent : ∀ k ∈ ks, k.op.code ≠ .enteriter) (hks : ∀ k ∈ ks, k.Finished) : t.Finished := by
  cases h with
  | const | gv | stub => exact .leaf (by simp) rfl
  | pad _ _ _ _ ht => rcases ht with rfl | rfl | rfl <;> exact .leaf (by simp) rfl
  | rv2 _ k _ ht =>
    refine finished_unary ?_ rfl (hks k (by simp)).wantScalar fun _ _ => want_wantScalar k
    rcases ht with rfl | rfl | rfl <;> rfl
  | scalar _ k =>
    exact finished_unary rfl rfl (hks k (by simp)).wantScalar fun _ _ => want_wantScalar k
  | unop _ k _ _ ht hf =>
    exact finished_of_folded hf (finished_unary ht rfl (hks k (by simp)).wantScalar fun _ _ => want_wantScalar k)
  | unopNone _ _ _ ht hf =>
    refine finished_of_folded hf (.mk_op (.refl _) (Or.inr rfl) (arity_of_class rfl rfl ?_)
      (by simp [isLoop]) (by simp) (by simp))
    exact Or.inl ⟨ht, Nat.zero_le 1⟩
  | binop _ x y _ ht hf =>
    refine finished_of_folded hf (finished_binary ht rfl ?_ ⟨?_, ?_⟩ fun _ =>
      ⟨want_wantScalar x, want_wantScalar y⟩)
    · simp [isLoop, hent x]
    · exact (hks x (by simp)).wantScalar
    · exact (hks y (by simp)).wantScalar
  | @listop o m t ks i j t' ht hf =>
    refine finished_of_folded hf ?_
    obtain ⟨o', ho, h⟩ := snoc_eq o { code := t, id := i } [] (.mk m { code := .pushmark, id := j } [])
    obtain ⟨o'', ho', h'⟩ := snocAll_eq o o' ([] ++ [.mk m { code := .pushmark, id := j } []]) ks
    rw [h, h']
    have hloop : t ≠ .leaveloop := fun hl => by simp [hl, Opcode.opClass] at ht
    refine .mk_op (ho.trans ho') (Or.inr rfl) (arity_of_class rfl rfl (Or.inr (Or.inr ht)))
      (by simp [isLoop, hloop]) ?_ ?_
    · intro k hk
      rcases List.mem_cons.mp hk with rfl | hk
      · exact .leaf (by simp) rfl
      · obtain ⟨j, hj, rfl⟩ := List.mem_map.mp hk
        exact (hks j hj).wantList
    · intro _ k hk hlist
      rcases List.mem_cons.mp hk with rfl | hk
      · simp at hlist
      · obtain ⟨j, hj, rfl⟩ := List.mem_map.mp hk
        exact want_wantList j
  | elem _ c key deref _ ht =>
    refine finished_binary ?_ rfl ?_ ⟨?_, (hks key (by simp)).wantScalar⟩ ?_
    · rcases ht with rfl | rfl <;> rfl
    · rcases ht with rfl | rfl <;> simp [isLoop]
    · exact ((hks c (by simp)).withFlag (by decide)).derefKid deref
    · rcases ht with rfl | rfl <;> simp [Opcode.foldSafe, Opcode.foldable]
  | elemop _ e _ ht he => exact finished_elemop (hks e (by simp)) ht he
  | arylen _ av =>
    refine finished_unary rfl rfl ((hks av (by simp)).withFlag (by decide)) ?_
    simp [Opcode.foldSafe, Opcode.foldable]
  | sassign _ src dst =>
    refine finished_binary rfl rfl (by simp [isLoop]) ⟨(hks src (by simp)).wantScalar, ?_⟩ ?_
    · exact ((hks dst (by simp)).withFlag (by decide)).wantScalar
    · simp [Opcode.foldSafe, Opcode.foldable]
  | logop _ _ x y _ _ ht =>
    refine finished_unary rfl rfl (finished_logTree ht (hks x (by simp)).wantScalar (hks y (by simp))) ?_
    rcases ht with rfl | rfl | rfl <;> simp [logTree]
  | cond _ _ x y z =>
    refine finished_unary rfl rfl (finished_condTree (hks x (by simp)).wantScalar (hks y (by simp))
      (hks z (by simp))) ?_
    simp [condTree]
  | foreach _ _ _ _ _ _ _ _ lo hi _ _ _ _ _ _ _ hit =>
    have hbody := hit.finished fun e he => hks e (by simp [he])
    refine finished_binary rfl rfl (fun _ => isSome_rounds?_foreach ..)
      ⟨finished_enterTree (hks lo (by simp)) (hks hi (by simp)), ?_⟩ ?_
    · refine finished_unary rfl rfl (finished_logTree (Or.inl rfl) ?_ (finished_bodyTree hbody)) ?_
      · exact Finished.wantScalar (.leaf (by simp) rfl)
      · simp [logTree]
    · simp [Opcode.foldSafe, Opcode.foldable]

theorem Made.finished {t : Tree} (h : Made t) : t.Finished := by
  induction h with
  | call hks h ih => exact h.finished (fun k hk => (hks k hk).code_ne_enteriter) ih

theorem finished_sub {r s : RecId} {i j : Nat} {f : Flags} {n : Int} {stmts : List Stmt}
    {es ks : List Tree} (h : Items true stmts es ks) (hes : ∀ e ∈ es, e.Finished) :
    (Tree.mk r { code := .leavesub, flags := f, refs := n, id := i }
      [grown (.mk s { code := .lineseq, id := j } []) ks]).Finished := by
  refine .mk_op (.refl _) (Or.inr rfl) (arity_of_role rfl rfl ?_) (by simp [isLoop]) ?_ ?_
  · simp [Node.role, Opcode.isSingle]
  · simpa using finished_block (h.finished hes)
  · simp [Opcode.foldSafe, Opcode.foldable]

end Build

end OpTree
