import OpTree.Proofs.Terrains
import OpTree.Proofs.Units

/-!
# Contexts of trees about scalars

A tree about scalars stays one when it is made void, when it becomes an operand or an item, and when the contexts of
its statements are fixed up.
-/

namespace OpTree

set_option autoImplicit false

/-- The op is the same, and so is its context, if that says anything about it. -/
structure Node.Upholds (n n' : Node) : Prop where
  code : n'.code = n.code
  want : n.code ≠ .unstack → n'.want = n.want

namespace Tree

open Opcode

variable {u : Use} {t x y : Tree} {ks body : List Tree} {tail : Bool} {g : RecId → Node → Node}

def Upheld (g : RecId → Node → Node) (t : Tree) : Prop := ∀ w ∈ t.subtrees, w.op.Upholds (g w.root w.op)

theorem upheld_mk {r : RecId} {o : Node} : Upheld g (mk r o ks) ↔ o.Upholds (g r o) ∧ ∀ k ∈ ks, Upheld g k := by
  constructor
  · intro h
    exact ⟨h _ (self_mem_subtrees _), fun k hk w hw => h w (subtrees_trans (kid_mem_subtrees hk) hw)⟩
  · rintro ⟨ho, hks⟩ w hw
    rcases mem_subtrees_mk.mp hw with rfl | ⟨k, hk, hwk⟩
    · exact ho
    · exact hks k hk w hwk

theorem Scalar.mapOps (h : Scalar u t) (hg : Upheld g t) : Scalar u (t.mapOps g) := by
  induction h with
  | leaf hc =>
    obtain ⟨ho, -⟩ := upheld_mk.mp hg
    exact .leaf (hc.imp ho.code.trans ho.code.trans)
  | @stub u r o hc hw =>
    obtain ⟨ho, -⟩ := upheld_mk.mp hg
    have hne : o.code ≠ .unstack := hc ▸ by decide
    exact .stub (ho.code.trans hc) fun hu => (ho.want hne).trans (hw hu)
  | global hc hi =>
    simp only [upheld_mk, List.forall_mem_singleton] at hg
    exact .global (hg.1.code.trans hc) (hg.2.1.code.trans hi)
  | unary hc hx ih =>
    simp only [upheld_mk, List.forall_mem_singleton] at hg
    exact .unary (hg.1.code ▸ hc) (ih hg.2)
  | binary hc hx hy ihx ihy =>
    simp only [upheld_mk, List.forall_mem_cons, List.not_mem_nil, false_implies, implies_true, and_true] at hg
    exact .binary (hg.1.code ▸ hc) (ihx hg.2.1) (ihy hg.2.2)
  | marked hc hp hks ih =>
    simp only [upheld_mk, List.forall_mem_cons] at hg
    obtain ⟨ho, ⟨hm, -⟩, hall⟩ := hg
    rw [mapOps_mk, List.map_cons, mapOps_mk]
    refine .marked ?_ (hm.code.trans hp) fun k hk => ?_
    · exact hc.imp ho.code.trans (Or.imp ho.code.trans ho.code.trans)
    · obtain ⟨j, hj, rfl⟩ := List.mem_map.mp hk
      exact ih j hj (hall j hj)
  | @short u n l no lo x y hn hc hw hx hy ihx ihy =>
    simp only [upheld_mk, List.forall_mem_cons, List.not_mem_nil, false_implies, implies_true, and_true] at hg
    obtain ⟨ho, hl, hux, huy⟩ := hg
    have hne : lo.code ≠ .unstack := by
      intro he
      rw [he] at hc
      exact absurd hc (by decide)
    exact .short (ho.code.trans hn) (hl.code ▸ hc) (fun hu he => hw hu ((hl.want hne).symm.trans he)) (ihx hux) (ihy huy)
  | choice hn hc hx hy hz ihx ihy ihz =>
    simp only [upheld_mk, List.forall_mem_cons, List.not_mem_nil, false_implies, implies_true, and_true] at hg
    obtain ⟨ho, hl, hux, huy, huz⟩ := hg
    exact .choice (ho.code.trans hn) (hl.code.trans hc) (ihx hux) (ihy huy) (ihz huz)

theorem Ranged.mapOps (h : Ranged x y body t) (hg : Upheld g t) :
    Ranged (x.mapOps g) (y.mapOps g) (body.map (Tree.mapOps g)) (t.mapOps g) ∧ Upheld g x ∧ Upheld g y ∧
      ∀ k ∈ body, Upheld g k := by
  cases h with
  | mk hc he hw hl hi hs =>
    simp only [upheld_mk, List.forall_mem_cons, List.not_mem_nil, false_implies, implies_true, and_true] at hg
    obtain ⟨ho, ⟨heo, hx, hy⟩, hwo, hlo, hio, hso, hbody⟩ := hg
    refine ⟨?_, hx, hy, hbody⟩
    simp only [mapOps_mk, List.map_cons, List.map_nil]
    exact .mk (ho.code.trans hc) (heo.code.trans he) (hwo.code.trans hw) (hlo.code.trans hl) (hio.code.trans hi)
      (hso.code.trans hs)

theorem Block.mapOps (h : Block tail ks) (hg : ∀ k ∈ ks, Upheld g k) : Block tail (ks.map (Tree.mapOps g)) := by
  have hleaf : ∀ {r : RecId} {o : Node} {c : Opcode}, Upheld g (mk r o []) → o.code = c → (g r o).code = c :=
    fun ho hc => (upheld_mk.mp ho).1.code.trans hc
  have hwant : ∀ {e : Tree}, Upheld g e → e.op.code ≠ .unstack → e.op.want ≠ .unknown → (e.mapOps g).op.want ≠ .unknown := by
    intro e he hc hw
    rw [op_mapOps, (he e (self_mem_subtrees _)).want hc]
    exact hw
  induction h with
  | close hc => exact .close (hleaf (List.forall_mem_singleton.mp hg) hc)
  | last hc => exact .last (hleaf (List.forall_mem_singleton.mp hg) hc)
  | value hc he =>
    simp only [List.forall_mem_cons, List.not_mem_nil, false_implies, implies_true, and_true] at hg
    exact .value (hleaf hg.1 hc) (he.mapOps hg.2)
  | final hc ht hx hy hbody ih =>
    simp only [List.forall_mem_cons, List.not_mem_nil, false_implies, implies_true, and_true] at hg
    obtain ⟨hr, hux, huy, hub⟩ := ht.mapOps hg.2
    exact .final (hleaf hg.1 hc) hr (hx.mapOps hux) (hy.mapOps huy) (ih hub)
  | empty hc _ ih =>
    simp only [List.forall_mem_cons] at hg
    exact .empty (hleaf hg.1 hc) (ih hg.2)
  | expr hc he hw _ ih =>
    simp only [List.forall_mem_cons] at hg
    refine .expr (hleaf hg.1 hc) (he.mapOps hg.2.1) (hwant hg.2.1 ?_ hw) (ih hg.2.2)
    intro hu
    have hm := he.code_mem
    rw [hu] at hm
    exact absurd hm (by decide)
  | loop hc ht hx hy hbody hw _ ihb ih =>
    simp only [List.forall_mem_cons] at hg
    obtain ⟨hr, hux, huy, hub⟩ := ht.mapOps hg.2.1
    refine .loop (hleaf hg.1 hc) hr (hx.mapOps hux) (hy.mapOps huy) (ihb hub) (hwant hg.2.1 ?_ hw) (ih hg.2.2)
    rw [ht.code]
    decide

theorem Whole.mapOps (h : Whole t) (hg : Upheld g t) : Whole (t.mapOps g) := by
  cases h with
  | mk hc hs h =>
    simp only [upheld_mk, List.forall_mem_singleton] at hg
    obtain ⟨ho, hso, hks⟩ := hg
    rw [mapOps_mk, List.map_singleton, mapOps_mk]
    exact .mk (ho.code.trans hc) (hso.code.trans hs) (h.mapOps hks)

theorem voided_of_valued {r : RecId} {o : Node} (hc : o.code ∈ unary ++ binary ++ [.say, .die, .ret]) :
    (mk r o ks).voided = [r] := by
  rw [voided]
  revert hc
  generalize o.code = c
  cases c <;> first | exact fun _ => rfl | exact fun hc => absurd hc (by decide)

theorem voided_short {n l : RecId} {no lo : Node} (hn : no.code = .null) (hc : lo.code ∈ Opcode.short) :
    (mk n no [mk l lo [x, y]]).voided = n :: l :: y.voided := by
  have hb : lo.code.branches = true := by
    revert hc
    generalize lo.code = c
    revert c
    decide
  have hl : (mk l lo [x, y]).voided = l :: y.voided := by
    rw [voided]
    simp only [Opcode.short, List.mem_cons, List.not_mem_nil, or_false] at hc
    rcases hc with hc | hc | hc
    · simp only [hc, voidedSecond]
    · simp only [hc, voidedSecond]
    · simp only [hc, voidedSecond]
  rw [voided, hn]
  simp only [voidedBelow, op_mk, Node.opClass_of_branches hb, if_true, hl]

theorem voided_choice {n l : RecId} {no lo : Node} {z : Tree} (hn : no.code = .null) (hc : lo.code = .condExpr) :
    (mk n no [mk l lo [x, y, z]]).voided = n :: l :: (y.voided ++ z.voided) := by
  have hl : (mk l lo [x, y, z]).voided = l :: (y.voided ++ z.voided) := by
    rw [voided]
    simp only [hc, voidedSecond, voidedThird]
  rw [voided, hn]
  simp only [voidedBelow, op_mk, Node.opClass_of_branches (o := lo) (hc ▸ rfl), if_true, hl]

/-- The context is known to be void where a tree is made void, and what it was elsewhere. -/
def Voids (g : RecId → Node → Node) (t : Tree) (s : List RecId) : Prop :=
  ∀ w ∈ t.subtrees, (g w.root w.op).code = w.op.code ∧ (w.root ∉ s → (g w.root w.op).want = w.op.want)

theorem Voids.upheld {s : List RecId} (h : Voids g t s) (hs : ∀ r ∈ t.recs, r ∉ s) : Upheld g t :=
  fun w hw => ⟨(h w hw).1, fun _ => (h w hw).2 (hs _ (List.mem_map.mpr ⟨w, hw, rfl⟩))⟩

theorem Voids.kid {s s' : List RecId} {k : Tree} (h : Voids g t s) (hk : k ∈ t.subtrees)
    (hs : ∀ r ∈ k.recs, r ∉ s' → r ∉ s) : Voids g k s' :=
  fun w hw => ⟨(h w (subtrees_trans hk hw)).1, fun hn =>
    (h w (subtrees_trans hk hw)).2 (hs _ (List.mem_map.mpr ⟨w, hw, rfl⟩) hn)⟩

theorem Scalar.voiding (h : Scalar u t) (hn : t.recs.Nodup) (hg : Voids g t t.voided) : Scalar .effect (t.mapOps g) := by
  have hown : ∀ {r : RecId} {o : Node} {ks : List Tree}, (mk r o ks).recs.Nodup → Voids g (mk r o ks) [r] →
      ∀ k ∈ ks, Upheld g k := by
    intro r o ks hn hg k hk
    have hkid : Voids g k [r] := hg.kid (kid_mem_subtrees hk) fun _ _ h => h
    refine hkid.upheld fun q hq hm => ?_
    rw [List.mem_singleton.mp hm] at hq
    exact root_notMem_kids hn (List.mem_flatMap.mpr ⟨k, hk, hq⟩)
  induction h with
  | leaf hc =>
    have ho := (hg _ (self_mem_subtrees _)).1
    exact .leaf (hc.imp ho.trans ho.trans)
  | stub hc =>
    have ho := (hg _ (self_mem_subtrees _)).1
    exact .stub (ho.trans hc) (by rintro ⟨⟩)
  | @global u r i o io hc hi =>
    have ho := (hg _ (self_mem_subtrees _)).1
    have hk := (hg (mk i io []) (kid_mem_subtrees (by simp))).1
    exact .global (ho.trans hc) (hk.trans hi)
  | unary hc hx =>
    have ho := (hg _ (self_mem_subtrees _)).1
    rw [voided_of_valued (by simp [hc])] at hg
    have hk := hown hn hg
    exact .unary (ho ▸ hc) (hx.mapOps (hk _ (by simp)))
  | binary hc hx hy =>
    have ho := (hg _ (self_mem_subtrees _)).1
    rw [voided_of_valued (by simp [hc])] at hg
    have hk := hown hn hg
    exact .binary (ho ▸ hc) (hx.mapOps (hk _ (by simp))) (hy.mapOps (hk _ (by simp)))
  | marked hc hp hks =>
    have ho := (hg _ (self_mem_subtrees _)).1
    rw [voided_of_valued (List.mem_append_right _ (by simpa using hc))] at hg
    have hk := hown hn hg
    have hm := (upheld_mk.mp (hk _ (List.mem_cons_self ..))).1
    rw [mapOps_mk, List.map_cons, mapOps_mk]
    refine .marked (hc.imp ho.trans (Or.imp ho.trans ho.trans)) (hm.code.trans hp) fun k hkm => ?_
    obtain ⟨j, hj, rfl⟩ := List.mem_map.mp hkm
    exact (hks j hj).mapOps (hk j (List.mem_cons_of_mem _ hj))
  | @short u n l no lo x y hnc hc hw hx hy ihx ihy =>
    have ho := (hg _ (self_mem_subtrees _)).1
    have hlog : mk l lo [x, y] ∈ (mk n no [mk l lo [x, y]]).subtrees := kid_mem_subtrees (by simp)
    have hl := (hg _ hlog).1
    rw [voided_short hnc hc] at hg
    simp only [recs_mk, List.flatMap_cons, List.flatMap_nil, List.append_nil, List.nodup_cons, List.mem_cons,
      List.mem_append, not_or, List.nodup_append] at hn
    obtain ⟨⟨hnl, hnx, hny⟩, ⟨hlx, hly⟩, hxn, hyn, hxy⟩ := hn
    refine .short (ho.trans hnc) (hl ▸ hc) (absurd rfl) ?_ (ihy hyn ?_)
    · refine hx.mapOps ((hg.kid (subtrees_trans hlog (kid_mem_subtrees (by simp))) fun _ _ h => h).upheld ?_)
      intro q hq hm
      rcases List.mem_cons.mp hm with rfl | hm
      · exact hnx hq
      · rcases List.mem_cons.mp hm with rfl | hm
        · exact hlx hq
        · exact hxy q hq q (voided_subset y hm) rfl
    · refine hg.kid (subtrees_trans hlog (kid_mem_subtrees (by simp))) fun q hq hv hm => ?_
      rcases List.mem_cons.mp hm with rfl | hm
      · exact hny hq
      · rcases List.mem_cons.mp hm with rfl | hm
        · exact hly hq
        · exact hv hm
  | @choice u n l no lo x y z hnc hc hx hy hz ihx ihy ihz =>
    have ho := (hg _ (self_mem_subtrees _)).1
    have hlog : mk l lo [x, y, z] ∈ (mk n no [mk l lo [x, y, z]]).subtrees := kid_mem_subtrees (by simp)
    have hl := (hg _ hlog).1
    rw [voided_choice hnc hc] at hg
    simp only [recs_mk, List.flatMap_cons, List.flatMap_nil, List.append_nil, List.nodup_cons, List.mem_cons,
      List.mem_append, not_or, List.nodup_append] at hn
    obtain ⟨⟨hnl, hnx, hny, hnz⟩, ⟨hlx, hly, hlz⟩, hxn, ⟨hyn, hzn, hyz⟩, hxyz⟩ := hn
    have hin : ∀ k ∈ [x, y, z], k ∈ (mk n no [mk l lo [x, y, z]]).subtrees := fun k hk =>
      subtrees_trans hlog (kid_mem_subtrees hk)
    refine .choice (ho.trans hnc) (hl.trans hc) ?_ (ihy hyn ?_) (ihz hzn ?_)
    · refine hx.mapOps ((hg.kid (hin x (by simp)) fun _ _ h => h).upheld fun q hq hm => ?_)
      rcases List.mem_cons.mp hm with rfl | hm
      · exact hnx hq
      rcases List.mem_cons.mp hm with rfl | hm
      · exact hlx hq
      rcases List.mem_append.mp hm with hm | hm
      · exact hxyz q hq q (Or.inl (voided_subset y hm)) rfl
      · exact hxyz q hq q (Or.inr (voided_subset z hm)) rfl
    · refine hg.kid (hin y (by simp)) fun q hq hv hm => ?_
      rcases List.mem_cons.mp hm with rfl | hm
      · exact hny hq
      rcases List.mem_cons.mp hm with rfl | hm
      · exact hly hq
      rcases List.mem_append.mp hm with hm | hm
      · exact hv hm
      · exact hyz q hq q (voided_subset z hm) rfl
    · refine hg.kid (hin z (by simp)) fun q hq hv hm => ?_
      rcases List.mem_cons.mp hm with rfl | hm
      · exact hnz hq
      rcases List.mem_cons.mp hm with rfl | hm
      · exact hlz hq
      rcases List.mem_append.mp hm with hm | hm
      · exact hyz q (voided_subset y hm) q hq rfl
      · exact hv hm

theorem void_voids (t : Tree) : Voids (markVoid t.voided) t t.voided :=
  fun _ _ => ⟨markVoid_code _ _ _, fun hm => by rw [markVoid, if_neg hm]⟩

theorem want_void (t : Tree) : t.void.op.want = .void := by
  obtain ⟨r, o, ks⟩ := t
  have hm : r ∈ (mk r o ks).voided := by
    rw [voided]
    exact List.mem_cons_self ..
  rw [void, op_mapOps, root_mk, op_mk, markVoid, if_pos hm, Node.want_withWant]

/-- A new expression: undef, which has no context yet, or one that is fit for all uses. -/
inductive Fresh : Tree → Prop where
  | undef {r : RecId} {o : Node} (hc : o.code = .stub) (hw : o.want = .unknown) : Fresh (mk r o [])
  | scalar {t : Tree} (h : Scalar .operand t) : Fresh t

theorem Fresh.item (h : Fresh t) : Scalar .item t := by
  cases h with
  | undef hc => exact .stub hc (by rintro ⟨⟩)
  | scalar h => exact h.of_operand rfl .item

theorem Fresh.void (h : Fresh t) (hn : t.recs.Nodup) : Scalar .effect t.void := by
  cases h with
  | undef hc =>
    rw [Tree.void, mapOps_mk]
    exact .stub ((markVoid_code ..).trans hc) (by rintro ⟨⟩)
  | scalar h => exact h.voiding hn (void_voids t)

/-- Nothing but the root of an expression differs, and its context as far as it was not known. -/
theorem Scalar.reroot {o : Node} (h : Scalar .operand t) (hc : o.code = t.op.code)
    (hw : t.op.want ≠ .unknown → o.want = t.op.want) : Scalar .operand (mk t.root o t.kids) := by
  cases h with
  | leaf ho => exact .leaf (ho.imp hc.trans hc.trans)
  | @stub _ r o ho hs =>
    have hscalar : o.want = .scalar := hs rfl
    refine .stub (hc.trans ho) fun _ => (hw ?_).trans hscalar
    rw [op_mk, hscalar]
    decide
  | global ho hg => exact .global (hc.trans ho) hg
  | unary ho hx => exact .unary (hc ▸ ho) hx
  | binary ho hx hy => exact .binary (hc ▸ ho) hx hy
  | marked ho hp hks => exact .marked (ho.imp hc.trans (Or.imp hc.trans hc.trans)) hp hks
  | short ho hl hs hx hy => exact .short (hc.trans ho) hl hs hx hy
  | choice ho hl hx hy hz => exact .choice (hc.trans ho) hl hx hy hz

theorem Scalar.wantScalar (h : Scalar .operand t) : Scalar .operand t.wantScalar := by
  refine h.reroot (code_wantScalar t) fun hw => ?_
  rw [if_neg hw, Node.want_plain]

theorem Fresh.wantScalar (h : Fresh t) : Scalar .operand t.wantScalar := by
  cases h with
  | undef hc hw =>
    refine .stub ((code_wantScalar _).trans hc) fun _ => ?_
    rw [op_mk, if_pos hw, Node.want_plain, Node.want_withWant]
  | scalar h => exact h.wantScalar

theorem Fresh.wantList (h : Fresh t) : Scalar .item t.wantList := by
  cases h with
  | undef hc => exact .stub ((code_wantList _).trans hc) (by rintro ⟨⟩)
  | scalar h =>
    have hw : t.op.want ≠ .unknown → t.wantList.op.want = t.op.want := fun hw => by
      rw [Tree.wantList, op_mk, if_neg hw, Node.want_plain]
    exact (h.reroot (code_wantList t) hw).of_operand rfl .item

theorem Fresh.withFlag {f : Flags} (h : Fresh t) (hf : f &&& 3 = 0) : Fresh (t.withFlag f) := by
  have hw : (t.withFlag f).op.want = t.op.want := Want.ofBits_or t.op.flags f hf
  cases h with
  | undef hc hu => exact .undef hc (hw.trans hu)
  | scalar h => exact .scalar (h.reroot (code_withFlag t f) fun _ => hw)

/-- The fixups of a block leave the context of this op alone, or nobody looks at it. -/
def Known (n : Node) : Prop := n.code = .nextstate ∨ n.code = .unstack ∨ n.want ≠ .unknown

theorem Block.known (h : Block tail ks) : ∀ k ∈ ks, Known k.op ∨ tail = true ∧ ks.getLast? = some k := by
  have hstate : ∀ {r : RecId} {o : Node} {k : Tree}, o.code = .nextstate → k = mk r o [] → Known k.op := by
    rintro r o k hc rfl
    exact Or.inl hc
  induction h with
  | close hc => exact List.forall_mem_singleton.mpr (Or.inl (Or.inr (Or.inl hc)))
  | last hc => exact List.forall_mem_singleton.mpr (Or.inl (Or.inl hc))
  | value hc he => exact List.forall_mem_cons.mpr ⟨Or.inl (Or.inl hc), List.forall_mem_singleton.mpr (Or.inr ⟨rfl, rfl⟩)⟩
  | final hc => exact List.forall_mem_cons.mpr ⟨Or.inl (Or.inl hc), List.forall_mem_singleton.mpr (Or.inr ⟨rfl, rfl⟩)⟩
  | empty hc h ih =>
    refine List.forall_mem_cons.mpr ⟨Or.inl (Or.inl hc), fun k hk => (ih k hk).imp_right fun hl => ⟨hl.1, ?_⟩⟩
    rw [List.getLast?_cons_of_ne_nil h.ne_nil]
    exact hl.2
  | expr hc he hw h ih =>
    refine List.forall_mem_cons.mpr ⟨Or.inl (Or.inl hc), List.forall_mem_cons.mpr ⟨Or.inl (Or.inr (Or.inr hw)), ?_⟩⟩
    refine fun k hk => (ih k hk).imp_right fun hl => ⟨hl.1, ?_⟩
    rw [List.getLast?_cons_of_ne_nil (List.cons_ne_nil _ _), List.getLast?_cons_of_ne_nil h.ne_nil]
    exact hl.2
  | loop hc ht hx hy hbody hw h _ ih =>
    refine List.forall_mem_cons.mpr ⟨Or.inl (Or.inl hc), List.forall_mem_cons.mpr ⟨Or.inl (Or.inr (Or.inr hw)), ?_⟩⟩
    refine fun k hk => (ih k hk).imp_right fun hl => ⟨hl.1, ?_⟩
    rw [List.getLast?_cons_of_ne_nil (List.cons_ne_nil _ _), List.getLast?_cons_of_ne_nil h.ne_nil]
    exact hl.2

end Tree

namespace Arena

open OpTree.Tree

variable {a b c : Arena}

/-- Only file names differ, and the contexts of ops that clean up. -/
structure Settled (a b : Arena) : Prop extends Dressed a b where
  want : ∀ r, (a.node r).code ≠ .unstack → (b.node r).want = (a.node r).want

theorem Settled.refl (a : Arena) : Settled a a := ⟨.refl a, fun _ _ => rfl⟩

theorem Settled.trans (h : Settled a b) (h' : Settled b c) : Settled a c where
  toDressed := h.toDressed.trans h'.toDressed
  want r hr := (h'.want r (by rwa [(h.node r).alike.code])).trans (h.want r hr)

theorem Dressed.lastSibling_eq (h : Dressed a b) (r : RecId) : b.lastSibling r = a.lastSibling r := by
  rw [lastSibling, lastSibling, bound, bound, h.size]
  congr 1
  exact siblingsFrom_congr fun q _ => by rw [(h.node q).eq]; rfl

theorem Dressed.parent?_eq (h : Dressed a b) (r : RecId) : b.parent? r = a.parent? r := by
  rw [parent?, parent?, h.lastSibling_eq, (h.node _).eq]

theorem Dressed.last?_eq (h : Dressed a b) (r : RecId) : b.last? r = a.last? r := by
  have hsib : b.lastSibling = a.lastSibling := funext h.lastSibling_eq
  rw [last?, last?, hsib, (h.node r).eq]
  rfl

theorem settled_update {r : RecId} {f : Node → Node} (hf : ∀ n : Node, n.Dressed (f n))
    (hw : (a.node r).code ≠ .unstack → ∀ n : Node, (f n).want = n.want) : Settled a (a.update r f) := by
  have hcases := fun q => node_update_cases (a := a) (r := r) (f := f) q
  refine ⟨⟨rfl, size_update a r f, fun q => ?_⟩, fun q hq => ?_⟩
  · rcases hcases q with he | ⟨-, he⟩
    · rw [he]
      exact .refl _
    · rw [he]
      exact hf _
  · rcases hcases q with he | ⟨rfl, he⟩
    · rw [he]
    · rw [he]
      exact hw hq _

end Arena

namespace TreeM

open Arena OpTree.Tree

variable {a b c : Arena}

theorem void_settles {r : RecId} (hc : (b.node r).code = .unstack) (hok : Build.void r b = .ok () c) : Settled b c := by
  have hcode : ((b.update r fun n => n.withWant .void).node r).code = .unstack := by
    rcases node_update_cases (a := b) (r := r) (f := fun n => n.withWant .void) r with he | ⟨-, he⟩
    · rw [he, hc]
    · rw [he]
      exact hc
  rw [Build.void, bind_of_ok (get_apply _), show 2 * b.bound = 2 * b.recs.size + 1 + 1 by rw [bound]; omega,
    Build.voidFrom, bind_of_ok (show setWant r .void b = .ok () (b.update r fun n => n.withWant .void) from rfl),
    bind_of_ok (node_apply _ _), hcode] at hok
  obtain ⟨-, rfl⟩ := pure_eq_ok.mp hok
  exact settled_update (fun n => ⟨rfl, fun _ => by rw [Node.want_withWant]; decide, n.flags.has_withWant .void⟩)
    fun hn => absurd hc hn

theorem voidStatements_settles {keep : Option RecId} {ks : List RecId}
    (hks : ∀ k ∈ ks, Known (b.node k) ∨ keep = some k) (hok : voidStatements keep ks b = .ok () c) : Settled b c := by
  induction ks generalizing b with
  | nil =>
    obtain ⟨-, rfl⟩ := pure_eq_ok.mp hok
    exact .refl b
  | cons k ks ih =>
    obtain ⟨hk, hks⟩ := List.forall_mem_cons.mp hks
    have hrest : ∀ {d : Arena}, Settled b d → voidStatements keep ks d = .ok () c → Settled b c := by
      refine fun {d} hd hok => hd.trans (ih (fun j hj => (hks j hj).imp_left fun hj => ?_) hok)
      rcases hj with hj | hj | hj
      · exact Or.inl ((hd.node j).alike.code.trans hj)
      · exact Or.inr (Or.inl ((hd.node j).alike.code.trans hj))
      · exact Or.inr (Or.inr ((hd.node j).known hj))
    rw [voidStatements, bind_of_ok (node_apply _ _)] at hok
    split at hok
    · rename_i hc
      simp only [ne_eq, Bool.and_eq_true, decide_eq_true_eq] at hc
      obtain ⟨⟨hnext, hkeep⟩, hwant⟩ := hc
      obtain ⟨⟨⟩, d, hvoid, hok⟩ := bind_eq_ok.mp hok
      rcases hk with (hk | hk | hk) | hk
      · exact absurd hk hnext
      · exact hrest (void_settles hk hvoid) hok
      · exact absurd hwant hk
      · exact absurd hk.symm hkeep
    · exact hrest (.refl b) hok

/-- The fixups of a block with this kid leave its context alone. -/
def Untouched (a : Arena) (r : RecId) (k : Tree) : Prop :=
  Known k.op ∨ (∃ p, a.parent? r = some p ∧ (a.node p).code = .leavesub) ∧ a.last? r = some k.root

variable {t : Tree}

theorem fixup_settles (hab : Settled a b) (hh : a.Holds t) (hn : t.recs.Nodup)
    (hks : t.op.code = .lineseq → ∀ k ∈ t.kids, Untouched a t.root k) (hok : fixup t.root b = .ok () c) : Settled a c := by
  have hcode : (b.node t.root).code = t.op.code := by
    rw [(hab.node t.root).alike.code, ← Node.plain_code, hh.fits.op]
  rw [fixup, bind_of_ok (node_apply _ _), hcode] at hok
  generalize hc : t.op.code = code at hok hks hcode
  split at hok
  · have hne : (b.node t.root).code ≠ .unstack := hcode ▸ by decide
    split at hok
    · rw [bind_of_ok (get_apply _), update_apply] at hok
      cases hok
      exact hab.trans (settled_update (fun n => ⟨rfl, fun h => h, rfl⟩) fun _ _ => rfl)
    · obtain ⟨-, rfl⟩ := pure_eq_ok.mp hok
      exact hab
  · rw [bind_of_ok (get_apply _), hab.kids_eq, hh.kids_eq hn] at hok
    refine hab.trans (voidStatements_settles (fun q hq => ?_) hok)
    obtain ⟨k, hk, rfl⟩ := List.mem_map.mp hq
    have hop : (a.node k.root).plain = k.op := (hh.kid hk).fits.op
    have hcode : (b.node k.root).code = k.op.code := by
      rw [(hab.node k.root).alike.code, ← Node.plain_code, hop]
    rcases hks rfl k hk with (hk | hk | hk) | ⟨⟨p, hp, hsub⟩, hlast⟩
    · exact Or.inl (Or.inl (hcode.trans hk))
    · exact Or.inl (Or.inr (Or.inl (hcode.trans hk)))
    · refine Or.inl (Or.inr (Or.inr ((hab.node k.root).known fun hu => hk ?_)))
      rw [← hop, Node.want_plain, hu]
    · right
      have hany : ((b.parent? t.root).any fun p => (b.node p).code = .leavesub) = true := by
        rw [hab.parent?_eq, hp, Option.any_some, (hab.node p).alike.code, hsub]
        rfl
      rw [if_pos hany, hab.last?_eq, hlast]
  · obtain ⟨-, rfl⟩ := pure_eq_ok.mp hok
    exact hab

theorem fixupStack_settles {fuel : Nat} {ts : List Tree} (hab : Settled a b) (hts : ∀ t ∈ ts, a.Holds t ∧ t.recs.Nodup ∧
      ∀ w ∈ t.subtrees, w.op.code = .lineseq → ∀ k ∈ w.kids, Untouched a w.root k)
    (hok : fixupStack fuel (ts.map Tree.root) b = .ok () c) : Settled a c := by
  induction fuel generalizing ts b with
  | zero =>
    cases ts with
    | nil =>
      obtain ⟨-, rfl⟩ := pure_eq_ok.mp hok
      exact hab
    | cons t ts => exact absurd hok throw_ne_ok
  | succ fuel ih =>
    cases ts with
    | nil =>
      obtain ⟨-, rfl⟩ := pure_eq_ok.mp hok
      exact hab
    | cons t ts =>
      obtain ⟨hh, hn, hks⟩ := hts t (List.mem_cons_self ..)
      rw [List.map_cons, fixupStack] at hok
      obtain ⟨⟨⟩, d, hfix, hok⟩ := bind_eq_ok.mp hok
      have hd := fixup_settles hab hh hn (hks t (self_mem_subtrees t)) hfix
      rw [bind_of_ok (kids_apply _ _), hd.kids_eq, hh.kids_eq hn, ← List.map_reverse, ← List.map_append] at hok
      refine ih hd (fun u hu => ?_) hok
      rcases List.mem_append.mp hu with hu | hu
      · have hk := List.mem_reverse.mp hu
        exact ⟨hh.kid hk, nodup_subtree hn (kid_mem_subtrees hk), fun w hw =>
          hks w (subtrees_trans (kid_mem_subtrees hk) hw)⟩
      · exact hts u (List.mem_cons_of_mem t hu)

theorem fixups_settles (hh : a.Holds t) (hn : t.recs.Nodup) (hw : Whole t) (hok : fixups t.root a = .ok () c) :
    Settled a c := by
  rw [fixups, bind_of_ok (get_apply _)] at hok
  refine @fixupStack_settles _ _ _ _ [t] (.refl a) (List.forall_mem_singleton.mpr ⟨hh, hn, fun w hm hc k hk => ?_⟩) hok
  cases hw with
  | @mk r s o so ks ho hs hblock =>
    have hseq : Tree.mk s so ks ∈ (Tree.mk r o [.mk s so ks]).kids := List.mem_singleton_self _
    rcases mem_subtrees_mk.mp hm with rfl | ⟨j, hj, hwj⟩
    · exact absurd (ho.symm.trans hc) (by decide)
    rw [List.mem_singleton.mp hj] at hwj
    rcases mem_subtrees_mk.mp hwj with rfl | ⟨i, hi, hwi⟩
    · refine (hblock.known k hk).imp_right fun hlast => ⟨⟨r, hh.parent?_eq hn hseq, ?_⟩, ?_⟩
      · rw [← Node.plain_code, show (a.node r).plain = o from hh.fits.op, ho]
      · rw [(hh.kid hseq).last?_eq (nodup_subtree hn (kid_mem_subtrees hseq)), kids_mk, hlast.2]
        rfl
    · have hinner := (hblock.part i hi w hwi).2 hc
      exact (hinner.known k hk).imp_right fun hlast => absurd hlast.1 (by decide)

theorem Settled.upheld {a c : Arena} {t : Tree} (hac : Settled a c) (hh : a.Holds t) :
    Upheld (fun r _ => (c.node r).plain) t := by
  intro w hw
  have hop : (a.node w.root).plain = w.op := (hh w hw).op
  rw [← hop]
  refine ⟨(hac.node w.root).alike.code, fun hne => ?_⟩
  rw [Node.want_plain, Node.want_plain]
  exact hac.want w.root hne

theorem Whole.reread {a c : Arena} {t : Tree} (h : Whole t) (hh : a.Holds t) (hac : Settled a c) : Whole (t.reread c) :=
  h.mapOps (Settled.upheld hac hh)

end TreeM

end OpTree
