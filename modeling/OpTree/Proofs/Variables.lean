import OpTree.Proofs.Linearized

/-!
# Variables in trees

Every op of a made tree that names a variable names a slot of the pad, if those do that are made as leaves. And no
tree that is made has a fused op in it.
-/

namespace OpTree

set_option autoImplicit false

namespace Pad

def Has (p : Pad) (targ : Int) : Prop := 0 < targ ∧ targ < p.size

theorem has_iff {p : Pad} {targ : Int} : p.Has targ ↔ (p.get? targ).isSome = true := by
  unfold Has get? size
  by_cases h : targ ≤ 0
  · rw [if_pos h]
    simp only [Option.isSome_none, Bool.false_eq_true, iff_false]
    omega
  · rw [if_neg h, Option.isSome_iff_exists]
    constructor
    · intro hs
      exact ⟨_, Array.getElem?_eq_getElem (by omega)⟩
    · rintro ⟨v, hv⟩
      obtain ⟨hlt, -⟩ := Array.getElem?_eq_some_iff.mp hv
      omega

theorem Has.mono {p q : Pad} {targ : Int} (h : p.Has targ) (hs : p.size ≤ q.size) : q.Has targ :=
  ⟨h.1, by have := h.2; omega⟩

theorem has_find {p : Pad} {name : Bytes} (h : p.find name ≠ 0) : p.Has (p.find name) := by
  unfold find at h ⊢
  cases hf : (List.range p.names.size).reverse.find? fun i => i != 0 && (p.names.getD i default).name == name with
  | none =>
    rw [hf] at h
    exact absurd rfl h
  | some i =>
    rw [hf] at h
    rw [Option.getD_some] at h ⊢
    have hi : i < p.names.size := by simpa using List.mem_of_find?_eq_some hf
    rw [Has, size]
    omega

end Pad

namespace Node

def Slotted (p : Pad) (n : Node) : Prop := n.code ∈ [Opcode.padsv, .padav, .padhv] → p.Has n.targ

/-- What the ops of a tree are like before any is fused. -/
structure Listed (p : Pad) (n : Node) : Prop where
  plain : n.code ≠ .multideref
  slotted : n.Slotted p

variable {p q : Pad} {n n' : Node}

theorem Listed.congr (h : n.Listed p) (hc : n'.code = n.code) (ht : n'.targ = n.targ) : n'.Listed p :=
  ⟨hc ▸ h.plain, fun hm => ht ▸ h.slotted (hc ▸ hm)⟩

theorem Listed.mono (h : n.Listed p) (hs : p.size ≤ q.size) : n.Listed q :=
  ⟨h.plain, fun hm => (h.slotted hm).mono hs⟩

theorem slotted_of_code (h : n.code ∉ [Opcode.padsv, .padav, .padhv]) : n.Slotted p := fun hm => absurd hm h

theorem listed_of_code (h : n.code ∉ [Opcode.multideref, .padsv, .padav, .padhv]) : n.Listed p := by
  rw [List.mem_cons, not_or] at h
  exact ⟨h.1, slotted_of_code h.2⟩

theorem notMem_of_class {t : Opcode} {c : OpClass} (h : t.opClass = c) (hc : c ≠ .auxop ∧ c ≠ .padop) :
    t ∉ [Opcode.multideref, .padsv, .padav, .padhv] := by
  subst h
  rintro hm
  simp only [List.mem_cons, List.not_mem_nil, or_false] at hm
  rcases hm with rfl | rfl | rfl | rfl
  · exact hc.1 rfl
  all_goals exact hc.2 rfl

end Node

namespace Tree

open Build

variable {p q : Pad} {t u k : Tree} {ks : List Tree}

def Listed (p : Pad) (t : Tree) : Prop := ∀ u ∈ t.subtrees, u.op.Listed p

theorem listed_mk {r : RecId} {o : Node} : (mk r o ks).Listed p ↔ o.Listed p ∧ ∀ k ∈ ks, k.Listed p := by
  constructor
  · intro h
    refine ⟨h _ (self_mem_subtrees _), fun k hk u hu => h u (mem_subtrees_mk.mpr (Or.inr ⟨k, hk, hu⟩))⟩
  · rintro ⟨ho, hks⟩ u hu
    rcases mem_subtrees_mk.mp hu with rfl | ⟨k, hk, hu⟩
    · exact ho
    · exact hks k hk u hu

theorem Listed.op (h : t.Listed p) : t.op.Listed p := h t t.self_mem_subtrees

theorem Listed.kid (h : t.Listed p) (hk : k ∈ t.kids) : k.Listed p := fun u hu =>
  h u (subtrees_trans (kid_mem_subtrees hk) hu)

theorem Listed.mono (h : t.Listed p) (hs : p.size ≤ q.size) : t.Listed q := fun u hu => (h u hu).mono hs

theorem Listed.reroot {o : Node} (h : t.Listed p) (ho : o.Listed p) : (mk t.root o t.kids).Listed p :=
  listed_mk.mpr ⟨ho, fun _ hk => h.kid hk⟩

theorem Listed.mapOps {g : RecId → Node → Node} (h : t.Listed p)
    (hg : ∀ r o, (g r o).code = o.code ∧ (g r o).targ = o.targ) : (t.mapOps g).Listed p := by
  intro u hu
  rw [subtrees_mapOps] at hu
  obtain ⟨v, hv, rfl⟩ := List.mem_map.mp hu
  rw [op_mapOps]
  exact (h v hv).congr (hg _ _).1 (hg _ _).2

theorem Listed.wantScalar (h : t.Listed p) : t.wantScalar.Listed p := by
  refine h.reroot ?_
  split <;> exact h.op.congr rfl rfl

theorem Listed.wantList (h : t.Listed p) : t.wantList.Listed p := by
  refine h.reroot ?_
  split <;> exact h.op.congr rfl rfl

theorem Listed.withFlag (h : t.Listed p) (f : Flags) : (t.withFlag f).Listed p := h.reroot (h.op.congr rfl rfl)

theorem Listed.void (h : t.Listed p) : t.void.Listed p := by
  refine h.mapOps fun r o => ?_
  unfold markVoid
  split <;> exact ⟨rfl, rfl⟩

theorem Listed.derefKid (h : t.Listed p) (deref : Priv) : (derefKid t deref).Listed p := by
  have hmod : ∀ q : RecId, (t.modify q fun n => { n with priv := n.priv ||| deref }.plain).Listed p := by
    intro q
    refine h.mapOps fun r o => ?_
    split <;> exact ⟨rfl, rfl⟩
  unfold Build.derefKid
  split
  · split
    · exact hmod _
    · exact h
  · split
    · exact hmod _
    · exact h
  · exact h

theorem Listed.nulled (h : t.Listed p) : (nulled t).Listed p := by
  refine h.reroot (Node.listed_of_code ?_)
  rw [Node.plain_code, Node.neutralized_code]
  decide

theorem Listed.snoc (h : t.Listed p) (hk : k.Listed p) : (t.snoc k).Listed p := by
  refine listed_mk.mpr ⟨?_, fun j hj => ?_⟩
  · split <;> exact h.op.congr rfl rfl
  · rcases List.mem_append.mp hj with hj | hj
    · exact h.kid hj
    · rwa [List.mem_singleton.mp hj]

theorem Listed.snocAll (h : t.Listed p) (hks : ∀ k ∈ ks, k.Listed p) : (snocAll t ks).Listed p := by
  induction ks generalizing t with
  | nil => exact h
  | cons k ks ih =>
    exact ih (h.snoc (hks k (List.mem_cons_self ..)).wantList) fun j hj => hks j (List.mem_cons_of_mem k hj)

theorem Listed.grown (h : t.Listed p) (hks : ∀ k ∈ ks, k.Listed p) : (grown t ks).Listed p := by
  induction ks generalizing t with
  | nil => exact h
  | cons k ks ih => exact ih (h.snoc (hks k (List.mem_cons_self ..))) fun j hj => hks j (List.mem_cons_of_mem k hj)

theorem listed_leaf {r : RecId} {o : Node} (h : o.code ∉ [Opcode.multideref, .padsv, .padav, .padhv]) :
    (mk r o []).Listed p := listed_mk.mpr ⟨Node.listed_of_code h, nofun⟩

end Tree

namespace Build

open OpTree.Tree TreeM

variable {p : Pad} {t t' : Tree} {ks : List Tree}

theorem listed_of_folded (hf : Folded t t') (h : t.Listed p) : t'.Listed p := by
  rcases hf with rfl | ⟨-, r, v, line, id, rfl⟩
  · exact h
  · exact listed_leaf (by simp)

theorem slotted_of_folded (hf : Folded t t') (h : t.op.code ∉ [Opcode.multideref, .padsv, .padav, .padhv]) :
    t'.op.Slotted p := by
  rcases hf with rfl | ⟨-, r, v, line, id, rfl⟩
  · exact (Node.listed_of_code h).slotted
  · exact Node.slotted_of_code (by simp)

theorem listed_logTree {c : Opcode} {l : RecId} {i : Nat} {x y : Tree} (hc : c = .and ∨ c = .or ∨ c = .dor)
    (hx : x.Listed p) (hy : y.Listed p) : (logTree c l i x y).Listed p := by
  refine ((listed_leaf ?_).snoc hx).snoc hy
  rcases hc with rfl | rfl | rfl <;> simp

theorem Items.listed {tail : Bool} {stmts : List Stmt} {es : List Tree} (h : Items tail stmts es ks)
    (hes : ∀ e ∈ es, e.Listed p) : ∀ k ∈ ks, k.Listed p := by
  induction h with
  | nil => exact nofun
  | empty n i file _ _ ih =>
    rintro k (_ | ⟨_, hk⟩)
    · exact listed_leaf (by simp)
    · exact ih hes k hk
  | @expr s rest e es ks n i file he h ih =>
    have he := hes e (List.mem_cons_self ..)
    rintro k (_ | ⟨_, _ | ⟨_, hk⟩⟩)
    · exact listed_leaf (by simp)
    · split
      · exact he.void
      · exact he
    · exact ih (fun e' he' => hes e' (List.mem_cons_of_mem e he')) k hk

theorem Items.listed_grown {tail : Bool} {stmts : List Stmt} {es : List Tree} (h : Items tail stmts es ks)
    (hes : ∀ e ∈ es, e.Listed p) (s : RecId) (i : Nat) :
    (grown (.mk s { code := .lineseq, id := i } []) ks).Listed p :=
  (listed_leaf (by simp)).grown (h.listed hes)

end Build

end OpTree
