import Mathlib.Data.List.Forall2
import OpTree.Peephole.Multideref

/-!
# What is left of an op

The optimizer changes ops where they stand. Of an op that may still take part in an access it can be told what it
was before, and of the side table of a fused op only checks get lost.
-/

namespace OpTree

set_option autoImplicit false

theorem Action.or_or_self (act : Action) (bits : UInt8) : (act.or bits).or bits = act.or bits := by
  simp only [or, UInt8.or_assoc, UInt8.or_self]

def PathItem.Eased (i j : PathItem) : Prop := j = i ∨ j = { i with act := i.act.or Action.uncheckedBit }

theorem PathItem.Eased.trans {i j k : PathItem} (h : i.Eased j) (h' : j.Eased k) : i.Eased k := by
  rcases h with rfl | rfl
  · exact h'
  · rcases h' with rfl | rfl
    · exact Or.inr rfl
    · exact Or.inr (by simp only [Action.or_or_self])

namespace Path

structure Eased (p q : Path) : Prop where
  items : List.Forall₂ PathItem.Eased p.items q.items
  keys : q.keys = p.keys

theorem Eased.refl (p : Path) : p.Eased p := ⟨List.forall₂_same.mpr fun _ _ => Or.inl rfl, rfl⟩

theorem Eased.trans {p q r : Path} (h : p.Eased q) (h' : q.Eased r) : p.Eased r := by
  refine ⟨?_, h'.keys.trans h.keys⟩
  refine List.forall₂_iff_get.mpr ⟨h.items.length_eq.trans h'.items.length_eq, fun i hi hk => ?_⟩
  have hj : i < q.items.length := h.items.length_eq ▸ hi
  exact (h.items.get hi hj).trans (h'.items.get hj hk)

end Path

namespace Node

/-- The ops besides the element ops that an access is built from. The optimizer turns no op into one of them. -/
def stays : List Opcode := [.const, .padsv, .padav, .padhv, .gv, .rv2av, .rv2hv, .existsElem, .deleteElem]

/-- The same op with the same data in the same place of the tree. -/
structure SameOp (n n' : Node) : Prop where
  code : n'.code = n.code
  targ : n'.targ = n.targ
  val : n'.val = n.val
  name : n'.name = n.name
  first : n'.first = n.first
  sib : n'.sib = n.sib

theorem SameOp.trans {n n' n'' : Node} (h : n.SameOp n') (h' : n'.SameOp n'') : n.SameOp n'' :=
  ⟨h'.code.trans h.code, h'.targ.trans h.targ, h'.val.trans h.val, h'.name.trans h.name, h'.first.trans h.first,
    h'.sib.trans h.sib⟩

/-- As long as an op can take part in an access, it takes the part that it has always had. -/
structure Recalls (n n' : Node) : Prop where
  elem : ∀ hash, Peep.isElemOf n' hash = true → Peep.isElemOf n hash = true ∧ n'.first = n.first
  plain : n'.code ∈ stays → n.SameOp n'

theorem Recalls.refl (n : Node) : n.Recalls n := ⟨fun _ h => ⟨h, rfl⟩, fun _ => ⟨rfl, rfl, rfl, rfl, rfl, rfl⟩⟩

theorem Recalls.trans {n n' n'' : Node} (h : n.Recalls n') (h' : n'.Recalls n'') : n.Recalls n'' where
  elem hash he := by
    obtain ⟨he', hfirst⟩ := h'.elem hash he
    obtain ⟨hn, hfirst'⟩ := h.elem hash he'
    exact ⟨hn, hfirst.trans hfirst'⟩
  plain hc := (h.plain ((h'.plain hc).code ▸ hc)).trans (h'.plain hc)

/-- An op that has not been fused keeps out of it, and a fused one keeps its table. -/
def Eases (n n' : Node) : Prop :=
  n'.code = .multideref → n.code = .multideref ∧ Option.Rel Path.Eased n.path n'.path

theorem eases_of_path {n n' : Node} (hc : n'.code = n.code) (hp : n'.path = n.path) : n.Eases n' := by
  intro h
  refine ⟨hc ▸ h, ?_⟩
  rw [hp]
  cases n.path with
  | none => exact .none
  | some p => exact .some (.refl p)

theorem Eases.trans {n n' n'' : Node} (h : n.Eases n') (h' : n'.Eases n'') : n.Eases n'' := by
  intro hc
  obtain ⟨hc', hp'⟩ := h' hc
  obtain ⟨hn, hp⟩ := h hc'
  refine ⟨hn, ?_⟩
  generalize n.path = p at hp
  generalize n'.path = q at hp hp'
  generalize n''.path = r at hp'
  cases hp with
  | none =>
    cases hp'
    exact .none
  | some hpq =>
    cases hp' with
    | some hqr => exact .some (hpq.trans hqr)

theorem recalls_of_code {n n' : Node} (hc : n'.code ∉ stays)
    (he : n'.code ∉ [Opcode.null, .aelem, .aelemU, .helem]) : n.Recalls n' := by
  refine ⟨fun hash h => absurd h ?_, fun h => absurd h hc⟩
  simp only [List.mem_cons, List.not_mem_nil, or_false, not_or] at he
  obtain ⟨hnull, haelem, haelemU, hhelem⟩ := he
  cases hash <;> simp [Peep.isElemOf, hnull, haelem, haelemU, hhelem]

theorem recalls_of_null {n n' : Node} (hc : n'.code = .null) (hclass : n'.opClass ≠ .binop) : n.Recalls n' := by
  refine ⟨fun hash he => absurd ?_ hclass, fun hs => ?_⟩
  · rw [Peep.isElemOf, if_pos hc] at he
    cases hash with
    | true =>
      rw [if_pos rfl, beq_iff_eq] at he
      simp [opClass, isEx, hc, he, Opcode.opClass]
    | false =>
      rw [if_neg Bool.false_ne_true, Bool.or_eq_true, beq_iff_eq, beq_iff_eq] at he
      rcases he with he | he <;> simp [opClass, isEx, hc, he, Opcode.opClass]
  · rw [hc] at hs
    exact absurd hs (by decide)

theorem recalls_neutralized (n : Node) : n.Recalls n.neutralized := by
  have hcode := n.neutralized_code
  refine ⟨fun hash h => ?_, fun h => ?_⟩
  · have hkind : (if n.neutralized.code = .null then n.neutralized.ex else n.neutralized.code) =
        if n.code = .null then n.ex else n.code := by
      rw [if_pos hcode]
      unfold neutralized
      split <;> simp_all
    refine ⟨?_, ?_⟩
    · unfold Peep.isElemOf at h ⊢
      rwa [hkind] at h
    · unfold neutralized
      split <;> rfl
  · rw [hcode] at h
    exact absurd h (by decide)

end Node

end OpTree
