import OpTree.Snapshot.Package
import OpTree.Proofs.Items

/-!
# The stand-in does what is documented

The functions that stand in for the package when the program is run keep to what the package promises.
-/

namespace OpTree

set_option autoImplicit false

namespace Cbor

section Fields

variable {fs : List (Nat × Cbor)} {c : Cbor} {n : Nat}

def pairsOf (fs : List (Nat × Cbor)) : List (Cbor × Cbor) := fs.map fun f => (.nat f.1, f.2)

theorem pairs?_fieldItems : pairs? (fieldItems fs) = some (pairsOf fs) := by
  induction fs with
  | nil => rfl
  | cons f fs ih =>
    rw [fieldItems] at ih
    simp [fieldItems, pairs?, keyOk, ih, pairsOf]

theorem fieldOf?_pairsOf : fieldOf? (pairsOf fs) n = valueAt fs n := by
  simp [fieldOf?, pairsOf, valueAt, List.find?_map, Function.comp_def, isKey]

theorem untagged?_of_isTag (h : c.isTag = false) : untagged? c = some c := by
  cases c with
  | tag n c => cases h
  | _ => rfl

end Fields

theorem int?_ofInt {v : Int} (h : IsInt64 v) : int? (ofInt v) = some v := by
  obtain ⟨hlow, hhigh⟩ := h
  cases v with
  | ofNat n =>
    have hn : n < Nat.pow 2 63 := Int.ofNat_lt.mp hhigh
    exact if_pos hn
  | negSucc n =>
    have hn : n < Nat.pow 2 63 := by
      rw [Nat.pow_eq]
      omega
    exact if_pos hn

theorem ofCbor_toCbor {v : SnapValue} (h : v.IsSound) : v.toCbor.isSound = true ∧ SnapValue.ofCbor v.toCbor = v := by
  cases v with
  | none => exact ⟨rfl, rfl⟩
  | bool b => cases b <;> exact ⟨rfl, rfl⟩
  | int v => cases v <;> exact ⟨rfl, rfl⟩
  | float bits => exact ⟨rfl, rfl⟩
  | str s => exact ⟨h.utf8, rfl⟩

theorem Package.standIn_lawful : Package.standIn.Lawful where
  canonical _ _ := rfl
  decode _ _ := decode?_eq_some_iff
  null := rfl
  content c htag hnull := by
    simp [standIn, untagged?_of_isTag htag, hnull]
  field fs n _ := by
    simp [standIn, pairs?_fieldItems, fieldOf?_pairsOf]
  int _ h := int?_ofInt h
  word _ h := if_pos h
  text _ h := if_pos h.utf8
  any v h := by
    obtain ⟨hsound, hvalue⟩ := ofCbor_toCbor h
    simp [standIn, hsound, hvalue]

end Cbor

end OpTree
