import OpTree.Text.Bytes
import Mathlib.Data.List.TakeWhile
import Mathlib.Tactic.Common

/-!
# Runs of bytes

A text that begins with a run of bytes of one kind is taken apart behind the run, and blanks are taken off
both ends of a text that has something else in it.
-/

namespace OpTree

set_option autoImplicit false

def Past (p : UInt8 → Bool) (s : Bytes) : Prop := ∀ b ∈ s.head?, p b = false

section Past

variable {p : UInt8 → Bool} {s t a b : Bytes}

theorem past_dropWhile (p : UInt8 → Bool) (s : Bytes) : Past p (s.dropWhile p) := by
  intro b hb
  have h := List.head?_dropWhile_not p s
  rw [Option.mem_def.mp hb] at h
  simpa using h

theorem span_iff : s.takeWhile p = a ∧ s.dropWhile p = b ↔ s = a ++ b ∧ (∀ c ∈ a, p c = true) ∧ Past p b := by
  constructor
  · rintro ⟨rfl, rfl⟩
    exact ⟨List.takeWhile_append_dropWhile.symm, fun c => List.mem_takeWhile_imp, past_dropWhile p s⟩
  · rintro ⟨rfl, ha, hb⟩
    rw [List.takeWhile_append_of_pos ha, List.dropWhile_append_of_pos ha]
    cases b with
    | nil => simp
    | cons c b => simp [hb c rfl]

/-- What ends a run at the end of one text ends it in front of another one that begins where the first is empty. -/
theorem past_append (h : s = [] → t = []) : Past p (s ++ t) ↔ Past p s := by
  cases s with
  | nil => simp [h rfl]
  | cons c s => simp [Past]

end Past

namespace Bytes

variable {set w t r : Bytes}

/-- Trimming takes the blanks in front of a text away and the last ones behind it, which may be all that
stands there. -/
theorem trim_append (hw : ∀ b ∈ w, set.contains b = true) (ht : t ≠ []) (hhead : Past set.contains t)
    (hlast : Past set.contains t.reverse) :
    ∃ u, trim set (w ++ t ++ r) = t ++ u ∧ u <+: r ∧ u.isEmpty = r.all set.contains := by
  have hfront : (w ++ t ++ r).dropWhile set.contains = t ++ r := by
    rw [List.append_assoc]
    exact (span_iff.mpr ⟨rfl, hw, (past_append fun e => absurd e ht).mpr hhead⟩).2
  have hback : t.reverse.dropWhile set.contains = t.reverse := (span_iff (a := []).mpr ⟨rfl, nofun, hlast⟩).2
  refine ⟨(r.reverse.dropWhile set.contains).reverse, ?_, ?_, ?_⟩
  · rw [trim, hfront, List.reverse_append, List.dropWhile_append]
    split
    · rename_i hr
      rw [hback, List.isEmpty_iff.mp hr]
      simp
    · rw [List.reverse_append, List.reverse_reverse]
  · simpa using List.reverse_prefix.mpr (List.dropWhile_suffix set.contains (l := r.reverse))
  · rw [Bool.eq_iff_iff]
    simp [List.isEmpty_iff, List.dropWhile_eq_nil_iff]

end Bytes

end OpTree
