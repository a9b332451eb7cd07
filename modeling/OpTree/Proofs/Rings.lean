/-!
# Rings

A queue in a fixed number of places that are used in turn. As long as there is a place for every element, a
ring serves its elements in the order in which they came, and none is written over.
-/

namespace OpTree

set_option autoImplicit false

structure Ring (α : Type) where
  places : List (Option α)
  head : Nat := 0
  held : Nat := 0

namespace Ring

variable {α : Type} {r : Ring α} {x : α} {xs : List α} {n : Nat}

def make (n : Nat) : Ring α where
  places := List.replicate n none

def place (r : Ring α) (i : Nat) : Nat := (r.head + i) % r.places.length

/-- Puts an element behind all others. The answer tells also what was in its place. -/
def push (r : Ring α) (x : α) : Ring α × Option α :=
  ({ r with places := r.places.set (r.place r.held) (some x), held := r.held + 1 },
    r.places[r.place r.held]?.join)

/-- Takes the oldest element out and leaves its place empty. -/
def pop (r : Ring α) : Ring α × Option α :=
  ({ places := r.places.set r.head none, head := r.place 1, held := r.held - 1 },
    r.places[r.head]?.join)

/-- The ring holds a list of elements, the oldest at the head, in `n` places that are empty otherwise. -/
structure Keeps (r : Ring α) (n : Nat) (xs : List α) : Prop where
  size : r.places.length = n
  head : r.head < n
  held : r.held = xs.length
  fits : xs.length ≤ n
  at_place : ∀ i < n, r.places[r.place i]? = some xs[i]?

theorem place_eq (h : r.head < r.places.length) {i : Nat} (hi : i ≤ r.places.length) :
    r.place i = if r.head + i < r.places.length then r.head + i else r.head + i - r.places.length := by
  unfold place
  split
  · exact Nat.mod_eq_of_lt ‹_›
  · rw [Nat.mod_eq_sub_mod (by omega), Nat.mod_eq_of_lt (by omega)]

theorem place_lt (h : r.head < r.places.length) (i : Nat) : r.place i < r.places.length :=
  Nat.mod_lt _ (Nat.zero_lt_of_lt h)

theorem place_zero (h : r.head < r.places.length) : r.place 0 = r.head := Nat.mod_eq_of_lt h

theorem place_ne (h : r.head < r.places.length) {i j : Nat} (hi : i < r.places.length)
    (hj : j < r.places.length) (hne : i ≠ j) : r.place i ≠ r.place j := by
  rw [place_eq h (Nat.le_of_lt hi), place_eq h (Nat.le_of_lt hj)]
  split <;> split <;> omega

theorem keeps_make (h : 0 < n) : (make n : Ring α).Keeps n [] where
  size := List.length_replicate
  head := h
  held := rfl
  fits := Nat.zero_le n
  at_place i _ := by
    have hlt := place_lt (r := make (α := α) n) (by simpa [make] using h) i
    rw [List.getElem?_eq_getElem hlt]
    simp [make]

theorem Keeps.push (h : r.Keeps n xs) (hlt : xs.length < n) (x : α) :
    (r.push x).2 = none ∧ (r.push x).1.Keeps n (xs ++ [x]) := by
  obtain ⟨rfl, hhead, hheld, -, hat⟩ := h
  have hnew : r.places[r.place r.held]? = some none := by
    rw [hheld, hat _ hlt, List.getElem?_eq_none (Nat.le_refl _)]
  refine ⟨by rw [Ring.push, hnew]; rfl, ?_⟩
  refine ⟨List.length_set, hhead, by simp [Ring.push, hheld], by simp; omega, fun i hi => ?_⟩
  have hplace : (r.push x).1.place i = r.place i := by simp [place, Ring.push]
  rw [hplace]
  change (r.places.set (r.place r.held) (some x))[r.place i]? = _
  by_cases hi' : i = xs.length
  · rw [hheld, hi', List.getElem?_set_self (place_lt hhead _)]
    simp
  · rw [List.getElem?_set_ne (place_ne hhead (hheld ▸ hlt) hi (by omega)), hat i hi]
    by_cases hxs : i < xs.length
    · rw [List.getElem?_append_left hxs]
    · rw [List.getElem?_eq_none (by omega), List.getElem?_eq_none (by simp; omega)]

theorem Keeps.pop (h : r.Keeps n (x :: xs)) : r.pop.2 = some x ∧ r.pop.1.Keeps n xs := by
  obtain ⟨rfl, hhead, hheld, hfits, hat⟩ := h
  rw [List.length_cons] at hheld hfits
  have hold : r.places[r.head]? = some (some x) := by
    have h0 := hat 0 (by omega)
    rwa [place_zero hhead] at h0
  refine ⟨by rw [Ring.pop, hold]; rfl, ?_⟩
  refine ⟨List.length_set, place_lt hhead 1, by simp [Ring.pop, hheld], by omega, fun i hi => ?_⟩
  have hplace : r.pop.1.place i = r.place (i + 1) := by
    simp only [place, Ring.pop, List.length_set, Nat.mod_add_mod]
    congr 1
    omega
  rw [hplace]
  change (r.places.set r.head none)[r.place (i + 1)]? = _
  by_cases hlast : i + 1 < r.places.length
  · have hne : r.head ≠ r.place (i + 1) := by
      rw [← place_zero hhead]
      exact place_ne hhead (by omega) hlast (by omega)
    rw [List.getElem?_set_ne hne, hat _ hlast, List.getElem?_cons_succ]
  · -- the place behind the last one is that of the head
    have hwrap : r.place (i + 1) = r.head := by
      rw [place_eq hhead (by omega)]
      split <;> omega
    rw [hwrap, List.getElem?_set_self hhead, List.getElem?_eq_none (by omega)]

end Ring

end OpTree
