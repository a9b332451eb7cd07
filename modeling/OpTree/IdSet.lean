import OpTree.Memory

/-!
# Sets of small numbers

A growable bit set, used for the ids met by a walk. The set is made of 64-bit words; a set that
was never written has no words at all. Indexes are integers because callers may hand in a
negative one, which has no place in the set.
-/

namespace OpTree

set_option autoImplicit false

structure IdSet where
  words : Array UInt64 := #[]
  deriving Repr, DecidableEq, Inhabited

namespace IdSet

def empty : IdSet := {}

/-- A set with room for at least `capacity` numbers, if that many words can be asked for. -/
def withCapacity? (capacity : Int) : Option IdSet :=
  let words := ((capacity + 63).bmod (Nat.pow 2 64)).tdiv 64
  if Memory.holds 8 words then some ⟨Array.replicate (max words.toNat 2) 0⟩ else none

def mask (j : Nat) : UInt64 := 1 <<< (j % 64).toUInt64

def word (s : IdSet) (i : Nat) : UInt64 := s.words.getD i 0

def contains (s : IdSet) (n : Nat) : Bool := (s.word (n / 64) &&& mask n) != 0

/-- Words up to number `i`, never fewer than two. They come one after the other. -/
def grow (s : IdSet) (i : Nat) : IdSet :=
  ⟨s.words ++ Array.replicate (max (i + 1) 2 - s.words.size) 0⟩

def insert (s : IdSet) (n : Nat) : IdSet :=
  let g := s.grow (n / 64)
  ⟨g.words.modify (n / 64) (· ||| mask n)⟩

def mark (s : IdSet) (n : Nat) : Bool × IdSet :=
  if s.contains n then (false, s) else (true, s.insert n)

def erase (s : IdSet) (n : Nat) : IdSet :=
  ⟨s.words.modify (n / 64) (· &&& ~~~(mask n))⟩

def clear (s : IdSet) : IdSet := ⟨s.words.map fun _ => 0⟩

/-- The number of bits that are set in a word. -/
def ones (w : UInt64) : Nat := w.toBitVec.cpop.toNat

def size (s : IdSet) : Nat := s.words.foldl (fun n w => n + ones w) 0

/-- The place of the lowest bit of a word that is not zero. -/
def lowest (w : UInt64) : Nat := w.toBitVec.ctz.toNat

/-- A word without its lowest bit. -/
def rest (w : UInt64) : UInt64 := w &&& ~~~(mask (lowest w))

theorem toBitVec_mask (j : Nat) : (mask j).toBitVec = BitVec.twoPow 64 (j % 64) := by
  have hall : ∀ k : Fin 64, ((1 : UInt64) <<< k.val.toUInt64).toBitVec = BitVec.twoPow 64 k := by decide
  exact hall ⟨j % 64, Nat.mod_lt _ (by decide)⟩

theorem toBitVec_ne_zero {w : UInt64} (h : w ≠ 0) : w.toBitVec ≠ 0#64 := by
  intro hw
  exact h (UInt64.toBitVec_inj.mp hw)

theorem lowest_lt {w : UInt64} (h : w ≠ 0) : lowest w < 64 :=
  BitVec.ctz_lt_iff_ne_zero.mpr (toBitVec_ne_zero h)

theorem getLsbD_lowest {w : UInt64} (h : w ≠ 0) : w.toBitVec.getLsbD (lowest w) = true :=
  BitVec.getLsbD_true_ctz_of_ne_zero (toBitVec_ne_zero h)

theorem getLsbD_rest {w : UInt64} (h : w ≠ 0) (k : Nat) :
    (rest w).toBitVec.getLsbD k = (w.toBitVec.getLsbD k && k != lowest w) := by
  have hlt := lowest_lt h
  rw [rest, UInt64.toBitVec_and, UInt64.toBitVec_not, toBitVec_mask, Nat.mod_eq_of_lt hlt]
  simp only [BitVec.getLsbD_and, BitVec.getLsbD_not, BitVec.getLsbD_twoPow]
  by_cases hk : k < 64
  · by_cases e : k = lowest w
    · simp [e, hlt]
    · simp [hk, e, hlt, Ne.symm e]
  · simp [BitVec.getLsbD_of_ge _ _ (Nat.le_of_not_lt hk)]

theorem rest_lt {w : UInt64} (h : w ≠ 0) : (rest w).toNat < w.toNat := by
  have hle : (rest w).toNat ≤ w.toNat := by
    rw [rest, UInt64.toNat_and]
    exact Nat.and_le_left
  apply Nat.lt_of_le_of_ne hle
  intro e
  have hbit := getLsbD_rest h (lowest w)
  rw [UInt64.toNat_inj.mp e, getLsbD_lowest h] at hbit
  simp at hbit

/-! A visitor has a state. It is shown one member after the other, and each time it answers its next
state and whether it wants to see more. -/

universe u

/-- Shows the members in word `i` from the lowest one up, each taken off the word. -/
def walkWord {σ : Type u} (f : σ → Nat → σ × Bool) (i : Nat) (x : σ) (w : UInt64) : σ × Bool :=
  if w = 0 then (x, true)
  else
    match f x (i * 64 + lowest w) with
    | (y, true) => walkWord f i y (rest w)
    | (y, false) => (y, false)
termination_by w.toNat
decreasing_by exact rest_lt (by assumption)

/-- Shows the members in some words, of which the first is word `i`. -/
def walkWords {σ : Type u} (f : σ → Nat → σ × Bool) : Nat → σ → List UInt64 → σ × Bool
  | _, x, [] => (x, true)
  | i, x, w :: ws =>
    match walkWord f i x w with
    | (y, true) => walkWords f (i + 1) y ws
    | (y, false) => (y, false)

def walk {σ : Type u} (s : IdSet) (f : σ → Nat → σ × Bool) (x : σ) : σ :=
  (walkWords f 0 x s.words.toList).1

def toList (s : IdSet) : List Nat := (s.walk (fun ns n => (ns.push n, true)) #[]).toList

/-- The first members; a walk that is told to stop after `limit` has always seen one. -/
def firstMembers (s : IdSet) (limit : Option Nat) : List Nat :=
  (s.walk (fun ns n => (ns.push n, limit.all (ns.size + 1 < ·))) #[]).toList

inductive Place where
  | bit (n : Nat)
  | noBit
  | noWord
  deriving Repr, DecidableEq

def place (i : Int) : Place :=
  if 0 ≤ i then .bit i.toNat else if -64 < i then .noBit else .noWord

/-- `none` if the index is refused. -/
def insertAt? (s : IdSet) (i : Int) : Option IdSet :=
  match place i with
  | .bit n => some (s.insert n)
  | _ => none

/-- A set without words has no member, whatever bit is asked for. -/
def containsAt? (s : IdSet) (i : Int) : Option Bool :=
  match place i with
  | .bit n => some (s.contains n)
  | .noBit => if s.words.isEmpty then some false else none
  | .noWord => none

def eraseAt? (s : IdSet) (i : Int) : Option IdSet :=
  match place i with
  | .bit n => some (s.erase n)
  | .noBit => if s.words.isEmpty then some s else none
  | .noWord => none

def markAt? (s : IdSet) (i : Int) : Option (Bool × IdSet) :=
  match s.containsAt? i with
  | some true => some (false, s)
  | some false => (s.insertAt? i).map fun t => (true, t)
  | none => none

end IdSet

end OpTree
