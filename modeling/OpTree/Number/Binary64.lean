/-!
# Doubles as exact fractions

A finite double is `± mant * 2 ^ exp`. `nearestBits` goes the other way: it rounds any
non-negative fraction to the nearest double, ties to the even significand, in exact natural
number arithmetic.
-/

namespace OpTree

set_option autoImplicit false

/-- What the 64 bits of a double stand for. -/
inductive Binary64 where
  | finite (neg : Bool) (mant : Nat) (exp : Int)
  | infinite (neg : Bool)
  | nan
  deriving Repr, DecidableEq

namespace Binary64

def ofBits (bits : UInt64) : Binary64 :=
  let n := bits.toNat
  let neg : Bool := Nat.pow 2 63 ≤ n
  let biased : Nat := n / Nat.pow 2 52 % Nat.pow 2 11
  let frac : Nat := n % Nat.pow 2 52
  if biased = 2047 then
    if frac = 0 then .infinite neg else .nan
  else if biased = 0 then .finite neg frac (-1074)
  else .finite neg (Nat.pow 2 52 + frac) ((biased : Int) - 1075)

def ofFloat (f : Float) : Binary64 := ofBits f.toBits

/-- `num / den` with a half going to the even neighbour. -/
def roundDiv (num den : Nat) : Nat :=
  let q := num / den
  let r := num % den
  if 2 * r < den then q
  else if den < 2 * r then q + 1
  else if q % 2 = 0 then q else q + 1

/-- `num / den * base ^ e` as a fraction. -/
def scale (base : Nat) (e : Int) (num den : Nat) : Nat × Nat :=
  if 0 ≤ e then (num * Nat.pow base e.toNat, den) else (num, den * Nat.pow base (-e).toNat)

/-- The largest `k` with `2 ^ k ≤ num / den`. -/
def floorLog2 (num den : Nat) : Int :=
  let l : Int := (Nat.log2 num : Int) - Nat.log2 den
  let s := scale 2 (-l) num den
  if s.2 ≤ s.1 then l else l - 1

/-- Bits of the double nearest to `num / den`; `none` if that is beyond the largest finite one. -/
def nearestBits (num den : Nat) : Option UInt64 :=
  if num = 0 || den = 0 then some 0
  else
    let e := max (floorLog2 num den - 52) (-1074)
    let s := scale 2 (-e) num den
    let bits := (e + 1074).toNat * Nat.pow 2 52 + roundDiv s.1 s.2
    if 2047 * Nat.pow 2 52 ≤ bits then none else some bits.toUInt64

/-- `mant * 2 ^ exp` as a fraction. -/
def fraction (mant : Nat) (exp : Int) : Nat × Nat := scale 2 exp mant 1

end Binary64

end OpTree
