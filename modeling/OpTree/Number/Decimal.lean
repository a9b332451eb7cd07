import OpTree.Number.Binary64
import OpTree.Text.Bytes

/-!
# Decimal texts of doubles

The digits come from exact arithmetic: rounded to a number of significant digits, rounded to a
number of places, or the fewest digits that read back as the same double. A half goes to the even
digit. The styles below only decide how a digit string is laid out.
-/

namespace OpTree

set_option autoImplicit false

/-- The number `0.d₁d₂d₃… * 10 ^ point`. The last digit is not zero; zero has no digits. -/
structure Decimal where
  digits : Bytes
  point : Int
  deriving Repr, DecidableEq

namespace Decimal

def zero : Decimal := ⟨[], 0⟩

def dropTrailingZeros (d : Bytes) : Bytes := (d.reverse.dropWhile (· == 48)).reverse

/-- The largest `k` with `10 ^ k ≤ num / den`. -/
def floorLog10 (num den : Nat) : Int :=
  if den ≤ num then ((Nat.toDigits 10 (num / den)).length : Int) - 1
  else -((Nat.toDigits 10 ((den - 1) / num)).length : Int)

/-- `coeff` has exactly the digits that stand before and after the point. -/
def ofCoeff (coeff : Nat) (point : Int) : Decimal :=
  if coeff = 0 then zero else ⟨dropTrailingZeros (Bytes.ofNat coeff), point⟩

/-- `num / den` to `n` significant digits. -/
def significant (n num den : Nat) : Decimal :=
  if num = 0 then zero
  else
    let k := floorLog10 num den
    let s := Binary64.scale 10 ((n : Int) - 1 - k) num den
    let c := Binary64.roundDiv s.1 s.2
    ofCoeff c (if c = Nat.pow 10 n then k + 2 else k + 1)

/-- `num / den` to `p` places after the point. -/
def places (p num den : Nat) : Decimal :=
  let c := Binary64.roundDiv (num * Nat.pow 10 p) den
  ofCoeff c ((Nat.toDigits 10 c).length - p)

/-- A decimal of `n` digits that rounds to `bits`, the nearer one if two do. -/
def readingBack? (bits : UInt64) (n num den : Nat) : Option Decimal :=
  let k := floorLog10 num den
  let e : Int := (n : Int) - 1 - k
  let s := Binary64.scale 10 e num den
  let lo := s.1 / s.2
  let back (c : Nat) : Bool :=
    let t := Binary64.scale 10 (-e) c 1
    Binary64.nearestBits t.1 t.2 == some bits
  let dec (c : Nat) : Decimal := ofCoeff c (if c = Nat.pow 10 n then k + 2 else k + 1)
  let near := Binary64.roundDiv s.1 s.2
  let far := if near = lo then lo + 1 else lo
  if back near then some (dec near) else if back far then some (dec far) else none

def shortest (bits : UInt64) (num den : Nat) : Decimal :=
  if num = 0 then zero
  else
    ((List.range 17).findSome? fun i => readingBack? bits (i + 1) num den).getD
      (significant 17 num den)

/-- Digit number `i`, zero outside of the digit string. -/
def digitAt (d : Decimal) (i : Int) : UInt8 :=
  if i < 0 then 48 else d.digits.getD i.toNat 48

/-- At least two digits after a sign. -/
def exponentText (e : Int) : Bytes :=
  (if e < 0 then 45 else 43) :: Bytes.padLeft 2 48 (Bytes.ofNat e.natAbs)

/-- `d.ddde±dd` with `prec` digits after the point; `mark` is the letter before the exponent. -/
def scientific (mark : UInt8) (prec : Nat) (d : Decimal) : Bytes :=
  let frac := (List.range prec).map fun i : Nat => d.digitAt (i + 1)
  let e := if d.digits.isEmpty then 0 else d.point - 1
  [d.digitAt 0] ++ (if prec = 0 then [] else 46 :: frac) ++ [mark] ++ exponentText e

/-- `ddd.ddd` with `prec` digits after the point. -/
def positional (prec : Nat) (d : Decimal) : Bytes :=
  let whole : Bytes :=
    if 0 < d.point then (List.range d.point.toNat).map fun i : Nat => d.digitAt i else [48]
  let frac := (List.range prec).map fun i : Nat => d.digitAt (d.point + i)
  whole ++ (if prec = 0 then [] else 46 :: frac)

/-- Positional unless the exponent is below -4 or reaches `limit`; no trailing zeros. -/
def general (mark : UInt8) (limit : Nat) (d : Decimal) : Bytes :=
  let e := d.point - 1
  if e < -4 || (limit : Int) ≤ e then scientific mark (d.digits.length - 1) d
  else positional (d.digits.length - d.point).toNat d

end Decimal

/-- How the digits of a double are laid out. -/
inductive FloatStyle where
  | scientific
  | positional
  | general
  deriving Repr, DecidableEq

namespace FloatStyle

/-- A non-negative double without its sign. `prec = none` asks for the fewest digits that read
back; `upper` writes the exponent mark in upper case. -/
def magnitude (style : FloatStyle) (upper : Bool) (prec : Option Nat) (bits : UInt64)
    (mant : Nat) (exp : Int) : Bytes :=
  let q := Binary64.fraction mant exp
  let mark : UInt8 := if upper then 69 else 101
  match style, prec with
  | .scientific, some p => (Decimal.significant (p + 1) q.1 q.2).scientific mark p
  | .scientific, none =>
    let d := Decimal.shortest bits q.1 q.2
    d.scientific mark (d.digits.length - 1)
  | .positional, some p => (Decimal.places p q.1 q.2).positional p
  | .positional, none =>
    let d := Decimal.shortest bits q.1 q.2
    d.positional (d.digits.length - d.point).toNat
  | .general, some p =>
    let p := max p 1
    (Decimal.significant p q.1 q.2).general mark p
  | .general, none => (Decimal.shortest bits q.1 q.2).general mark 6

/-- The text of a double with a minus sign where it has one, and the given spellings of the
infinities and of the value that is no number. -/
def format (style : FloatStyle) (upper : Bool) (prec : Option Nat) (plusInf : Bytes) (f : Float) :
    Bytes :=
  match Binary64.ofFloat f with
  | .nan => utf8 "NaN"
  | .infinite true => utf8 "-Inf"
  | .infinite false => plusInf
  | .finite neg mant exp =>
    let bits := (f.toBits.toNat % Nat.pow 2 63).toUInt64
    (if neg then [45] else []) ++ style.magnitude upper prec bits mant exp

end FloatStyle

end OpTree
