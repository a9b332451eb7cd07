import OpTree.Number.Binary64

/-!
# Binary floating point formats

The formats of 16, 32 and 64 bits differ only in the width of their fields. A double fits into a
narrower format if that holds exactly the same number.
-/

namespace OpTree

set_option autoImplicit false

structure FloatFormat where
  fracBits : Nat
  expBits : Nat
  deriving Repr, DecidableEq

namespace FloatFormat

def half : FloatFormat := ⟨10, 5⟩
def single : FloatFormat := ⟨23, 8⟩
def double : FloatFormat := ⟨52, 11⟩

def bias (w : FloatFormat) : Nat := Nat.pow 2 (w.expBits - 1) - 1

def topExp (w : FloatFormat) : Nat := Nat.pow 2 w.expBits - 1

/-- The exponent of the last bit of the smallest numbers. -/
def leastExp (w : FloatFormat) : Int := 1 - (w.bias + w.fracBits : Int)

def signBit (w : FloatFormat) (neg : Bool) : Nat :=
  if neg then Nat.pow 2 (w.fracBits + w.expBits) else 0

/-- What bits of the format stand for. -/
def decode (w : FloatFormat) (bits : Nat) : Binary64 :=
  let neg := bits / Nat.pow 2 (w.fracBits + w.expBits) % 2 == 1
  let biased := bits / Nat.pow 2 w.fracBits % Nat.pow 2 w.expBits
  let frac := bits % Nat.pow 2 w.fracBits
  if biased = w.topExp then if frac = 0 then .infinite neg else .nan
  else if biased = 0 then .finite neg frac w.leastExp
  else .finite neg (Nat.pow 2 w.fracBits + frac) (w.leastExp + biased - 1)

/-- The bits of a number the format holds exactly; `none` if there are none. Both fields of the
format come out of one sum: the hidden bit of the significand adds one to the exponent. -/
def encode? (w : FloatFormat) (neg : Bool) (mant : Nat) (exp : Int) : Option Nat :=
  if mant = 0 then some (w.signBit neg)
  else
    let e := max (exp + Nat.log2 mant - w.fracBits) w.leastExp
    let s := Binary64.scale 2 (exp - e) mant 1
    let bits := (e - w.leastExp).toNat * Nat.pow 2 w.fracBits + s.1 / s.2
    if s.1 % s.2 = 0 && bits < w.topExp * Nat.pow 2 w.fracBits then some (w.signBit neg + bits)
    else none

def widen (w : FloatFormat) (bits : Nat) : UInt64 :=
  match w.decode bits with
  | .nan => 0x7ff8000000000000
  | .infinite neg => (double.signBit neg + double.topExp * Nat.pow 2 double.fracBits).toUInt64
  | .finite neg mant exp => ((double.encode? neg mant exp).getD 0).toUInt64

end FloatFormat

end OpTree
