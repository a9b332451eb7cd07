import OpTree.Number.Binary64
import OpTree.Text.Bytes

/-!
# Reading number literals

Integers take a sign, a base from their beginning (`0x`, `0o`, `0b`, or octal after a plain `0`)
and single underscores between digits. Floats are decimal, or hexadecimal with a binary exponent,
and are rounded to the nearest double.
-/

namespace OpTree

set_option autoImplicit false

namespace Literal

/-- Is there a minus sign, and what follows the sign if there is one. -/
def splitSign : Bytes → Bool × Bytes
  | 45 :: r => (true, r)
  | 43 :: r => (false, r)
  | s => (false, s)

def digitValue? (b : UInt8) : Option Nat :=
  let c := Bytes.lowerByte b
  if Bytes.isDigit b then some (b.toNat - 48)
  else if 97 ≤ c && c ≤ 122 then some (c.toNat - 87)
  else none

/-- Base and digits of an unsigned literal whose beginning tells the base. -/
def splitBase : Bytes → Nat × Bytes
  | 48 :: x :: y :: r =>
    match Bytes.lowerByte x with
    | 98 => (2, y :: r)
    | 111 => (8, y :: r)
    | 120 => (16, y :: r)
    | _ => (8, x :: y :: r)
  | 48 :: r => (8, r)
  | s => (10, s)

/-- The number written by `s` in `base`; `none` for a byte that is no digit of the base. -/
def natFrom? (base : Nat) (acc : Nat) : Bytes → Option Nat
  | [] => some acc
  | b :: r =>
    match digitValue? b with
    | some d => if d < base then natFrom? base (acc * base + d) r else none
    | none => none

/-- The last kind of byte met while checking underscores. -/
inductive Seen where
  | start
  | digit
  | underscore
  | other
  deriving DecidableEq

def underscoresFrom (hex : Bool) (seen : Seen) : Bytes → Bool
  | [] => seen != .underscore
  | b :: r =>
    let c := Bytes.lowerByte b
    if Bytes.isDigit b || (hex && 97 ≤ c && c ≤ 102) then underscoresFrom hex .digit r
    else if b == 95 then seen == .digit && underscoresFrom hex .underscore r
    else seen != .underscore && underscoresFrom hex .other r

/-- Each underscore stands between two digits; a base counts as a digit. -/
def underscoresOk (s : Bytes) : Bool :=
  match (splitSign s).2 with
  | 48 :: x :: r =>
    let c := Bytes.lowerByte x
    if c == 98 || c == 111 || c == 120 then underscoresFrom (c == 120) .digit r
    else underscoresFrom false .start (48 :: x :: r)
  | t => underscoresFrom false .start t

/-- `n` with a sign, if it fits in 64 bits. -/
def signed? (neg : Bool) (n : Nat) : Option Int64 :=
  if neg then if n ≤ Nat.pow 2 63 then some (Int64.ofInt (-(n : Int))) else none
  else if n < Nat.pow 2 63 then some (Int64.ofInt n) else none

def int? (s : Bytes) : Option Int64 :=
  let (neg, t) := splitSign s
  if t.isEmpty then none
  else
    let (base, ds) := splitBase t
    match natFrom? base 0 (ds.filter (· != 95)) with
    | some n => if ds.contains 95 && !underscoresOk t then none else signed? neg n
    | none => none

def decimalInt? (s : Bytes) : Option Int64 :=
  let (neg, t) := splitSign s
  if t.isEmpty then none else (natFrom? 10 0 t).bind (signed? neg)

/-- What came out of reading a float. A number beyond the largest double keeps its sign. -/
inductive FloatRead where
  | value (f : Float)
  | tooLarge (neg : Bool)
  | malformed

/-- Mantissa digits with at most one point: their value, how many stand after the point, whether
there was any digit, and the rest. -/
def mantissa (base : Nat) (dot : Bool) (acc : Nat) (places : Nat) (any : Bool) :
    Bytes → Nat × Nat × Bool × Bytes
  | [] => (acc, places, any, [])
  | b :: r =>
    if b == 95 then mantissa base dot acc places any r
    else if b == 46 && !dot then mantissa base true acc places any r
    else match digitValue? b with
      | some d =>
        if d < base then
          mantissa base dot (acc * base + d) (if dot then places + 1 else places) true r
        else (acc, places, any, b :: r)
      | none => (acc, places, any, b :: r)

/-- Digits and underscores of an exponent up to the end of the text. -/
def exponentDigits? (s : Bytes) : Option Nat :=
  match s with
  | b :: r =>
    if Bytes.isDigit b then
      natFrom? 10 0 ((b :: r).filter (· != 95))
    else none
  | [] => none

/-- The exponent part after its mark. -/
def exponent? (s : Bytes) : Option Int :=
  let (neg, t) := splitSign s
  (exponentDigits? t).map fun e => if neg then -(e : Int) else e

def withSign (neg : Bool) (bits : UInt64) : Float :=
  Float.ofBits (if neg then bits ||| 0x8000000000000000 else bits)

/-- `± mant * base ^ e`. Exponents far outside of the range of doubles are decided at once. -/
def scaled (neg : Bool) (mant : Nat) (base : Nat) (e : Int) : FloatRead :=
  if mant = 0 then .value (withSign neg 0)
  else
    let size : Int := if base = 10 then (Nat.toDigits 10 mant).length else Nat.log2 mant
    if 1100 < size + e then .tooLarge neg
    else if size + e < -1200 then .value (withSign neg 0)
    else
      let q := Binary64.scale base e mant 1
      match Binary64.nearestBits q.1 q.2 with
      | some bits => .value (withSign neg bits)
      | none => .tooLarge neg

/-- Names of the infinities and of the value that is no number, in any case. -/
def named? (s : Bytes) : Option Float :=
  let (neg, t) := splitSign s
  let t := t.map Bytes.lowerByte
  if t == utf8 "inf" || t == utf8 "infinity" then
    some (if neg then -(1.0 / 0.0) else 1.0 / 0.0)
  else if s.map Bytes.lowerByte == utf8 "nan" then some (0.0 / 0.0)
  else none

def float (s : Bytes) : FloatRead :=
  match named? s with
  | some f => .value f
  | none =>
    let (neg, t) := splitSign s
    let hex? : Option Bytes := match t with
      | 48 :: x :: r => if Bytes.lowerByte x == 120 then some r else none
      | _ => none
    let hex := hex?.isSome
    let (mant, places, any, rest) := mantissa (if hex then 16 else 10) false 0 0 false (hex?.getD t)
    let mark : UInt8 := if hex then 112 else 101
    let exp? : Option Int := match rest with
      | [] => if hex then none else some 0
      | m :: r => if Bytes.lowerByte m == mark then exponent? r else none
    match any, exp? with
    | true, some e =>
      if s.contains 95 && !underscoresOk s then .malformed
      else if hex then scaled neg mant 2 (e - 4 * places)
      else scaled neg mant 10 (e - places)
    | _, _ => .malformed

end Literal

end OpTree
