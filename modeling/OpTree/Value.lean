import OpTree.Number.Decimal
import OpTree.Number.Literal
import OpTree.Text.CaseMap
import OpTree.Text.Rune

/-!
# Values

What a scalar holds: nothing, a truth value, a number, a text, or a reference to an array or a
hash. Every value has a truth, a text and a number; the number of a text is its longest numeric
beginning.
-/

namespace OpTree

set_option autoImplicit false

abbrev CellId := Nat
abbrev ArrayId := Nat
abbrev TableId := Nat

inductive Value where
  | undefined
  | bool (b : Bool)
  | int (v : Int64)
  | float (f : Float)
  | str (s : Bytes)
  | array (a : ArrayId)
  | hash (h : TableId)
  deriving Repr, Inhabited, BEq

/-- The numeric side of a value. -/
inductive Number where
  | int (v : Int64)
  | float (f : Float)
  deriving Repr, Inhabited, BEq

namespace Binary64

def ofInt (v : Int) : Float :=
  Literal.withSign (v < 0) ((nearestBits v.natAbs 1).getD 0)

/-- The integer part, toward zero. Whatever has none in 64 bits gives the least integer. -/
def truncate (f : Float) : Int64 :=
  match ofFloat f with
  | .finite neg mant exp =>
    let q := fraction mant exp
    (Literal.signed? neg (q.1 / q.2)).getD Int64.minValue
  | _ => Int64.minValue

end Binary64

namespace Number

def toFloat : Number → Float
  | int v => Binary64.ofInt v.toInt
  | float f => f

def toInt64 : Number → Int64
  | int v => v
  | float f => Binary64.truncate f

def toValue : Number → Value
  | int v => .int v
  | float f => .float f

/-- The bytes around a number that are ignored. -/
def blanks : Bytes := [32, 9, 10, 13, 12, 11]

/-- Splits off an exponent that has digits. -/
def splitExponent (s : Bytes) : Bytes × Bytes :=
  match s with
  | e :: r =>
    if Bytes.lowerByte e == 101 then
      let sign := r.takeWhile fun b => b == 43 || b == 45
      let sign := sign.take 1
      let digits := (r.drop sign.length).takeWhile Bytes.isDigit
      if digits.isEmpty then ([], s)
      else (e :: sign ++ digits, r.drop (sign.length + digits.length))
    else ([], s)
  | [] => ([], [])

/-- The longest numeric beginning of a text, and whether it is the whole text. Blanks at both
ends do not count; a text without a numeric beginning gives zero. -/
def ofText (s : Bytes) : Number × Bool :=
  let t := Bytes.trim blanks s
  let (neg, body) := Literal.splitSign t
  let sign := t.take (t.length - body.length)
  let low := Bytes.toLower body
  if (utf8 "inf").isPrefixOf low then
    (.float (if neg then -(1.0 / 0.0) else 1.0 / 0.0), low == utf8 "inf" || low == utf8 "infinity")
  else if (utf8 "nan").isPrefixOf low then (.float (0.0 / 0.0), low == utf8 "nan")
  else
    let whole := body.takeWhile Bytes.isDigit
    let rest := body.dropWhile Bytes.isDigit
    let (point, frac, rest) := match rest with
      | 46 :: r => ([46], r.takeWhile Bytes.isDigit, r.dropWhile Bytes.isDigit)
      | _ => (([], [], rest) : Bytes × Bytes × Bytes)
    if whole.isEmpty && frac.isEmpty then (.int 0, false)
    else
      let (exp, rest) := splitExponent rest
      let num := sign ++ whole ++ point ++ frac ++ exp
      let whole? := if point.isEmpty && exp.isEmpty then Literal.decimalInt? num else none
      let n := match whole? with
        | some v => Number.int v
        | none => match Literal.float num with
          | .value f => .float f
          | .tooLarge neg => .float (if neg then -(1.0 / 0.0) else 1.0 / 0.0)
          | .malformed => .float 0.0
      (n, rest.isEmpty)

end Number

namespace Value

def defined : Value → Bool
  | undefined => false
  | _ => true

def truth : Value → Bool
  | undefined => false
  | bool b => b
  | int v => v != 0
  | float f => f != 0.0
  | str s => !(s.isEmpty || s == [48])
  | array _ | hash _ => true

/-- Fifteen significant digits. -/
def floatText (f : Float) : Bytes := FloatStyle.general.format false (some 15) (utf8 "Inf") f

/-- The number a reference shows; equal exactly for the same container. -/
def arrayAddress (a : ArrayId) : Nat := 0xc000000000 + 64 * a

def tableAddress (h : TableId) : Nat := 0xc000000020 + 64 * h

def referenceText (kind : String) (addr : Nat) : Bytes :=
  utf8 kind ++ utf8 "(0x" ++ Bytes.digits 16 addr ++ utf8 ")"

def text : Value → Bytes
  | undefined => []
  | bool b => if b then [49] else []
  | int v => Bytes.ofInt v.toInt
  | float f => floatText f
  | str s => s
  | array a => referenceText "ARRAY" (arrayAddress a)
  | hash h => referenceText "HASH" (tableAddress h)

/-- The number of a value, and whether all of it was a number. -/
def number : Value → Number × Bool
  | undefined => (.int 0, true)
  | bool b => (.int (if b then 1 else 0), true)
  | int v => (.int v, true)
  | float f => (.float f, true)
  | str s => Number.ofText s
  | array a => (.int (Int64.ofNat (arrayAddress a)), true)
  | hash h => (.int (Int64.ofNat (tableAddress h)), true)

/-- The integer of a value; what is no number counts as zero. -/
def integer (v : Value) : Int64 × Bool :=
  match v.number with
  | (.float f, ok) => (if f.isNaN then 0 else Binary64.truncate f, ok)
  | (n, ok) => (n.toInt64, ok)

def float64 (v : Value) : Float × Bool :=
  let (n, ok) := v.number
  (n.toFloat, ok)

/-- How many code points the text has; the undefined value has no length. -/
def runeLength (v : Value) : Option Nat :=
  if v.defined then some (Bytes.runeCount v.text) else none

end Value

end OpTree
