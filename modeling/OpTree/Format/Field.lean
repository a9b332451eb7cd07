import OpTree.Number.Decimal
import OpTree.Text.Rune

/-!
# Fields

Printing one argument under a field specification: flags, width, precision and a verb. Widths and
precisions count code points. A verb that does not fit the argument is reported inside of the
text, and so is a specification without a verb.
-/

namespace OpTree

set_option autoImplicit false

inductive FieldArg where
  | int (v : Int)
  /-- A code point as a 32-bit number. -/
  | rune (v : Int)
  | word (v : Nat)
  | float (f : Float)
  | text (s : Bytes)

structure FieldStyle where
  minus : Bool := false
  plus : Bool := false
  space : Bool := false
  sharp : Bool := false
  zero : Bool := false
  width? : Option Nat := none
  prec? : Option Nat := none
  deriving Repr, DecidableEq, Inhabited

namespace FieldStyle

/-- Zeros never go to the right, so a minus sign takes them back. -/
def addFlag (s : FieldStyle) (b : UInt8) : FieldStyle :=
  if b == 35 then { s with sharp := true }
  else if b == 48 then { s with zero := !s.minus }
  else if b == 43 then { s with plus := true }
  else if b == 45 then { s with minus := true, zero := false }
  else { s with space := true }

def padding (s : FieldStyle) (n : Nat) : Bytes := List.replicate n (if s.zero then 48 else 32)

def pad (s : FieldStyle) (b : Bytes) : Bytes :=
  let fill := s.padding (s.width?.getD 0 - Bytes.runeCount b)
  if s.minus then b ++ fill else fill ++ b

/-- Cuts a text to as many code points as the precision says. -/
def truncate (s : FieldStyle) (b : Bytes) : Bytes :=
  match s.prec? with
  | none => b
  | some n => b.take (((Bytes.decode b).take n).foldr (fun r w => r.width + w) 0)

def text (s : FieldStyle) (b : Bytes) : Bytes := s.pad (s.truncate b)

def upperDigits (d : Bytes) : Bytes := d.map Bytes.upperByte

/-- An integer in a base. A precision asks for that many digits, a zero flag fills the width with
digits after the sign, and the sharp flag marks the base. -/
def integer (s : FieldStyle) (base : Nat) (upper : Bool) (neg : Bool) (mag : Nat) : Bytes :=
  let plain := { s with zero := false }
  if s.prec? == some 0 && mag == 0 then plain.padding (s.width?.getD 0)
  else
    let least := match s.prec?, s.width? with
      | some p, _ => p
      | none, some w => if s.zero then (if neg || s.plus || s.space then w - 1 else w) else 0
      | none, none => 0
    let digits := Bytes.padLeft least 48 (Bytes.digits base mag)
    let digits := if upper then upperDigits digits else digits
    let digits :=
      if s.sharp then
        if base = 2 then [48, 98] ++ digits
        else if base = 8 then if digits.head? == some 48 then digits else 48 :: digits
        else if base = 16 then [48, if upper then 88 else 120] ++ digits
        else digits
      else digits
    let sign : Bytes := if neg then [45] else if s.plus then [43] else if s.space then [32] else []
    plain.pad (sign ++ digits)

/-- One code point; what is none is printed as the replacement character. -/
def character (s : FieldStyle) (v : Int) : Bytes :=
  s.pad (Rune.encode (if v < 0 then Rune.replacement else v.toNat))

/-- How many of the digits up to an exponent count as significant: all from the first one that is
not zero. -/
def significantCount (num : Bytes) : Nat :=
  ((num.filter (· != 46)).dropWhile (· == 48)).length

/-- Puts in the decimal point and the zeros that the sharp flag keeps. -/
def sharpen (digits : Nat) (num : Bytes) : Bytes :=
  let body := num.takeWhile fun b => Bytes.lowerByte b != 101
  let tail := num.dropWhile fun b => Bytes.lowerByte b != 101
  let hasPoint := body.contains 46
  let used := significantCount body + (if !hasPoint && body == [48] then 1 else 0)
  (if hasPoint then body else body ++ [46]) ++ List.replicate (digits - used) 48 ++ tail

/-- A double. Infinities always show a sign and are never filled with zeros. -/
def float (s : FieldStyle) (style : FloatStyle) (upper : Bool) (default? : Option Nat) (f : Float) :
    Bytes :=
  let prec? := match s.prec? with
    | some p => some p
    | none => default?
  let plain := { s with zero := false }
  let plusSign : UInt8 := if s.space && !s.plus then 32 else 43
  match Binary64.ofFloat f with
  | .nan => plain.pad ((if s.space || s.plus then [plusSign] else []) ++ utf8 "NaN")
  | .infinite neg => plain.pad ((if neg then 45 else plusSign) :: utf8 "Inf")
  | .finite neg mant exp =>
    let bits := (f.toBits.toNat % Nat.pow 2 63).toUInt64
    let num := style.magnitude upper prec? bits mant exp
    let num :=
      if s.sharp then sharpen (if style = .general then prec?.getD 6 else 0) num else num
    let sign := if neg then 45 else plusSign
    if s.plus || sign != 43 then
      if s.zero && num.length + 1 < s.width?.getD 0 then
        sign :: s.padding (s.width?.getD 0 - num.length - 1) ++ num
      else s.pad (sign :: num)
    else s.pad num

end FieldStyle

namespace FieldArg

def typeName : FieldArg → String
  | int _ => "int64"
  | rune _ => "int32"
  | word _ => "uint64"
  | float _ => "float64"
  | text _ => "string"

/-- An integer under a verb; `none` if the verb does not fit. -/
def integerVerb? (s : FieldStyle) (verb : UInt8) (neg : Bool) (mag : Nat) (v : Int) :
    Option Bytes :=
  if verb == 118 || verb == 100 then some (s.integer 10 false neg mag)
  else if verb == 98 then some (s.integer 2 false neg mag)
  else if verb == 111 then some (s.integer 8 false neg mag)
  else if verb == 120 then some (s.integer 16 false neg mag)
  else if verb == 88 then some (s.integer 16 true neg mag)
  else if verb == 99 then some (s.character v)
  else none

/-- The argument under a verb; `none` if the verb does not fit. -/
def print? (s : FieldStyle) (verb : UInt8) : FieldArg → Option Bytes
  | int v => integerVerb? s verb (v < 0) v.natAbs v
  | rune v => integerVerb? s verb (v < 0) v.natAbs v
  | word v => integerVerb? s verb false v v
  | float f =>
    if verb == 118 || verb == 103 then some (s.float .general false none f)
    else if verb == 71 then some (s.float .general true none f)
    else if verb == 101 then some (s.float .scientific false (some 6) f)
    else if verb == 69 then some (s.float .scientific true (some 6) f)
    else if verb == 102 || verb == 70 then some (s.float .positional false (some 6) f)
    else none
  | text b => if verb == 118 || verb == 115 then some (s.text b) else none

def fitsWidth : FieldArg → Bool
  | int v | rune v => v.natAbs ≤ 1000000
  | word v => v ≤ 1000000
  | float _ | text _ => false

/-- `type=value`. -/
def described (s : FieldStyle) (a : FieldArg) : Bytes :=
  utf8 a.typeName ++ [61] ++ (a.print? s 118).getD []

end FieldArg

namespace Field

/-- A number of at most seven digits or so; `none` if it grows too large. -/
def countFrom (acc : Nat) : Bytes → Option (Nat × Bytes)
  | [] => some (acc, [])
  | b :: r =>
    if Bytes.isDigit b then
      if 1000000 < acc then none else countFrom (acc * 10 + (b.toNat - 48)) r
    else some (acc, b :: r)

def count (s : Bytes) : Option Nat × Bytes :=
  if (s.head?.map Bytes.isDigit).getD false then
    match countFrom 0 s with
    | some (n, r) => (some n, r)
    | none => (none, [])
  else (none, s)

def isFlag (b : UInt8) : Bool := b == 45 || b == 43 || b == 32 || b == 48 || b == 35

def splitPrec : Bytes → Option Nat × Bytes
  | 46 :: r =>
    let (p, r) := count r
    (some (p.getD 0), r)
  | s => (none, s)

/-- A star takes the argument for the width, so that none is left for the verb. -/
def starred (arg : FieldArg) (s : Bytes) : Bytes :=
  (if arg.fitsWidth then [] else utf8 "%!(BADWIDTH)") ++
    match (splitPrec s).2 with
    | [] => utf8 "%!(NOVERB)"
    | verb :: rest => utf8 "%!" ++ [verb] ++ utf8 "(MISSING)" ++ rest

/-- Prints `arg` under a specification, which is everything after the percent sign. What follows
the verb is literal text. -/
def print (spec : Bytes) (arg : FieldArg) : Bytes :=
  let style := (spec.takeWhile isFlag).foldl FieldStyle.addFlag {}
  match spec.dropWhile isFlag with
  | 42 :: r => starred arg r
  | s =>
    let (width?, s) := count s
    let (prec?, s) := splitPrec s
    let style := { style with width? := width?, prec? := prec? }
    match s with
    | [] => utf8 "%!(NOVERB)" ++ utf8 "%!(EXTRA " ++ arg.described {} ++ utf8 ")"
    | verb :: rest =>
      let field := match arg.print? style verb with
        | some b => b
        | none => utf8 "%!" ++ [verb] ++ utf8 "(" ++ arg.described style ++ utf8 ")"
      field ++ rest

end Field

end OpTree
