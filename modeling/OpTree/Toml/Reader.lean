import OpTree.Toml
import OpTree.Toml.Quoted
import OpTree.Text.Timestamp

/-!
# Reading TOML

The entries of a text. Each reader answers with what follows, and `none` for a malformed text.
-/

namespace OpTree

set_option autoImplicit false

namespace Toml

def isBlank (b : UInt8) : Bool := b == 32 || b == 9

def skipBlanks (s : Bytes) : Bytes := s.dropWhile isBlank

def skipLine (s : Bytes) : Bytes := s.dropWhile (· != 10)

/-- Passes over blanks, line ends and comments. -/
def skipSpace : Bytes → Bytes
  | 35 :: r => skipSpace (skipLine r)
  | b :: r => if isBlank b || b == 10 then skipSpace r else b :: r
  | [] => []
termination_by s => s.length
decreasing_by
  · have := (List.dropWhile_sublist (l := r) (· != 10)).length_le
    simp only [skipLine, List.length_cons]
    omega
  · simp

/-- The next line, if nothing but blanks and a comment is left of this one. -/
def lineEnd? (s : Bytes) : Option Bytes :=
  match skipBlanks s with
  | [] => some []
  | 10 :: r => some r
  | 35 :: r => some (skipLine r)
  | _ => none

/-! ### Keys -/

def isKeyByte (b : UInt8) : Bool := Bytes.isWord b || b == 45

/-- One part of a key. -/
def keyPart? (s : Bytes) : Option (Bytes × Bytes) :=
  match s with
  | 34 :: r => basic? r
  | 39 :: r => literal? r
  | _ =>
    let k := s.takeWhile isKeyByte
    if k.isEmpty then none else some (k, s.dropWhile isKeyByte)

/-- A dotted key of at most `fuel` parts, with the blanks after it. -/
def keyParts? : Nat → Bytes → Option (Path × Bytes)
  | 0, _ => none
  | fuel + 1, s => do
    let (k, rest) ← keyPart? (skipBlanks s)
    match skipBlanks rest with
    | 46 :: r =>
      let (ks, rest) ← keyParts? fuel r
      return (k :: ks, rest)
    | r => return ([k], r)

def key? (s : Bytes) : Option (Path × Bytes) := keyParts? (s.length + 1) s

/-! ### Numbers, times and truth values -/

/-- Digits with single underscores between them. -/
def isDigitRun (ok : UInt8 → Bool) (s : Bytes) : Bool :=
  Literal.underscoresFrom true .start s && s.all (fun b => ok b || b == 95) && s.head? != some 95 &&
    !s.isEmpty

def isDecimalNat (s : Bytes) : Bool :=
  isDigitRun Bytes.isDigit s && (s.head? != some 48 || s.length == 1)

/-- A decimal integer with or without a sign, or one of another base without a sign. -/
def int? (s : Bytes) : Option Int64 :=
  let plain := s.filter (· != 95)
  if isDecimalNat (Literal.splitSign s).2 then Literal.decimalInt? plain
  else match s with
    | 48 :: 120 :: r => if isDigitRun isHex r then Literal.int? plain else none
    | 48 :: 111 :: r =>
      if isDigitRun (fun b => 48 ≤ b && b ≤ 55) r then Literal.int? plain else none
    | 48 :: 98 :: r =>
      if isDigitRun (fun b => b == 48 || b == 49) r then Literal.int? plain else none
    | _ => none

/-- A whole part and a fraction, an exponent or both. -/
def isFraction (s : Bytes) : Bool :=
  let mant := s.takeWhile fun b => Bytes.lowerByte b != 101
  let tail := s.dropWhile fun b => Bytes.lowerByte b != 101
  let expOk := match tail with
    | [] => true
    | _ :: e => isDigitRun Bytes.isDigit (Literal.splitSign e).2
  let fracOk := match mant.dropWhile (· != 46) with
    | [] => !tail.isEmpty
    | _ :: f => isDigitRun Bytes.isDigit f
  isDecimalNat (mant.takeWhile (· != 46)) && fracOk && expOk

/-- A fraction within the range of doubles, or one of the named values. -/
def isFloat (s : Bytes) : Bool :=
  let body := (Literal.splitSign s).2
  if body == utf8 "inf" || body == utf8 "nan" then true
  else if isFraction body then
    match Literal.float (s.filter (· != 95)) with
    | .value _ => true
    | _ => false
  else false

/-- A truth value or a number. -/
def word? (s : Bytes) : Option Scalar :=
  if s == utf8 "true" then some (.bool true)
  else if s == utf8 "false" then some (.bool false)
  else match int? s with
    | some v => some (.int v)
    | none => if isFloat s then some .float else none

def isWordByte (b : UInt8) : Bool := isKeyByte b || b == 43 || b == 46

/-- Times begin with digits and a `-` or `:`; a single zero begins none. -/
def startsTime (s : Bytes) : Bool :=
  let ds := s.takeWhile Bytes.isDigit
  match s.dropWhile Bytes.isDigit with
  | 45 :: _ | 58 :: _ => !ds.isEmpty && ds != [48]
  | _ => false

def isTimeByte (b : UInt8) : Bool := Bytes.isDigit b || (utf8 "-:Tt .Zz+").contains b

/-- The time in its standard spelling: capital letters, and no blank inside. -/
def standardTime (s : Bytes) : Bytes :=
  (Bytes.trim [32] s).map fun b => if b == 32 then 84 else Bytes.upperByte b

def scalar? (s : Bytes) : Option (Scalar × Bytes) :=
  match s with
  | 34 :: 34 :: 34 :: r => (blockEnd? [] r).map fun s => (.text, s)
  | 39 :: 39 :: 39 :: r => (literalBlockEnd? 0 r).map fun s => (.text, s)
  | 34 :: r => (basic? r).map fun t => (.text, t.2)
  | 39 :: r => (literal? r).map fun t => (.text, t.2)
  | _ =>
    if startsTime s then
      if Timestamp.isTime (standardTime (s.takeWhile isTimeByte)) then
        some (.time, s.dropWhile isTimeByte)
      else none
    else (word? (s.takeWhile isWordByte)).map fun v => (v, s.dropWhile isWordByte)

/-! ### Lists and tables -/

/-- The items of a list after its opening bracket. A comma may stand after the last one. -/
def items? (one : Bytes → Option (Expr × Bytes)) : Nat → Bytes → Option (List Expr × Bytes)
  | 0, _ => none
  | fuel + 1, s =>
    match skipSpace s with
    | 93 :: r => some ([], r)
    | s => do
      let (e, s) ← one s
      match skipSpace s with
      | 44 :: r =>
        let (es, s) ← items? one fuel r
        return (e :: es, s)
      | 93 :: r => return ([e], r)
      | _ => none

def pair? (one : Bytes → Option (Expr × Bytes)) (s : Bytes) : Option ((Path × Expr) × Bytes) := do
  match ← key? s with
  | (path, 61 :: r) =>
    let (e, s) ← one r
    return ((path, e), s)
  | _ => none

/-- The pairs of a table in braces, of which there is at least one; they stand on one line. -/
def pairs? (one : Bytes → Option (Expr × Bytes)) :
    Nat → Bytes → Option (List (Path × Expr) × Bytes)
  | 0, _ => none
  | fuel + 1, s => do
    let (p, s) ← pair? one s
    match skipBlanks s with
    | 44 :: r =>
      let (ps, s) ← pairs? one fuel r
      return (p :: ps, s)
    | 125 :: r => return ([p], r)
    | _ => none

/-- A value that begins on this line and nests at most `fuel` levels deep. -/
def expr? : Nat → Bytes → Option (Expr × Bytes)
  | 0, _ => none
  | fuel + 1, s =>
    match skipBlanks s with
    | 91 :: r => (items? (expr? fuel) (r.length + 1) r).map fun (es, s) => (.list es, s)
    | 123 :: r =>
      match skipBlanks r with
      | 125 :: r => some (.table [], r)
      | r => (pairs? (expr? fuel) (r.length + 1) r).map fun (ps, s) => (.table ps, s)
    | s => (scalar? s).map fun (v, s) => (.scalar v, s)

/-! ### Entries -/

/-- The entry at the front of a text that does not begin with space. -/
def entry? (s : Bytes) : Option (Entry × Bytes) :=
  match s with
  | 91 :: 91 :: r =>
    match key? r with
    | some (path, 93 :: 93 :: s) => some (.listHeader path, s)
    | _ => none
  | 91 :: r =>
    match key? r with
    | some (path, 93 :: s) => some (.header path, s)
    | _ => none
  | _ => (pair? (expr? (s.length + 1)) s).map fun ((path, e), s) => (.pair path e, s)

/-- At most `fuel` entries, each of which ends its line. -/
def entries? : Nat → Bytes → Option (List Entry)
  | 0, _ => none
  | fuel + 1, s =>
    match skipSpace s with
    | [] => some []
    | s => do
      let (e, s) ← entry? s
      let es ← entries? fuel (← lineEnd? s)
      return e :: es

/-- A text without the mark of its encoding. -/
def dropMark : Bytes → Bytes
  | 0xef :: 0xbb :: 0xbf :: r => r
  | 0xff :: 0xfe :: r | 0xfe :: 0xff :: r => r
  | s => s

/-- Control characters other than the tab and the line feed are refused everywhere. -/
def isControl (b : UInt8) : Bool := (b < 32 && b != 9 && b != 10) || b == 127

/-- A text whose lines end in line feeds alone; a carriage return is allowed only before one. -/
def plainLines? : Bytes → Option Bytes
  | 13 :: 10 :: r => (plainLines? r).map (10 :: ·)
  | b :: r => if isControl b then none else (plainLines? r).map (b :: ·)
  | [] => some []

/-- A text is UTF-8, and the replacement character is no part of it. -/
def isClean (s : Bytes) : Bool := (Bytes.decode s).all fun d => d.rune != Rune.replacement

def read? (s : Bytes) : Option (List Entry) :=
  let s := dropMark s
  if isClean s then (plainLines? s).bind fun s => entries? (s.length + 1) s else none

end Toml

end OpTree
