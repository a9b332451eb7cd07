import OpTree.Text.Bytes

/-!
# Format strings

A format is literal text and directives. A directive is a percent sign, flags, an optional vector
mark, a width, a precision, size letters, which mean nothing, and one byte that says what is
printed; that byte is missing only at the end of the format.
-/

namespace OpTree

set_option autoImplicit false

structure Directive where
  flags : Bytes
  vector : Bool
  /-- Digits and stars. -/
  width : Bytes
  /-- Empty, or a point followed by digits and stars. -/
  prec : Bytes
  /-- Size letters. -/
  size : Bytes
  verb? : Option UInt8
  deriving Repr, DecidableEq, Inhabited

inductive FormatPart where
  | text (s : Bytes)
  | directive (d : Directive)
  deriving Repr, DecidableEq

namespace Directive

def isFlag (b : UInt8) : Bool := b == 45 || b == 43 || b == 32 || b == 48 || b == 35

def isCount (b : UInt8) : Bool := Bytes.isDigit b || b == 42

def isSize (b : UInt8) : Bool := b == 104 || b == 108 || b == 113 || b == 76 || b == 86

def verb (d : Directive) : UInt8 := d.verb?.getD 0

/-- Is the width or the precision taken from the arguments. -/
def star (d : Directive) : Bool := d.width.contains 42 || d.prec.contains 42

/-- The directive as it stands in the format. -/
def raw (d : Directive) : Bytes :=
  [37] ++ d.flags ++ (if d.vector then [118] else []) ++ d.width ++ d.prec ++ d.size ++
    d.verb?.toList

def splitVector : Bytes → Bool × Bytes
  | 118 :: r => (true, r)
  | s => (false, s)

def splitPrec : Bytes → Bytes × Bytes
  | 46 :: r => (46 :: r.takeWhile isCount, r.dropWhile isCount)
  | s => ([], s)

def splitVerb : Bytes → Option UInt8 × Bytes
  | b :: r => (some b, r)
  | [] => (none, [])

/-- The directive after a percent sign, and what follows it. -/
def parse (s : Bytes) : Directive × Bytes :=
  let flags := s.takeWhile isFlag
  let (vector, s) := splitVector (s.dropWhile isFlag)
  let width := s.takeWhile isCount
  let (prec, s) := splitPrec (s.dropWhile isCount)
  let size := s.takeWhile isSize
  let (verb?, s) := splitVerb (s.dropWhile isSize)
  (⟨flags, vector, width, prec, size, verb?⟩, s)

theorem length_splitVector (s : Bytes) : (splitVector s).2.length ≤ s.length := by
  unfold splitVector
  split <;> simp

theorem length_dropWhile_le (p : UInt8 → Bool) (s : Bytes) : (s.dropWhile p).length ≤ s.length :=
  (List.dropWhile_suffix p).length_le

theorem length_splitPrec (s : Bytes) : (splitPrec s).2.length ≤ s.length := by
  unfold splitPrec
  split
  · have := length_dropWhile_le isCount ‹_›
    simp only [List.length_cons]
    omega
  · simp

theorem length_splitVerb (s : Bytes) : (splitVerb s).2.length ≤ s.length := by
  unfold splitVerb
  split <;> simp

theorem length_parse (s : Bytes) : (parse s).2.length ≤ s.length := by
  simp only [parse]
  have h1 := length_dropWhile_le isFlag s
  have h2 := length_splitVector (s.dropWhile isFlag)
  have h3 := length_dropWhile_le isCount (splitVector (s.dropWhile isFlag)).2
  have h4 := length_splitPrec ((splitVector (s.dropWhile isFlag)).2.dropWhile isCount)
  have h5 := length_dropWhile_le isSize
    (splitPrec ((splitVector (s.dropWhile isFlag)).2.dropWhile isCount)).2
  have h6 := length_splitVerb
    ((splitPrec ((splitVector (s.dropWhile isFlag)).2.dropWhile isCount)).2.dropWhile isSize)
  omega

end Directive

namespace FormatPart

def parse : Bytes → List FormatPart
  | [] => []
  | 37 :: r =>
    let d := Directive.parse r
    .directive d.1 :: parse d.2
  | b :: r =>
    .text (b :: r.takeWhile (· != 37)) :: parse (r.dropWhile (· != 37))
termination_by s => s.length
decreasing_by
  · have := Directive.length_parse r
    simp only [List.length_cons]
    omega
  · have := Directive.length_dropWhile_le (· != 37) r
    simp only [List.length_cons]
    omega

def raw : FormatPart → Bytes
  | text s => s
  | directive d => d.raw

end FormatPart

end OpTree
