import OpTree.Listing.Form
import OpTree.Listing.Space
import OpTree.Failure
import OpTree.Text.Rune

/-!
# Tokens of a listing

Readers for identifiers, atoms, variables, numbers and strings. A reader starts at a place of the
source and answers with a form and the place after it, or with a failure and the place where it
noticed. A reader that is started beyond the end of the text fails fatally.
-/

namespace OpTree

set_option autoImplicit false

inductive Reading where
  | ok (form : Form) (stop : Nat)
  | fail (why : Failure) (stop : Nat)
  deriving Repr, Inhabited

namespace Reading

def expected (what : String) (i : Nat) : Reading := .fail (.plain (utf8 what)) i

def beyondEnd (i : Nat) : Reading := .fail (.fatal none) i

end Reading

namespace Token

def isIdentStart (b : UInt8) : Bool := Bytes.isLetter b || b == 95

/-- The end of the identifier bytes from `i` on; `.error` is the place of a bad code point. -/
def identEnd (src : Array UInt8) (i : Nat) : Except Nat Nat :=
  if h : i < src.size then
    if Bytes.isWord src[i] then identEnd src (i + 1)
    else if 128 ≤ src[i] then
      let d := Bytes.decodeHead src[i] (slice src (i + 1) (i + 4))
      if d.rune == Rune.replacement then .error i
      else identEnd src (i + max d.width 1)
    else .ok i
  else .ok i
termination_by src.size - i

def ident (src : Array UInt8) (st : Nat) : Reading :=
  if h : st < src.size then
    if isIdentStart src[st] then
      match identEnd src (st + 1) with
      | .ok i => .ok (.word (slice src st i)) i
      | .error i => .expected "bad rune" i
    else .expected "Ident expected" st
  else if st = src.size then .expected "Ident expected" st
  else .beyondEnd st

/-- A bare word, or a label: a word after a colon. -/
def atom (src : Array UInt8) (st : Nat) : Reading :=
  let i := if src[st]? == some 58 then st + 1 else st
  match ident src i with
  | .ok _ j => .ok (.atom st j) j
  | .fail why j => if why.isFatal then .fail why j else .expected "Atom expected" st

def isSigil (b : UInt8) : Bool := b == 36 || b == 64 || b == 37

def var (src : Array UInt8) (st : Nat) : Reading :=
  if src.size < st then .beyondEnd st
  else match src[st]? with
    | some b =>
      if isSigil b then
        match ident src (st + 1) with
        | .ok _ j => .ok (.var st j) j
        | .fail why j => .fail (.during (utf8 "var name") why) j
      else .expected "Var expected" st
    | none => .expected "Var expected" st

/-- The byte a backslash and `c` stand for. -/
def unescape (c : UInt8) : UInt8 :=
  if c == 110 then 10 else if c == 116 then 9 else if c == 48 then 0
  else if c == 101 then 27 else c

/-- The rest of a string whose quote stands at `st`; `acc` holds the bytes so far, last first. -/
def strBody (src : Array UInt8) (st i : Nat) (acc : Bytes) : Reading :=
  if h : i < src.size then
    if src[i] == 34 then .ok (.str st (i + 1) acc.reverse) (i + 1)
    else if src[i] == 92 then
      if h' : i + 1 < src.size then strBody src st (i + 2) (unescape src[i + 1] :: acc)
      else .fail (.unfinished st) (i + 1)
    else strBody src st (i + 1) (src[i] :: acc)
  else .fail (.unfinished st) i
termination_by src.size - i

def str (src : Array UInt8) (st : Nat) : Reading :=
  if src.size < st then .beyondEnd st
  else if src[st]? == some 34 then strBody src st (st + 1) []
  else .expected "Str expected" st

def isSign (b : Option UInt8) : Bool := b == some 45 || b == some 43

/-- Does the letter after a leading zero name a base. -/
def isBaseLetter (b : Option UInt8) : Bool :=
  match b with
  | some c =>
    let l := Bytes.lowerByte c
    l == 120 || l == 111 || l == 98
  | none => false

/-- Scans digits with at most one point and one exponent. Answers with the end and with whether
there was a point or an exponent. -/
def decimalEnd (src : Array UInt8) (first i : Nat) (dot exp : Bool) : Nat × Bool :=
  if h : i < src.size then
    let b := src[i]
    if Bytes.isDigit b then decimalEnd src first (i + 1) dot exp
    else if !dot && !exp && b == 46 then decimalEnd src first (i + 1) true exp
    else if !exp && i != first && Bytes.lowerByte b == 101 then
      decimalEnd src first (if isSign src[i + 1]? then i + 2 else i + 1) dot true
    else (i, dot || exp)
  else (i, dot || exp)
termination_by src.size - i
decreasing_by all_goals (try split) <;> omega

def num (src : Array UInt8) (st : Nat) : Reading :=
  let i := if isSign src[st]? then st + 1 else st
  if src[i]? == some 48 && isBaseLetter src[i + 1]? then
    let j := scanWhile src Bytes.isWord (i + 2)
    if j = i + 2 then .expected "Num expected" st else .ok (.int st j) j
  else
    let (j, fractional) := decimalEnd src i i false false
    if j = i || (j = i + 1 && src[i]? == some 46) then .expected "Num expected" st
    else if (src[j]?.map Bytes.isWord).getD false then .expected "Num expected" st
    else if fractional then .ok (.float st j) j
    else .ok (.int st j) j

end Token

end OpTree
