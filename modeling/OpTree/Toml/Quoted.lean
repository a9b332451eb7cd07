import OpTree.Text.Rune
import OpTree.Number.Literal

/-!
# Quoted texts of TOML

Double quotes allow escapes, single quotes do not. Three quotes begin a text that may run over
several lines; up to two further quotes may stand right before its end.
-/

namespace OpTree

set_option autoImplicit false

namespace Toml

def isHex (b : UInt8) : Bool :=
  Bytes.isDigit b || (97 ≤ Bytes.lowerByte b && Bytes.lowerByte b ≤ 102)

/-- The character whose code is written by exactly `count` hexadecimal digits. -/
def codeText? (count : Nat) (s : Bytes) : Option Bytes :=
  let ds := s.take count
  if ds.length = count && ds.all isHex then
    (Literal.natFrom? 16 0 ds).bind fun r => if Rune.valid r then some (Rune.encode r) else none
  else none

/-- What an escape stands for, and how many bytes of `rest` belong to it beside its letter `c`. -/
def escape? (c : UInt8) (rest : Bytes) : Option (Bytes × Nat) :=
  match c with
  | 98 => some ([8], 0)
  | 116 => some ([9], 0)
  | 110 => some ([10], 0)
  | 102 => some ([12], 0)
  | 114 => some ([13], 0)
  | 34 => some ([34], 0)
  | 92 => some ([92], 0)
  | 117 => (codeText? 4 rest).map fun t => (t, 4)
  | 85 => (codeText? 8 rest).map fun t => (t, 8)
  | _ => none

/-- A text after its opening double quote, and what follows the closing one. -/
def basic? : Bytes → Option (Bytes × Bytes)
  | 34 :: r => some ([], r)
  | 92 :: c :: r =>
    (escape? c r).bind fun (t, n) => (basic? (r.drop n)).map fun (u, s) => (t ++ u, s)
  | b :: r => if b == 10 || b == 92 then none else (basic? r).map fun (u, s) => (b :: u, s)
  | [] => none
termination_by s => s.length
decreasing_by all_goals simp only [List.length_drop, List.length_cons]; omega

/-- A text after its opening single quote, and what follows the closing one. -/
def literal? : Bytes → Option (Bytes × Bytes)
  | 39 :: r => some ([], r)
  | b :: r => if b == 10 then none else (literal? r).map fun (u, s) => (b :: u, s)
  | [] => none

/-- Does a line end among the blanks at the front. -/
def endsLine (s : Bytes) : Bool :=
  (s.takeWhile fun b => b == 32 || b == 9 || b == 10).contains 10

/-- What follows a text in three double quotes. `done` is the text so far, last byte first: a sixth
quote in a row is too many, unless a backslash stands before the first. A backslash at the end of a
line joins it with the next one. -/
def blockEnd? (done : Bytes) : Bytes → Option Bytes
  | 34 :: 34 :: 34 :: 34 :: r =>
    if done.take 2 == [34, 34] && (done.drop 2).head? != some 92 then none
    else blockEnd? (34 :: done) (34 :: 34 :: 34 :: r)
  | 34 :: 34 :: 34 :: r => some r
  | 92 :: c :: r =>
    if endsLine (c :: r) then blockEnd? (c :: 92 :: done) r
    else (escape? c r).bind fun (_, n) =>
      blockEnd? ((r.take n).reverse ++ c :: 92 :: done) (r.drop n)
  | b :: r => if b == 92 then none else blockEnd? (b :: done) r
  | [] => none
termination_by s => s.length
decreasing_by all_goals simp only [List.length_drop, List.length_cons]; omega

/-- What follows a text in three single quotes, where `quotes` of them have just been met. -/
def literalBlockEnd? (quotes : Nat) : Bytes → Option Bytes
  | 39 :: 39 :: 39 :: 39 :: r =>
    if 2 ≤ quotes then none else literalBlockEnd? (quotes + 1) (39 :: 39 :: 39 :: r)
  | 39 :: 39 :: 39 :: r => some r
  | b :: r => literalBlockEnd? (if b == 39 then quotes + 1 else 0) r
  | [] => none

end Toml

end OpTree
