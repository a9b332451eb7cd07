import OpTree.Text.Rune
import OpTree.Text.Printable

/-!
# Quoted texts

A text between double quotes, or a single code point between single quotes. The quote in use
and the backslash get a backslash, printable code points stand as they are, and everything else
is written as an escape; a byte that is not UTF-8 is written by its two hexadecimal digits.
-/

namespace OpTree

set_option autoImplicit false

namespace Quoted

def letterEscape : Rune → Option UInt8
  | 7 => some 97
  | 8 => some 98
  | 12 => some 102
  | 10 => some 110
  | 13 => some 114
  | 9 => some 116
  | 11 => some 118
  | _ => none

def escapeRune (quote : Rune) (r : Rune) : Bytes :=
  if r == quote || r == 92 then 92 :: Rune.encode r
  else if Rune.printable r then Rune.encode r
  else match letterEscape r with
    | some c => [92, c]
    | none =>
      if r < 32 || r == 127 then [92, 120] ++ Bytes.hexPadded 2 r
      else
        let r := if Rune.valid r then r else Rune.replacement
        if r < 0x10000 then [92, 117] ++ Bytes.hexPadded 4 r
        else [92, 85] ++ Bytes.hexPadded 8 r

/-- The escaped code points of a text, without the quotes around it. -/
def escapeAll (quote : Rune) : Bytes → Bytes
  | [] => []
  | b :: rest =>
    let d := Bytes.decodeHead b rest
    let w := if d.ok then escapeRune quote d.rune else [92, 120] ++ Bytes.hexPadded 2 b.toNat
    w ++ escapeAll quote (rest.drop (d.width - 1))
termination_by s => s.length
decreasing_by simp only [List.length_drop, List.length_cons]; omega

/-- `s` between double quotes. -/
def text (s : Bytes) : Bytes := [34] ++ escapeAll 34 s ++ [34]

def rune (r : Rune) : Bytes := [39] ++ escapeRune 39 r ++ [39]

end Quoted

end OpTree
