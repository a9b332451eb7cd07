import OpTree.Text.Rune
import OpTree.Text.CaseTable

/-!
# Upper and lower case

Case is changed code point by code point with the simple mappings, so the number of code points
never changes. A text that is not plain ASCII is decoded first, which replaces bytes that are
not UTF-8.
-/

namespace OpTree

set_option autoImplicit false

namespace CaseRun

/-- The image of `r` if the run covers it. -/
def image? (run : CaseRun) (r : Rune) : Option Rune :=
  if run.first ≤ r && r ≤ run.last && (r - run.first) % run.step == 0 then
    some (Int.toNat (r + run.shift))
  else none

end CaseRun

namespace Rune

def toLower (r : Rune) : Rune := (lowerRuns.findSome? (·.image? r)).getD r

def toUpper (r : Rune) : Rune := (upperRuns.findSome? (·.image? r)).getD r

end Rune

namespace Bytes

def toLower (s : Bytes) : Bytes :=
  if isAscii s then s.map lowerByte else ofRunes ((runes s).map Rune.toLower)

def toUpper (s : Bytes) : Bytes :=
  if isAscii s then s.map upperByte else ofRunes ((runes s).map Rune.toUpper)

end Bytes

end OpTree
