import OpTree.Text.Bytes

/-!
# Blanks and comments

What may stand between forms: bytes of a set of blanks, and comments from a semicolon up to the
end of the line. Only bytes below 64 can be blanks.
-/

namespace OpTree

set_option autoImplicit false

structure SpaceSet where
  blanks : List UInt8
  deriving Repr, DecidableEq, Inhabited

namespace SpaceSet

/-- `none` if a byte is too high to be a blank. -/
def ofList? (bs : List UInt8) : Option SpaceSet :=
  if bs.all (· < 64) then some ⟨bs⟩ else none

def space : SpaceSet := ⟨[32]⟩
def spaceTab : SpaceSet := ⟨[32, 9]⟩
def all : SpaceSet := ⟨[32, 9, 13, 10]⟩

def contains (s : SpaceSet) (b : UInt8) : Bool := s.blanks.contains b

end SpaceSet

/-- The first place from `i` on whose byte does not satisfy `p`, or the end of the text. -/
def scanWhile (src : Array UInt8) (p : UInt8 → Bool) (i : Nat) : Nat :=
  if h : i < src.size then
    if p src[i] then scanWhile src p (i + 1) else i
  else i
termination_by src.size - i

theorem le_scanWhile (src : Array UInt8) (p : UInt8 → Bool) (i : Nat) :
    i ≤ scanWhile src p i := by
  fun_induction scanWhile src p i with
  | case1 i h hp ih => omega
  | case2 => exact Nat.le_refl _
  | case3 => exact Nat.le_refl _

theorem scanWhile_le (src : Array UInt8) (p : UInt8 → Bool) {i : Nat} (h : i ≤ src.size) :
    scanWhile src p i ≤ src.size := by
  fun_induction scanWhile src p i with
  | case1 i h hp ih => exact ih (by omega)
  | case2 => exact h
  | case3 => exact h

namespace SpaceSet

/-- The place after all blanks and comments from `i` on. -/
def skip (s : SpaceSet) (src : Array UInt8) (i : Nat) : Nat :=
  if h : i < src.size then
    if s.contains src[i] then s.skip src (i + 1)
    else if src[i] == 59 then s.skip src (scanWhile src (· != 10) (i + 1))
    else i
  else i
termination_by src.size - i
decreasing_by
  · omega
  · have := le_scanWhile src (· != 10) (i + 1)
    omega

theorem le_skip (s : SpaceSet) (src : Array UInt8) (i : Nat) : i ≤ s.skip src i := by
  fun_induction skip s src i with
  | case1 i h hs ih => omega
  | case2 i h hs hc ih =>
    have := le_scanWhile src (· != 10) (i + 1)
    omega
  | case3 => exact Nat.le_refl _
  | case4 => exact Nat.le_refl _

theorem skip_le (s : SpaceSet) (src : Array UInt8) {i : Nat} (h : i ≤ src.size) :
    s.skip src i ≤ src.size := by
  fun_induction skip s src i with
  | case1 i h hs ih => exact ih (by omega)
  | case2 i h hs hc ih => exact ih (scanWhile_le src _ (by omega))
  | case3 => exact h
  | case4 => exact h

end SpaceSet

end OpTree
