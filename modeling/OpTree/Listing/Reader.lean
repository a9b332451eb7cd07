import OpTree.Listing.Token
import OpTree.Text.Quoted

/-!
# Reading forms

The grammar of listings: a form is a list, a string, a number, a variable or an atom. The
alternatives are tried in this order; one that fails without moving is forgotten, and of those
that moved the first one explains the failure.
-/

namespace OpTree

set_option autoImplicit false

namespace Reading

/-- Takes the first success, else the first failure that moved away from `st`, else `otherwise`.
Each reading comes with the name of its reader. -/
def firstOf (st : Nat) (otherwise : Bytes) (kept : Option (Failure × Nat)) :
    List (Bytes × Reading) → Reading
  | [] =>
    match kept with
    | some (why, i) => .fail why i
    | none => .fail (.plain otherwise) st
  | (name, r) :: rest =>
    match r with
    | .ok x j => .ok x j
    | .fail why j =>
      if why.isFatal then .fail why j
      else if j = st || kept.isSome then firstOf st otherwise kept rest
      else firstOf st otherwise (some (.during name why, j)) rest

/-- A failure of the inner reader of a bracketing one: not having moved since `inner` counts as
not having moved since `st`. -/
def inside (st inner : Nat) (what : Bytes) : Reading → Reading
  | .ok x j => .ok x j
  | .fail why j => .fail (.during what why) (if j = inner then st else j)

end Reading

namespace Listing

def unexpectedByte (b : UInt8) : Failure := .plain (utf8 "unexpected " ++ Quoted.rune b.toNat)

def itemFailure (n : Nat) (why : Failure) : Failure :=
  if why.isUnfinished || why.isFatal then why
  else .during (utf8 "item " ++ Bytes.ofNat n) why

def formReaders : List Bytes :=
  [utf8 "parse.List", utf8 "parse.Str", utf8 "parse.Num", utf8 "parse.Var", utf8 "parse.Atom"]

def formExpected : Bytes :=
  utf8 "expected parse.List, parse.Str, parse.Num, parse.Var or parse.Atom"

def openExpected : Failure := .during (utf8 "pre") (.plain (utf8 "\"(\" expected"))

mutual

def form (src : Array UInt8) (st : Nat) : Reading :=
  if src.size < st then .beyondEnd st
  else Reading.firstOf st formExpected none
    (formReaders.zip
      [list src st, Token.str src st, Token.num src st, Token.var src st, Token.atom src st])
termination_by 3 * (src.size - st) + 1

def list (src : Array UInt8) (st : Nat) : Reading :=
  if h : st < src.size then
    if src[st] == 40 then
      match Reading.inside st (st + 1) (utf8 "of") (items src (st + 1) (st + 1) []) with
      | .ok (.list _ _ xs) j => .ok (.list st (j + 1) xs) (j + 1)
      | r => r
    else .fail openExpected st
  else if st = src.size then .fail openExpected st
  else .beyondEnd st
termination_by 3 * (src.size - st)

/-- The forms up to a closing parenthesis, which is left unread. They began at `st`; `acc` holds
those before `i`, last first. -/
def items (src : Array UInt8) (st i : Nat) (acc : List Form) : Reading :=
  let j := SpaceSet.all.skip src i
  have hij : i ≤ j := SpaceSet.le_skip SpaceSet.all src i
  if h : j < src.size then
    if src[j] == 41 then .ok (.list 0 0 acc.reverse) j
    else match form src j with
      | .ok x k =>
        if j < k then items src st k (x :: acc) else .fail (unexpectedByte src[j]) j
      | .fail why k => .fail (itemFailure acc.length why) k
  else .fail (.unfinished ((st : Int) - 1)) j
termination_by 3 * (src.size - i) + 2
decreasing_by
  all_goals
    have := SpaceSet.le_skip SpaceSet.all src i
    omega

end

end Listing

end OpTree
