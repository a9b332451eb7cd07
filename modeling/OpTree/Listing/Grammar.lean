import OpTree.Listing.Reader

/-!
# Grammars

Readers put together from smaller ones. The grammar of listings is `Grammar.form`; the others
serve callers that read something else with the same tokens.
-/

namespace OpTree

set_option autoImplicit false

inductive Grammar where
  | form
  | list
  | str
  | num
  | var
  | atom
  | ident
  /-- Exactly this text. -/
  | fixed (text : Bytes)
  /-- Items up to a closing parenthesis, which is left unread. -/
  | items (of : Grammar)
  | anyOf (gs : List Grammar)
  /-- A grammar between two others whose forms are dropped. -/
  | bracketed (pre : Option Grammar) (of : Grammar) (post : Option Grammar)
  /-- A grammar after blanks. -/
  | spaced (of : Grammar) (set : SpaceSet)
  deriving Repr, Inhabited

namespace Grammar

/-- What failures call the reader. -/
def name : Grammar → Bytes
  | form => utf8 "parse.Form"
  | list => utf8 "parse.List"
  | str => utf8 "parse.Str"
  | num => utf8 "parse.Num"
  | var => utf8 "parse.Var"
  | atom => utf8 "parse.Atom"
  | ident => utf8 "parse.Ident"
  | fixed _ => utf8 "parse.Const"
  | items _ => utf8 "parse.Items"
  | anyOf _ => utf8 "parse.AnyOf"
  | bracketed .. => utf8 "parse.Context"
  | spaced .. => utf8 "parse.Spacer"

/-- Names of alternatives as a phrase: `a, b or c`. -/
def alternatives : List Bytes → Bytes
  | [] => utf8 "<none>"
  | [a] => a
  | a :: b :: r => (a :: b :: r).dropLast |> Bytes.intercalate (utf8 ", ") |>
      (· ++ utf8 " or " ++ ((a :: b :: r).getLast?.getD []))

def readFixed (text : Bytes) (src : Array UInt8) (st : Nat) : Reading :=
  if src.size < st then .beyondEnd st
  else
    let stop := st + text.length
    if slice src st stop == text then .ok (.fixed text) stop
    else .fail (.plain (Quoted.text text ++ utf8 " expected")) st

/-- The items from `i` on, read by `one`. -/
def readItems (one : Nat → Reading) (src : Array UInt8) (st i : Nat) (acc : List Form) : Reading :=
  let j := SpaceSet.all.skip src i
  have hij : i ≤ j := SpaceSet.le_skip SpaceSet.all src i
  if h : j < src.size then
    if src[j] == 41 then .ok (.list 0 0 acc.reverse) j
    else match one j with
      | .ok x k =>
        if j < k then readItems one src st k (x :: acc) else .fail (Listing.unexpectedByte src[j]) j
      | .fail why k => .fail (Listing.itemFailure acc.length why) k
  else if j = src.size then .fail (.unfinished ((st : Int) - 1)) j
  else .beyondEnd j
termination_by src.size - i

/-- Runs `post` after a success and keeps its form. -/
def closeWith (post : Option (Nat → Reading)) : Reading → Reading
  | .ok x i =>
    match post with
    | none => .ok x i
    | some p =>
      match p i with
      | .ok _ j => .ok x j
      | .fail why j => .fail (.during (utf8 "post") why) j
  | r => r

mutual

def read (src : Array UInt8) : Grammar → Nat → Reading
  | form, st => Listing.form src st
  | list, st => Listing.list src st
  | str, st => Token.str src st
  | num, st => Token.num src st
  | var, st => Token.var src st
  | atom, st => Token.atom src st
  | ident, st => Token.ident src st
  | fixed text, st => readFixed text src st
  | items g, st => readItems (read src g) src st st []
  | anyOf gs, st =>
    Reading.firstOf st (utf8 "expected " ++ alternatives (gs.map name)) none
      ((gs.map name).zip (readAll src gs st))
  | bracketed pre g post, st =>
    let first := match pre with
      | none => Reading.ok (.fixed []) st
      | some p => read src p st
    match first with
    | .fail why i => .fail (.during (utf8 "pre") why) i
    | .ok _ i =>
      closeWith (match post with | none => none | some p => some (read src p))
        (Reading.inside st i (utf8 "of") (read src g i))
  | spaced g set, st =>
    let i := set.skip src st
    Reading.inside st i g.name (read src g i)

/-- The readings of all alternatives at `st`. -/
def readAll (src : Array UInt8) : List Grammar → Nat → List Reading
  | [], _ => []
  | g :: gs, st => read src g st :: readAll src gs st

end

end Grammar

end OpTree
