import OpTree.Text.Bytes

/-!
# Forms

The syntax nodes of a listing. A form remembers the half-open byte range it was read from; the
text of an atom, a variable or a number is that range of the source.
-/

namespace OpTree

set_option autoImplicit false

inductive Form where
  | list (pos stop : Nat) (items : List Form)
  /-- A bare word: an op name, a modifier or a label with its colon. -/
  | atom (pos stop : Nat)
  /-- A name with a sigil. -/
  | var (pos stop : Nat)
  | int (pos stop : Nat)
  | float (pos stop : Nat)
  | str (pos stop : Nat) (val : Bytes)
  /-- A fixed text matched by a custom grammar. -/
  | fixed (text : Bytes)
  /-- An identifier matched on its own by a custom grammar. -/
  | word (text : Bytes)
  deriving Repr, Inhabited

/-- The bytes from `pos` up to `stop`. -/
def slice (src : Array UInt8) (pos stop : Nat) : Bytes := (src.extract pos stop).toList

namespace Form

def span? : Form → Option (Nat × Nat)
  | list p s _ | atom p s | var p s | int p s | float p s | str p s _ => some (p, s)
  | fixed _ | word _ => none

def head (src : Array UInt8) : Form → Bytes
  | list _ _ (atom p s :: _) => slice src p s
  | _ => []

def isListOf (src : Array UInt8) (name : Bytes) : Form → Bool
  | f@(list ..) => f.head src == name
  | _ => false

end Form

end OpTree
