import OpTree.Listing.Grammar

/-!
# Source files

The texts of all files joined into one, so that a place is a single number. A place belongs to
the last file that begins at or before it.
-/

namespace OpTree

set_option autoImplicit false

structure SourceFile where
  name : Bytes
  base : Nat
  size : Nat
  deriving Repr, DecidableEq

structure Source where
  text : Array UInt8 := #[]
  /-- The last file comes first. -/
  files : List SourceFile := []
  deriving Repr, Inhabited

namespace Source

def addFile (s : Source) (name text : Bytes) : Source :=
  { text := s.text ++ text.toArray
    files := ⟨name, s.text.size, text.length⟩ :: s.files }

def ofFile (name text : Bytes) : Source := ({} : Source).addFile name text

def fileAt? (s : Source) (pos : Int) : Option SourceFile :=
  s.files.find? fun f => (f.base : Int) ≤ pos

/-- The name of the file a place belongs to. -/
def nameAt (s : Source) (pos : Int) : Bytes := ((s.fileAt? pos).map (·.name)).getD []

/-- Line and column, both from one, after reading `bs`. -/
def lineCol (bs : Bytes) : Nat × Nat :=
  let step (p : Nat × Nat) (b : UInt8) : Nat × Nat :=
    if b == 10 then (p.1 + 1, 1) else (p.1, p.2 + 1)
  bs.foldl step (1, 1)

def position (s : Source) (pos : Int) : Nat × Nat :=
  let base := ((s.fileAt? pos).map (·.base)).getD 0
  lineCol (slice s.text base pos.toNat)

def line (s : Source) (pos : Nat) : Nat := (s.position pos).1

structure Forms where
  forms : List Form
  failure? : Option Failure

def placeText (s : Source) (pos : Nat) : Bytes :=
  let (l, c) := s.position pos
  s.nameAt pos ++ [58] ++ Bytes.ofNat l ++ [58] ++ Bytes.ofNat c

/-- Reads forms from `i` to the end; `acc` holds the earlier ones, last first. -/
def readFrom (s : Source) (g : Grammar) (i : Nat) (acc : List Form) : Forms :=
  let st := SpaceSet.all.skip s.text i
  have : i ≤ st := SpaceSet.le_skip SpaceSet.all s.text i
  if _h : st < s.text.size then
    match g.read s.text st with
    | .ok x j =>
      if st < j then s.readFrom g j (x :: acc)
      else ⟨acc.reverse, some (.partialRead st)⟩
    | .fail why _ =>
      if why.isUnfinished || why.isFatal then ⟨acc.reverse, some why⟩
      else ⟨acc.reverse, some (.during (s.placeText st) why)⟩
  else ⟨acc.reverse, none⟩
termination_by s.text.size - i

def read (s : Source) (g : Grammar) : Forms := s.readFrom g 0 []

def forms (s : Source) : Except Failure (List Form) :=
  let r := s.read .form
  match r.failure? with
  | some why => .error why
  | none => .ok r.forms

end Source

end OpTree
