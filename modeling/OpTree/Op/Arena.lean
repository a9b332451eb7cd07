import OpTree.Op.Node
import OpTree.Op.Pad
import OpTree.Tuning
import OpTree.Failure
import OpTree.Memory

/-!
# Arenas

All records of one unit, with the slab group they are carved from and the compile state of the
unit. `TreeM` is the monad in which trees are built: a failure keeps the arena as it was left.
-/

namespace OpTree

set_option autoImplicit false

structure Slab where
  units : Int
  used : Int
  /-- How many records were carved. -/
  count : Nat
  deriving Repr, DecidableEq, Inhabited

/-- The slabs of a unit. Freed records form a list threaded through `next`. -/
structure Group where
  /-- The last slab comes first. -/
  slabs : List Slab := []
  free : Option RecId := none
  freeCount : Int := 0
  /-- Units in all slabs. -/
  total : Int := 0
  live : Int := 0
  liveUnits : Int := 0
  refs : Int := 1
  released : Bool := false
  tune : Tuning := {}
  deriving Repr, DecidableEq, Inhabited

/-- The statement a compilation stands in, by file and line, and what happens to its warnings. -/
structure CompileState where
  place? : Option (Bytes × Int) := none
  hook : WarnHook := .record
  deriving Inhabited

structure Arena where
  recs : Array Node := #[]
  /-- Without a group all records are static. -/
  group? : Option Group := none
  pad : Pad := {}
  tune : Tuning := {}
  file : Bytes := []
  /-- The last id given to a node. -/
  seq : Nat := 0
  state : CompileState := {}
  /-- The compile states that are saved, last first. -/
  saved : List CompileState := []
  deriving Inhabited

abbrev TreeM := EStateM Failure Arena

namespace Arena

/-- An arena with an empty group. -/
def ofTuning (file : Bytes) (t : Tuning) : Arena :=
  { group? := some { tune := t.withDefaults }, tune := t, file := file }

def node (a : Arena) (r : RecId) : Node := a.recs.getD r default

def update (a : Arena) (r : RecId) (f : Node → Node) : Arena :=
  { a with recs := a.recs.modify r f }

/-- How many compile states are saved. -/
def depth (a : Arena) : Nat := a.saved.length

/-- A bound for walks that meet each record once. -/
def bound (a : Arena) : Nat := a.recs.size + 1

/-- The chain of siblings from `k` on. -/
def siblingsFrom (a : Arena) : Nat → Option RecId → List RecId
  | _, none => []
  | 0, some _ => []
  | fuel + 1, some k => k :: a.siblingsFrom fuel (a.node k).sibling?

def kids (a : Arena) (r : RecId) : List RecId := a.siblingsFrom a.bound (a.node r).first

def kid? (a : Arena) (r : RecId) (i : Int) : Option RecId := (a.kids r)[i.toNat]?

def lastSibling (a : Arena) (k : RecId) : RecId :=
  (a.siblingsFrom a.bound (some k)).getLastD k

/-- The parent, found through the last sibling. -/
def parent? (a : Arena) (r : RecId) : Option RecId := (a.node (a.lastSibling r)).sib.target

/-- The last kid, tracked or found by walking. -/
def last? (a : Arena) (r : RecId) : Option RecId :=
  let n := a.node r
  if n.opClass.tracksLast then n.last else n.first.map a.lastSibling

/-- The kid of `parent` before `k`; all kids come before one that is not there. -/
def prevOf? (a : Arena) (parent : RecId) (k : Option RecId) : Option RecId :=
  ((a.kids parent).takeWhile fun x => some x != k).getLast?

end Arena

namespace TreeM

variable {α : Type}

def node (r : RecId) : TreeM Node := do return (← get).node r

def update (r : RecId) (f : Node → Node) : TreeM Unit := modify fun a => a.update r f

def kids (r : RecId) : TreeM (List RecId) := do return (← get).kids r

def kid? (r : RecId) (i : Int) : TreeM (Option RecId) := do return (← get).kid? r i

def parent? (r : RecId) : TreeM (Option RecId) := do return (← get).parent? r

def broken (msg : Bytes) : TreeM α := throw (.broken msg)

/-- Raised where a node is needed and there is none. -/
def fatal : TreeM α := throw (.fatal none)

def need (r : Option RecId) : TreeM RecId :=
  match r with
  | some r => pure r
  | none => fatal

def setNext (r : RecId) (next : Option RecId) : TreeM Unit :=
  update r fun n => { n with next := next, real := true }

/-- Makes a node the root of a floating subtree that starts at `start`. -/
def float (r : RecId) (start : Option RecId) : TreeM Unit :=
  update r fun n => { n with next := start, real := false }

/-- Where the floating subtree under a node starts. -/
def start (r : RecId) : TreeM (Option RecId) := do
  let n ← node r
  if n.real then broken (utf8 "start of embedded op " ++ n.tag)
  else return n.next

def setWant (r : RecId) (w : Want) : TreeM Unit := update r (·.withWant w)

def neutralize (r : RecId) : TreeM Unit := update r Node.neutralized

/-- Changes the opcode in place and puts the link to the last kid right for the new class. -/
def retype (r : RecId) (t : Opcode) : TreeM Unit := do
  let last := (← kids r).getLast?
  update r fun n => { n with code := t, last := if t.tracksLast then last else none }

def push : TreeM Unit := modify fun a => { a with saved := a.state :: a.saved }

def pop : TreeM Unit := do
  match (← get).saved with
  | [] => broken (utf8 "state snapshot stack underflow")
  | s :: rest => modify fun a => { a with state := s, saved := rest }

def addPad (name : Bytes) (shape : Int) : TreeM Nat :=
  modifyGet fun a => let (i, p) := a.pad.add name shape; (i, { a with pad := p })

end TreeM

end OpTree
