import OpTree.Op.Splice

/-!
# The state of the optimizer

The optimizer walks the order of execution and changes it in place. A chain of ops hangs on a slot:
the start of the unit, or the second successor of a branching op.
-/

namespace OpTree

set_option autoImplicit false

/-- What an optimization did. -/
structure PeepStats where
  visited : Int := 0
  deferred : Int := 0
  maxDepth : Int := 0
  /-- How often each kind of change was made, in the order of first use. -/
  changes : List (Bytes × Int) := []
  deriving Repr, DecidableEq, Inhabited

namespace PeepStats

def bump (kind : Bytes) : List (Bytes × Int) → List (Bytes × Int)
  | [] => [(kind, 1)]
  | (k, n) :: rest => if k == kind then (k, n + 1) :: rest else (k, n) :: bump kind rest

def count (s : PeepStats) (kind : Bytes) : PeepStats :=
  { s with changes := bump kind s.changes }

end PeepStats

/-- Where a chain hangs. -/
inductive PeepSlot where
  | start
  | other (r : RecId)
  deriving Repr, DecidableEq, Inhabited

structure PeepState where
  start : Option RecId
  /-- The last statement that was visited. -/
  statement? : Option RecId := none
  depth : Nat := 0
  stats : PeepStats := {}
  failure? : Option Failure := none
  deriving Inhabited

abbrev Peep := StateT PeepState TreeM

namespace Peep

def readSlot : PeepSlot → Peep (Option RecId)
  | .start => do return (← get).start
  | .other r => do return (← TreeM.node r).other

def writeSlot (s : PeepSlot) (dest : Option RecId) : Peep Unit :=
  match s with
  | .start => modify fun p => { p with start := dest }
  | .other r => TreeM.update r fun n => { n with other := dest }

def noteChange (kind : String) : Peep Unit :=
  modify fun p => { p with stats := p.stats.count (utf8 kind) }

/-- Makes `dest` the successor of `prev`, or the head of the chain if there is none. -/
def relink (prev : Option RecId) (s : PeepSlot) (dest : Option RecId) : Peep Unit :=
  match prev with
  | none => writeSlot s dest
  | some p => TreeM.setNext p dest

def firstSolid (a : Arena) : Nat → Option RecId → Option RecId
  | _, none => none
  | 0, some r => some r
  | fuel + 1, some r => if (a.node r).transparent then firstSolid a fuel (a.node r).next else some r

def skipNulls (s : PeepSlot) : Peep Unit := do
  let a ← (get : TreeM Arena)
  let head ← readSlot s
  let solid := firstSolid a a.bound head
  if solid ≠ head then writeSlot s solid

/-- Keeps the first failure. -/
def fail (why : Failure) : Peep Unit :=
  modify fun p => { p with failure? := p.failure?.or (some why) }

/-- A complaint that names the statement being visited. -/
def complaint (msg : Bytes) : Peep Failure := do
  match (← get).statement? with
  | none => return .plain msg
  | some r =>
    let n ← (TreeM.node r : TreeM Node)
    if n.file.isEmpty then return .plain msg
    else return .plain (msg ++ utf8 " at " ++ n.file ++ utf8 " line " ++ Bytes.ofInt n.line ++
      utf8 ".")

end Peep

end OpTree
