import OpTree.Build.Assemble
import OpTree.Peephole.Walk
import OpTree.Check
import OpTree.Machine.Run

/-!
# Units

A unit is one sub on its way from a tree to something that runs. Finishing a unit fixes up its
tree, threads the order of execution, optimizes it and checks the result. A unit that cannot be
finished loses all its ops.
-/

namespace OpTree

set_option autoImplicit false

structure SubUnit where
  name : Bytes
  arena : Arena
  root : Option RecId := none
  start : Option RecId := none
  /-- How deep the sub is nested in others. -/
  depth : Nat := 0
  /-- Its place in the order of the listing. -/
  seq : Nat := 0
  stats : PeepStats := {}
  finished : Bool := false
  deriving Inhabited

namespace TreeM

/-- Statements are void unless something else is known; the last one of a sub is its value. -/
def voidStatements (keep : Option RecId) : List RecId → TreeM Unit
  | [] => pure ()
  | k :: ks => do
    let n ← node k
    if n.code ≠ .nextstate && some k ≠ keep && n.want = .unknown then Build.void k
    voidStatements keep ks

def fixup (r : RecId) : TreeM Unit := do
  let n ← node r
  match n.code with
  | .nextstate =>
    if n.file.isEmpty then
      let file := (← get).file
      update r fun n => { n with file := file }
  | .lineseq =>
    let a ← get
    let tail := (a.parent? r).any fun p => (a.node p).code = .leavesub
    voidStatements (if tail then a.last? r else none) (a.kids r)
  | _ => pure ()

def fixupStack : Nat → List RecId → TreeM Unit
  | _, [] => pure ()
  | 0, _ :: _ => fatal
  | fuel + 1, r :: stack => do
    fixup r
    fixupStack fuel ((← kids r).reverse ++ stack)

/-- Prepares a tree for threading. -/
def fixups (root : RecId) : TreeM Unit := do
  let b := (← get).bound
  fixupStack (b * b) [root]

/-- Fixes up the tree under `root`, threads it and optimizes the chain. -/
def thread (root : RecId) : TreeM Optimized := do
  fixups root
  let start ← linearize root
  setNext root none
  optimize start

end TreeM

abbrev UnitM := EStateM Failure SubUnit

namespace SubUnit

def new (name : Bytes) (t : Tuning) : SubUnit := { name := name, arena := .ofTuning name t }

def onArena {α : Type} (x : TreeM α) : UnitM α := fun u =>
  match x u.arena with
  | .ok v a => .ok v { u with arena := a }
  | .error why a => .error why { u with arena := a }

/-- Works on the arena; a broken invariant becomes an answer. -/
def guarded {α : Type} (x : TreeM α) : UnitM (Except Failure α) := fun u =>
  match x u.arena with
  | .ok v a => .ok (.ok v) { u with arena := a }
  | .error why a =>
    if why.isFatal then .error why { u with arena := a }
    else .ok (.error why) { u with arena := a }

/-- Applies `free` to a group that is still held, and forgets the tree. -/
def dropWith (free : TreeM Unit) : UnitM Unit := do
  match (← get).arena.group? with
  | some g => if !g.released then onArena free
  | none => pure ()
  modify fun u => { u with root := none, start := none }

/-- Frees whatever was built. -/
def abort : UnitM Unit := dropWith TreeM.forceFreeAll

def free : UnitM Unit := dropWith TreeM.freeGroup

/-- The last step of finishing: the optimized chain becomes the start of the unit. -/
def conclude (root : RecId) (opt : Optimized) : UnitM (Option Failure) := do
  modify fun u => { u with stats := opt.stats }
  match opt.failure? with
  | some why => return some (.during (utf8 "optimize") why)
  | none =>
    match ← guarded (TreeM.check root) with
    | .error why => return some why
    | .ok () =>
      modify fun u => { u with start := opt.start, finished := true }
      if (← get).arena.group?.isNone then throw (.fatal none)
      return none

/-- Finishes a unit that is not cleaned up after a failure. -/
def tryFinish : UnitM (Option Failure) := do
  let u ← get
  if u.finished then
    return some (.plain (utf8 "unit " ++ u.name ++ utf8 " finished twice"))
  match u.root with
  | none => return some (.plain (utf8 "unit " ++ u.name ++ utf8 ": no root"))
  | some root =>
    let code := (u.arena.node root).code
    if code ≠ .leavesub then
      return some (.broken (utf8 "unit root is " ++ code.nameBytes))
    match ← guarded (TreeM.thread root) with
    | .error why => return some why
    | .ok opt => conclude root opt

/-- Makes a unit ready to run, or answers with what went wrong and frees its ops. -/
def finish : UnitM (Option Failure) := do
  let why? ← tryFinish
  if why?.isSome then abort
  return why?

/-- What a run of the unit reads. -/
def code (u : SubUnit) : Code := ⟨u.arena.recs, some u.arena.pad⟩

/-- A machine for the unit; fatal if memory does not hold the arrays of the pad. -/
def machine : UnitM Machine := do
  let u ← get
  match Machine.ofPadOn? u.code.heap u.arena.pad with
  | some m => return { m with noWarn := !u.arena.tune.warnings, kept := u.code.kept }
  | none => throw (.fatal none)

def run (u : SubUnit) (fuel : Nat) (gimme : Want) : Exec (List Value) :=
  if u.finished then Exec.runSub u.code fuel u.start u.root gimme
  else throw (.plain (utf8 "unit " ++ u.name ++ utf8 " is not finished"))

end SubUnit

end OpTree
