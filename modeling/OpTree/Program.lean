import OpTree.SubUnit

/-!
# Programs

All units of a listing. A nested sub comes right after the sub around it. Inner units are finished
before outer ones, and units of one depth in the order of the listing; if one of them fails, all
are dropped.
-/

namespace OpTree

set_option autoImplicit false

structure Program where
  name : Bytes
  tune : Tuning := {}
  units : Array SubUnit := #[]
  deriving Inhabited

abbrev ProgramM := EStateM Failure Program

namespace Program

def new (name : Bytes) (t : Tuning) : Program := { name := name, tune := t.withDefaults }

def unit? (p : Program) (name : Bytes) : Option SubUnit := p.units.find? (·.name == name)

def addUnit (name : Bytes) (depth : Nat) : ProgramM Nat :=
  modifyGet fun p =>
    let seq := p.units.size
    let u := { SubUnit.new p.name p.tune with name := name, depth := depth, seq := seq }
    (seq, { p with units := p.units.push u })

def onUnit {α : Type} [Inhabited α] (i : Nat) (x : UnitM α) : ProgramM α := fun p =>
  match p.units[i]? with
  | none => .ok default p
  | some u =>
    match x u with
    | .ok v u => .ok v { p with units := p.units.setIfInBounds i u }
    | .error why u => .error why { p with units := p.units.setIfInBounds i u }

def assembleUnit (src : Source) (s : Sub) : UnitM Unit := do
  let root ← SubUnit.onArena (TreeM.assemble src s)
  modify fun u => { u with root := some root }

mutual

/-- Builds a sub and the subs nested in it. -/
def assembleSub (src : Source) (depth : Nat) : Sub → ProgramM Unit
  | s@(.mk name _ subs) => do
    let i ← addUnit name depth
    tryCatch (onUnit i (assembleUnit src s)) fun why =>
      throw (.during (utf8 "sub " ++ name) why)
    assembleSubs src (depth + 1) subs

def assembleSubs (src : Source) (depth : Nat) : List Sub → ProgramM Unit
  | [] => pure ()
  | s :: rest => do
    assembleSub src depth s
    assembleSubs src depth rest

end

/-- Does unit `u` come before unit `v` when units are finished. -/
def finishesBefore (u v : SubUnit) : Bool :=
  decide (v.depth < u.depth) || (u.depth == v.depth && decide (u.seq ≤ v.seq))

/-- The numbers of the units that are not finished, in the order in which they will be. -/
def finishOrder (p : Program) : List Nat :=
  let pending := (List.range p.units.size).filter fun i => !(p.units.getD i default).finished
  pending.mergeSort fun i j => finishesBefore (p.units.getD i default) (p.units.getD j default)

def forUnits (x : SubUnit → UnitM Unit) : List Nat → ProgramM Unit
  | [] => pure ()
  | i :: rest => do
    onUnit i fun u => x u u
    forUnits x rest

def abort : ProgramM Unit := do
  forUnits (fun _ => SubUnit.abort) (List.range (← get).units.size)

def free : ProgramM Unit := do
  forUnits (fun u => if u.finished then SubUnit.free else SubUnit.abort)
    (List.range (← get).units.size)

def finishAll : List Nat → ProgramM (Option Failure)
  | [] => return none
  | i :: rest => do
    match ← onUnit i SubUnit.finish with
    | none => finishAll rest
    | some why =>
      let name := ((← get).units.getD i default).name
      abort
      return some (.during (utf8 "unit " ++ name) why)

/-- Finishes all units, or answers with the first failure and drops them. -/
def finish : ProgramM (Option Failure) := do finishAll (← get).finishOrder

/-- Builds and finishes every sub of a listing. -/
def build (src : Source) (subs : List Sub) : ProgramM Unit := do
  tryCatch (assembleSubs src 0 subs) fun why => do
    abort
    throw (.during (utf8 "assemble") why)
  match ← finish with
  | some why => throw (.during (utf8 "finish") why)
  | none => pure ()

def compile (name text : Bytes) (t : Tuning) : Except Failure Program :=
  let src := Source.ofFile name text
  match Sub.readAll src with
  | .error why => .error (.during (utf8 "parse listing") why)
  | .ok subs =>
    match build src subs (new name t) with
    | .ok () p => .ok p
    | .error why _ => .error why

end Program

end OpTree
