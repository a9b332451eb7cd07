import OpTree.Machine.Run
import OpTree.Op.Splice
import OpTree.Op.Linear

/-!
# Constant folding

A subtree of safe ops is run by the machine itself, so a folded value is what the program would
have computed. Warnings count as failures, and a subtree that fails is left for the run.
-/

namespace OpTree

set_option autoImplicit false

namespace Directive

/-- A percent sign that prints itself. -/
def isPercent (d : Directive) : Bool :=
  d.verb? == some 37 && d.flags.isEmpty && d.width.isEmpty && d.prec.isEmpty

/-- Takes its width or precision from the arguments, or prints in an unusual way. -/
def isIrregular (d : Directive) : Bool := d.star || d.vector || d.verb == 110

end Directive

namespace FormatPart

def directive? : FormatPart → Option Directive
  | directive d => some d
  | text _ => none

end FormatPart

namespace Arena

def dropMark (a : Arena) (ks : List RecId) : List RecId :=
  match ks with
  | [] => []
  | k :: rest => if (a.node k).code = .pushmark then rest else k :: rest

/-- Does a sprintf op have a constant format whose directives take exactly its arguments. -/
def formatFits (a : Arena) (r : RecId) : Bool :=
  match a.dropMark (a.kids r) with
  | [] => false
  | f :: args =>
    let n := a.node f
    let ds := (FormatPart.parse n.val.value.text).filterMap FormatPart.directive?
    let ds := ds.filter fun d => !d.isPercent
    n.code == .const && !ds.any Directive.isIrregular && ds.length == args.length

/-- May the op be tried at all. -/
def mayFold (a : Arena) (r : RecId) : Bool :=
  let n := a.node r
  match n.code with
  | .lc | .uc => !n.priv.has Priv.locale
  | .sprintf => a.formatFits r
  | _ => true

/-- Does the chain from `k` reach `o` through safe ops only. -/
def chainSafe (a : Arena) (o : RecId) : Nat → Option RecId → Bool
  | _, none => false
  | 0, some _ => false
  | fuel + 1, some k =>
    k == o || ((a.node k).code.foldSafe && a.chainSafe o fuel (a.node k).next)

/-- While an op is tried, the compilation stands in a statement of its own and warnings are failures. -/
def trying (a : Arena) : Arena :=
  let file := if a.file.isEmpty then utf8 "(fold)" else a.file
  { a with state := { place? := some (file, 0), hook := .escalate } }

def trialMachine (a : Arena) : Machine :=
  { Machine.bare with
    gimme := .scalar, place? := a.state.place?, hook := a.state.hook, noWarn := !a.tune.warnings }

end Arena

namespace Machine

/-- The one scalar a trial leaves, if it leaves nothing else. -/
def onlyScalar? (m : Machine) : Option Value :=
  if m.height = 1 && m.marks.isEmpty then
    match m.slots.getD 0 .vacant with
    | .scalar (some c) => some (m.heap.cell c).value
    | _ => none
  else none

end Machine

namespace TreeM

/-- Runs the chain from `start` up to `o`, and goes back to the compile state before that. Failures of
the program are answered with `none`; broken invariants and fatal operations are raised. -/
def trial (o : RecId) (start : Option RecId) : TreeM (Option Value) := do
  push
  modify Arena.trying
  setNext o none
  let a ← get
  let outcome := EStateM.run (Exec.run ⟨a.recs, none⟩ a.bound start) a.trialMachine
  pop
  match outcome with
  | .ok _ m => return m.onlyScalar?
  | .error e _ =>
    match e with
    | .broken _ | .fatal _ => throw e
    | _ => return none

/-- Tries to replace a node by the constant it computes. -/
def fold (o : RecId) : TreeM RecId := do
  let a ← get
  let n := a.node o
  if !a.tune.fold || !n.code.foldable || n.next.isSome || !a.mayFold o then return o
  let start ← linearize o
  let a ← get
  if !a.chainSafe o a.bound start then
    float o start
    return o
  let v? ← trial o start
  float o start
  match v? with
  | none => return o
  | some v =>
    let c ← new .const (n.flags &&& (Flags.wantMask ||| Flags.parens))
    update c fun x =>
      { x with val := .scalar v, priv := x.priv ||| Priv.folded, line := n.line }
    freeTree o
    return c

end TreeM

end OpTree
