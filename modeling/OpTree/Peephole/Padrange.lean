import OpTree.Peephole.State

/-!
# Runs of declarations

A void list of declarations of neighbouring slots becomes one op that introduces them all, and
following statements of the same form are merged into it.
-/

namespace OpTree

set_option autoImplicit false

/-- A list of declarations: its list op, its first slot and how many there are. -/
structure IntroRun where
  list : RecId
  targ : Int
  count : Int
  /-- The declaring ops in order. -/
  ops : List RecId

namespace Peep

/-- Is it a declaration in `list` of the slot that comes next. -/
def declares (a : Arena) (list k : RecId) : Bool :=
  let n := a.node k
  (n.code == .padsv || n.code == .padav || n.code == .padhv) && n.priv.has Priv.intro &&
    a.parent? k == some list && !n.flags.has Flags.ref

/-- The declarations from `k` on up to the list op. -/
def introOps? (a : Arena) (list : RecId) : Nat → Option RecId → Option (List RecId)
  | _, none => none
  | 0, some _ => none
  | fuel + 1, some k =>
    if k = list then some []
    else if declares a list k then (introOps? a list fuel (a.node k).next).map (k :: ·)
    else none

/-- Do the ops declare neighbouring slots from `targ` on. -/
def neighbours (a : Arena) (targ : Int) : List RecId → Bool
  | [] => true
  | k :: ks => (a.node k).targ == targ && neighbours a (Pad.slotAfter targ 1) ks

/-- Matches a pushmark followed by declarations that fill a void list. -/
def introRun? (a : Arena) (pm : RecId) : Option IntroRun := do
  let list ← a.parent? pm
  let n := a.node list
  guard (n.code = .list && n.want = .void && n.first = some pm)
  let ops ← introOps? a list a.bound (a.node pm).next
  let targ := match ops with
    | k :: _ => (a.node k).targ
    | [] => 0
  guard (neighbours a targ ops)
  return ⟨list, targ, ops.length, ops⟩

/-- The next list of declarations after `list`, with its statement and its pushmark. -/
def nextRun? (a : Arena) (list : RecId) : Option (RecId × RecId × IntroRun) := do
  let ns ← (a.node list).next
  let n := a.node ns
  guard (n.code = .nextstate && n.label.isEmpty)
  let pm ← n.next
  guard ((a.node pm).code = .pushmark && !(a.node pm).processed)
  let run ← introRun? a pm
  return (ns, pm, run)

/-- Merges following lists of declarations into the op `pm`. -/
def mergeRuns (pm list : RecId) : Nat → Peep Unit
  | 0 => pure ()
  | fuel + 1 => do
    let a ← (get : TreeM Arena)
    match nextRun? a list with
    | none => return
    | some (ns, pm2, run) =>
      let n := a.node pm
      if run.targ ≠ Pad.slotAfter n.targ n.count ||
          a.tune.padrangeMax < n.count + run.count then return
      (pm2 :: run.ops ++ [run.list]).forM fun k => TreeM.neutralize k
      TreeM.update pm fun n => { n with count := n.count + run.count }
      TreeM.setNext ns (a.node run.list).next
      noteChange "padrange_merge"
      mergeRuns pm list fuel

/-- Turns a pushmark with its declarations into one op. -/
def padrange (pm : RecId) : Peep Unit := do
  let a ← (get : TreeM Arena)
  match introRun? a pm with
  | none => return
  | some run =>
    if run.count < 2 || a.tune.padrangeMax < run.count then return
    run.ops.forM fun k => TreeM.neutralize k
    TreeM.retype pm .padrange
    TreeM.update pm fun n =>
      { n.withWant .void with
        targ := run.targ, count := run.count, priv := n.priv ||| Priv.intro }
    TreeM.setNext pm (some run.list)
    noteChange "padrange"
    mergeRuns pm run.list a.bound

end Peep

end OpTree
