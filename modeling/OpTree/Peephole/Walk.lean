import OpTree.Peephole.Branch
import OpTree.Peephole.Truth
import OpTree.Peephole.Padrange
import OpTree.Peephole.Multideref

/-!
# The walk of the optimizer

Every op that is visited is marked as processed, and a path ends where it meets one that is, so
loops and joins are walked once. Branches wait in a short queue. A full queue has its oldest branch
walked at once in a frame of its own; the others follow after the main path of their frame.
-/

namespace OpTree

set_option autoImplicit false

namespace Peep

/-- What a visit decides: to go on with an op, keeping the visited one in the chain or not, or to
set the branch of the visited op aside. -/
inductive Visit where
  | goOn (next : Option RecId) (keep : Bool)
  | branch

/-- The rules that every op is left with. -/
def visitRest (o : RecId) (prev : Option RecId) (slot : PeepSlot) : Peep Visit := do
  let n ← (TreeM.node o : TreeM Node)
  match n.code with
  | .padav | .padhv | .rv2av | .rv2hv => if !n.flags.has Flags.ref then tagTruth o
  | _ => pure ()
  let fusable : Bool := match n.code with
    | .padav | .padhv | .padsv | .gv => true
    | _ => false
  if fusable && (← (get : TreeM Arena)).tune.mderef then
    match ← multideref? o prev slot with
    | some top => return .goOn (some top) false
    | none => pure ()
  return .goOn (← (TreeM.node o : TreeM Node)).next true

def visit (o : RecId) (prev : Option RecId) (slot : PeepSlot) : Peep Visit := do
  let n ← (TreeM.node o : TreeM Node)
  match n.code with
  | .null | .scalar | .lineseq | .scope =>
    relink prev slot n.next
    noteChange "elide"
    return .goOn n.next false
  | .nextstate => modify fun p => { p with statement? := some o }
  | .const =>
    if let some (next, keep) ← constBranch? o prev slot then return .goOn next keep
  | .not =>
    if let some l ← notBranch? o prev slot then return .goOn (some l) false
  | .pushmark =>
    if let some next ← tailReturn? o prev slot then return .goOn next false
    padrange o
  | .and | .or | .dor =>
    threadBranch o
    return .branch
  | .condExpr =>
    skipNulls (.other o)
    return .branch
  | .enteriter => loopBounds o
  | .aelem => constIndex o
  | .length => tagTruth o
  | _ => pure ()
  visitRest o prev slot

def queueSize (t : Tuning) : Nat := max t.deferQueue.toNat 1

mutual

/-- Walks the chain on a slot and then all branches that are set aside in this frame. -/
def walk : Nat → PeepSlot → Peep Unit
  | 0, _ => (TreeM.fatal : TreeM Unit)
  | fuel + 1, slot => do
    if !Memory.holds 8 (← (get : TreeM Arena)).tune.deferQueue then (TreeM.fatal : TreeM Unit)
    modify fun p =>
      { p with depth := p.depth + 1,
               stats := { p.stats with maxDepth := max p.stats.maxDepth (p.depth + 1) } }
    let q ← chain fuel slot []
    drain fuel q
    modify fun p => { p with depth := p.depth - 1 }

/-- Walks the branches of a queue, oldest first. -/
def drain : Nat → List PeepSlot → Peep Unit
  | _, [] => pure ()
  | 0, _ :: _ => (TreeM.fatal : TreeM Unit)
  | fuel + 1, slot :: q => do
    if (← get).failure?.isSome then return
    drain fuel (← chain fuel slot q)

/-- Walks one path and answers with the queue it leaves. -/
def chain : Nat → PeepSlot → List PeepSlot → Peep (List PeepSlot)
  | 0, _, _ => (TreeM.fatal : TreeM (List PeepSlot))
  | fuel + 1, slot, q => do
    let q ← follow fuel slot none (← readSlot slot) q
    skipNulls slot
    return q

/-- Visits the ops from `o` on. -/
def follow : Nat → PeepSlot → Option RecId → Option RecId → List PeepSlot → Peep (List PeepSlot)
  | _, _, _, none, q => return q
  | 0, _, _, some _, _ => (TreeM.fatal : TreeM (List PeepSlot))
  | fuel + 1, slot, prev, some o, q => do
    if (← (TreeM.node o : TreeM Node)).processed || (← get).failure?.isSome then return q
    TreeM.update o fun n => { n with processed := true }
    modify fun p => { p with stats := { p.stats with visited := p.stats.visited + 1 } }
    match ← visit o prev slot with
    | .goOn next keep => follow fuel slot (if keep then some o else prev) next q
    | .branch =>
      let q ← setAside fuel (.other o) q
      follow fuel slot (some o) (← (TreeM.node o : TreeM Node)).next q

/-- Puts a branch into the queue. If the queue is full its oldest branch is walked first. -/
def setAside : Nat → PeepSlot → List PeepSlot → Peep (List PeepSlot)
  | 0, _, _ => (TreeM.fatal : TreeM (List PeepSlot))
  | fuel + 1, slot, q => do
    if (← readSlot slot).isNone then return q
    modify fun p => { p with stats := { p.stats with deferred := p.stats.deferred + 1 } }
    match q with
    | old :: rest =>
      if queueSize (← (get : TreeM Arena)).tune ≤ q.length then
        walk fuel old
        return rest ++ [slot]
      else return q ++ [slot]
    | [] => return [slot]

end

end Peep

/-- What an optimization answers: the new start, its statistics and a failure. -/
structure Optimized where
  start : Option RecId
  stats : PeepStats
  failure? : Option Failure

namespace TreeM

/-- Walks the order of execution from `start` and improves it in place. -/
def optimize (start : Option RecId) : TreeM Optimized := do
  let fuel := 8 * (← get).bound + 8
  let ((), p) ← (Peep.walk fuel .start).run { start := start }
  return ⟨p.start, p.stats, p.failure?⟩

end TreeM

end OpTree
