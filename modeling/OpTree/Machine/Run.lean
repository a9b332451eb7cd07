import OpTree.Machine.PathWalk
import OpTree.Machine.Control

/-!
# Running

One step executes one op and answers with the next one. A run goes on until there is none.
-/

namespace OpTree

set_option autoImplicit false

/-- What a run reads: the nodes of the unit and the names of its pad. -/
structure Code where
  recs : Array Node
  names? : Option Pad

namespace Code

def node (c : Code) (r : RecId) : Node := c.recs.getD r default

/-- The cell for the value of an op: they come after those of the two truth values. -/
def valueCell (r : RecId) : CellId := r + 2

/-- A heap with a cell for the value of every op, before any machine is made on it. -/
def heap (c : Code) : Heap :=
  { cells := Machine.initialHeap.cells ++ c.recs.map fun o => ⟨o.val.value, true⟩ }

/-- The cell of the const op with an id. -/
def kept (c : Code) (id : Nat) : Option CellId :=
  (c.recs.findIdx? fun o => o.code == .const && o.id == id).map valueCell

end Code

namespace Exec

def step (names? : Option Pad) (o : Node) : Exec (Option RecId) := do
  let go (x : Exec Unit) : Exec (Option RecId) := do
    x
    return o.next
  match o.code with
  | .null | .scalar | .lineseq | .scope => return o.next
  | .freed =>
    broken (utf8 "freed op #" ++ Bytes.ofNat o.id ++ utf8 " (ex-" ++ o.ex.nameBytes ++
      utf8 ") executed")
  | .stub => go (stub o)
  | .pushmark => go pushMark
  | .const => go (constant o)
  | .list => go (listItems o)
  | .padsv => go (padScalar o)
  | .padav => go (padArray names? o)
  | .padhv => go (padHash names? o)
  | .padrange => go (padRange names? o)
  | .gv => go do push (.glob (← global o.name))
  | .rv2sv => go derefScalar
  | .rv2av => go (rv2av o)
  | .rv2hv => go (rv2hv o)
  | .aelem => go (aelem o true)
  | .aelemU => go (aelem o false)
  | .helem => go (helem o)
  | .existsElem => go (existsElem o)
  | .deleteElem => go (deleteElem o)
  | .av2arylen => go arrayLast
  | .sassign => go assign
  | .multideref => go (multideref o)
  | .add => go (arith .add o.code)
  | .subtract => go (arith .subtract o.code)
  | .multiply => go (arith .multiply o.code)
  | .divide => go (arith .divide o.code)
  | .modulo => go (arith .modulo o.code)
  | .lt | .gt | .le | .ge | .eq | .ne => go (compareNumbers o.code)
  | .seq | .sne => go (compareTexts o.code)
  | .concat => go (concat o.code)
  | .negate => go (negate o.code)
  | .not => go logicalNot
  | .length => go (length o)
  | .lc | .uc => go (changeCase o.code)
  | .sprintf => go (formatItems o.code)
  | .and => shortCircuit o fun v => !v.truth
  | .or => shortCircuit o Value.truth
  | .dor => shortCircuit o Value.defined
  | .condExpr => condition o
  | .nextstate => go (statement o)
  | .enteriter => go (enterLoop o)
  | .iter => go iterate
  | .unstack => go do resetStack (← base)
  | .leaveloop => go leaveLoop
  | .ret => returnSub
  | .leavesub => go leaveSub
  | .say => go (say o.code)
  | .die => die

/-- Executes ops from `start` on until there is none. A run that is not over after `fuel` ops is
given up. -/
def run (code : Code) : Nat → Option RecId → Exec Unit
  | _, none => pure ()
  | 0, some _ => throw (.plain (utf8 "out of fuel"))
  | fuel + 1, some r => do
    modify fun m => { m with steps := m.steps + 1 }
    let next ← step code.names? (code.node r)
    run code fuel next

/-- Runs a sub that `leave` ends, in the context of a caller. -/
def runSub (code : Code) (fuel : Nat) (start leave : Option RecId) (gimme : Want) :
    Exec (List Value) := do
  modify fun m => { m with gimme := gimme, leave := leave, result := [] }
  run code fuel start
  return (← get).result

end Exec

end OpTree
