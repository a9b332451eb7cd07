import OpTree.Machine.Data

/-!
# Control

Statements, branches, loops and the end of a sub. Each of these steps answers with the op to go on
with.
-/

namespace OpTree

set_option autoImplicit false

namespace Exec

/-- A statement starts with nothing above the floor of its frame. -/
def statement (o : Node) : Exec Unit := do
  modify fun m => { m with place? := some (o.file, o.line) }
  resetStack (← base)

/-- A short-circuit op: keeps the scalar on top and goes on, or drops it and takes the branch. -/
def shortCircuit (o : Node) (keeps : Value → Bool) : Exec (Option RecId) := do
  if keeps (← valueOf (← top)) then return o.next
  else
    let _ ← pop
    return o.other

def condition (o : Node) : Exec (Option RecId) := do
  if (← valueOf (← popScalar)).truth then return o.other else return o.next

def enterLoop (o : Node) : Exec Unit := do
  let hi ← popScalar
  let lo ← popScalar
  let cur ← toInt lo o.code
  let hi ← toInt hi o.code
  let saved ← padSlot o.targ
  modify fun m => { m with loops := ⟨m.height, o.targ, saved, cur, hi⟩ :: m.loops }

/-- Starts the next round of the innermost loop and tells whether there is one. -/
def iterate : Exec Unit := do
  match (← get).loops with
  | [] => fatal
  | l :: rest =>
    if l.cur > l.hi then pushBool false
    else
      setPadSlot l.targ (.scalar (← temp (.int l.cur)))
      modify fun m => { m with loops := { l with cur := l.cur + 1 } :: rest }
      pushBool true

/-- Ends the innermost loop: its variable gets back what it held before. -/
def leaveLoop : Exec Unit := do
  match (← get).loops with
  | [] => fatal
  | l :: rest =>
    modify fun m => { m with loops := rest }
    setPadSlot l.targ l.saved
    resetStack l.height

/-- Ends as many loops as there are. -/
def leaveLoops : Nat → Exec Unit
  | 0 => pure ()
  | n + 1 => do
    leaveLoop
    leaveLoops n

def resultOf (x : Item) : Exec Value :=
  match x with
  | .scalar c => valueOf c
  | _ => pure .undefined

/-- Takes the result of the sub off the stack as the caller wants it. -/
def leaveSub : Exec Unit := do
  let floor ← base
  let xs ← itemsFrom floor
  let result ← match (← get).gimme with
    | .void => pure []
    | .scalar => pure [← resultOf (xs.getLast?.getD .vacant)]
    | _ => xs.mapM resultOf
  modify fun m => { m with result := result }
  resetStack floor

def returnSub : Exec (Option RecId) := do
  let mark ← popMark
  let xs ← itemsFrom mark
  leaveLoops (← get).loops.length
  resetStack 0
  xs.forM push
  match (← get).leave with
  | some r => return some r
  | none =>
    leaveSub
    return none

/-- A list in void context drops its items, in scalar context it keeps the last one. -/
def listItems (o : Node) : Exec Unit := do
  let mark ← popMark
  match ← wantOf o with
  | .void => resetStack mark
  | .scalar =>
    let last ← match (← itemsFrom mark).getLast? with
      | some x => pure x
      | none => do pure (.scalar (some (← temp .undefined)))
    resetStack mark
    push last
  | _ => return

/-- Hands a text to the writer; it is an exception if that cannot write it. -/
def write (text : Bytes) : Exec Unit := do
  let m ← get
  modify fun m => { m with out := text :: m.out }
  match m.writer m.out text with
  | some why => throwAt (utf8 "say: " ++ why)
  | none => return

def say (t : Opcode) : Exec Unit := do
  let texts ← (← items).mapM fun c => toText c t
  write (texts.flatten ++ [10])
  pushBool true

def die {α : Type} : Exec α := do
  let texts ← (← items).mapM fun c => do return (← valueOf c).text
  let msg := texts.flatten
  let msg := if msg.isEmpty then utf8 "Died" else msg
  if msg.getLast? == some 10 then throw (.thrown msg [] 0) else throwAt msg

def stub (o : Node) : Exec Unit := do
  if (← wantOf o) != .list then pushValue .undefined

/-- The read-only cell of a const op: the one that is kept for it, or a new one with its value. -/
def cellFor (o : Node) : Exec CellId := do
  match (← get).kept o.id with
  | some c => return c
  | none => onHeap fun h => h.newCell o.val.value true

def constant (o : Node) : Exec Unit := do pushCell (← cellFor o)

section Kept

variable {m : Machine} {o : Node} {c : CellId}

theorem cellFor_of_some (h : m.kept o.id = some c) : cellFor o m = .ok c m := by
  change (match m.kept o.id with
    | some c => pure c
    | none => onHeap fun h => h.newCell o.val.value true : Exec CellId) m = _
  rw [h]
  rfl

theorem cellFor_of_none (h : m.kept o.id = none) :
    cellFor o m = onHeap (fun h => h.newCell o.val.value true) m := by
  change (match m.kept o.id with
    | some c => pure c
    | none => onHeap fun h => h.newCell o.val.value true : Exec CellId) m = _
  rw [h]

end Kept

end Exec

end OpTree
