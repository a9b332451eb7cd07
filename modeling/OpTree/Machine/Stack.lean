import OpTree.Machine.State

/-!
# Stack, marks and cells

The primitive operations of the machine. Popping from an empty stack, or finding an item of the
wrong kind, breaks an invariant; using a missing cell is fatal.
-/

namespace OpTree

set_option autoImplicit false

namespace Exec

variable {α : Type}

def broken (msg : Bytes) : Exec α := throw (.broken msg)

def fatal : Exec α := throw (.fatal none)

def onHeap (f : Heap → α × Heap) : Exec α :=
  modifyGet fun m =>
    let (x, h) := f m.heap
    (x, { m with heap := h })

def push (x : Item) : Exec Unit :=
  modify fun m =>
    if m.height < m.slots.size then
      { m with slots := m.slots.setIfInBounds m.height x, height := m.height + 1 }
    else { m with slots := m.slots.push x, height := m.height + 1 }

def pop : Exec Item := do
  if (← get).height = 0 then broken (utf8 "stack underflow")
  else modifyGet fun m =>
    (m.slots.getD (m.height - 1) .vacant, { m with height := m.height - 1 })

/-- A new cell that nobody else knows. -/
def temp (v : Value) : Exec CellId := onHeap fun h => h.newCell v false

def pushCell (c : CellId) : Exec Unit := push (.scalar (some c))

def pushValue (v : Value) : Exec Unit := do pushCell (← temp v)

def pushBool (b : Bool) : Exec Unit := pushCell (Machine.ofBool b)

def scalarExpected (x : Item) : Exec α :=
  broken (utf8 "scalar expected, got " ++ x.typeName)

/-- Pops a scalar, which may be missing. A vacant slot counts as undefined. -/
def popScalar : Exec (Option CellId) := do
  match ← pop with
  | .scalar c => return c
  | .vacant => return some (← temp .undefined)
  | x => scalarExpected x

/-- The scalar on top of the stack. -/
def top : Exec (Option CellId) := do
  let x ← pop
  push x
  match x with
  | .scalar c => return c
  | x => scalarExpected x

def pushMark : Exec Unit := modify fun m => { m with marks := m.height :: m.marks }

/-- The innermost mark, at most the height of the stack. -/
def popMark : Exec Nat := do
  let m ← get
  match m.marks with
  | [] => broken (utf8 "mark stack underflow")
  | k :: rest =>
    modify fun m => { m with marks := rest }
    return min k m.height

/-- The floor of the innermost frame. -/
def base : Exec Nat := do
  match (← get).loops with
  | l :: _ => return l.height
  | [] => return 0

/-- The capacity of a stack that once had `n` items: it doubles while it is small. -/
def capacityFrom : Nat → Nat → Nat → Nat
  | 0, cap, _ => cap
  | fuel + 1, cap, n =>
    if n ≤ cap then cap
    else capacityFrom fuel (if cap = 0 then 1 else if cap < 256 then 2 * cap
      else cap + (cap + 768) / 4) n

def capacity (n : Nat) : Nat := capacityFrom (n + 1) 0 n

/-- Cuts the stack to a height and forgets the marks above. A height beyond the room of the stack
is fatal; slots below that were not in use show what was last written to them. -/
def resetStack (sp : Nat) : Exec Unit := do
  let m ← get
  if sp ≤ m.slots.size then
    set { m with height := sp, marks := m.marks.dropWhile (sp < ·) }
  else if sp ≤ capacity m.slots.size then
    set { m with slots := m.slots ++ Array.replicate (sp - m.slots.size) Item.vacant, height := sp,
                 marks := m.marks.dropWhile (sp < ·) }
  else fatal

/-- The items from a height on. -/
def itemsFrom (sp : Nat) : Exec (List Item) := do
  let m ← get
  if m.height < sp then fatal else return (m.slots.extract sp m.height).toList

def items : Exec (List (Option CellId)) := do
  let mark ← popMark
  let xs ← itemsFrom mark
  let cs ← xs.mapM fun x => match x with
    | .scalar c => pure c
    | x => broken (utf8 "scalar expected in list, got " ++ x.typeName)
  resetStack mark
  return cs

def valueOf (c : Option CellId) : Exec Value := do
  match c with
  | some c => return ((← get).heap.cell c).value
  | none => return .undefined

/-- The cell of a scalar that has to be there. -/
def cellOf (c : Option CellId) : Exec (CellId × Cell) := do
  match c with
  | some c => return (c, (← get).heap.cell c)
  | none => fatal

def store (c : CellId) (v : Value) : Exec Unit :=
  modify fun m => { m with heap := m.heap.store c v }

/-- Resolves an unknown context to that of the caller. -/
def wantOf (o : Node) : Exec Want := do
  match o.want with
  | .unknown => return (← get).gimme
  | w => return w

def padSlot (targ : Int) : Exec PadSlot := do
  let m ← get
  if targ < 0 then fatal
  else match m.pad[targ.toNat]? with
    | some s => return s
    | none => fatal

def setPadSlot (targ : Int) (s : PadSlot) : Exec Unit := do
  let m ← get
  if targ < 0 || (m.pad.size : Int) ≤ targ then fatal
  else modify fun m => { m with pad := m.pad.setIfInBounds targ.toNat s }

def array (a : ArrayId) : Exec Arr := do return (← get).heap.array a

def table (t : TableId) : Exec Table := do return (← get).heap.table t

/-- Raises an exception of the running program. -/
def throwAt (msg : Bytes) : Exec α := do
  let (file, line) := (← get).place?.getD ([], 0)
  throw (.thrown msg file line)

/-- Where the current statement is, for warnings. -/
def placeText (place? : Option (Bytes × Int)) : Bytes :=
  match place? with
  | some (file, line) =>
    if file.isEmpty then []
    else utf8 " at " ++ file ++ utf8 " line " ++ Bytes.ofInt line ++ utf8 "."
  | none => []

/-- What becomes of the text of a warning. -/
def report (text : Bytes) : WarnHook → Exec Unit
  | .record => modify fun m => { m with warnings := text :: m.warnings }
  | .handle answer => do
    let before := (← get).heard
    modify fun m => { m with heard := text :: m.heard }
    match answer before text with
    | some why => throw why
    | none => return

/-- Warns; the hook decides whether that fails. -/
def warn (msg : Bytes) : Exec Unit := do
  let m ← get
  if m.noWarn then return
  report (msg ++ placeText m.place?) m.hook

section Warned

variable {msg : Bytes} {m : Machine} {answer : List Bytes → Bytes → Option Failure}

theorem warn_off (h : m.noWarn = true) : warn msg m = .ok () m := by
  change (if m.noWarn = true then _ else _ : Exec Unit) m = _
  rw [if_pos h]
  rfl

theorem warn_on {hook : WarnHook} (h : m.noWarn = false) (hhook : m.hook = hook) :
    warn msg m = report (msg ++ placeText m.place?) hook m := by
  change (if m.noWarn = true then _ else _ : Exec Unit) m = _
  rw [if_neg (by simp [h]), hhook]

theorem warn_recorded (h : m.noWarn = false) (hhook : m.hook = .record) :
    warn msg m = .ok () { m with warnings := (msg ++ placeText m.place?) :: m.warnings } := by
  rw [warn_on h hhook]
  rfl

theorem warn_heard (h : m.noWarn = false) (hhook : m.hook = .handle answer)
    (ha : answer m.heard (msg ++ placeText m.place?) = none) :
    warn msg m = .ok () { m with heard := (msg ++ placeText m.place?) :: m.heard } := by
  rw [warn_on h hhook]
  change (match answer m.heard (msg ++ placeText m.place?) with
    | some why => throw why
    | none => pure () : Exec Unit) _ = _
  rw [ha]
  rfl

theorem warn_refused {why : Failure} (h : m.noWarn = false) (hhook : m.hook = .handle answer)
    (ha : answer m.heard (msg ++ placeText m.place?) = some why) :
    warn msg m = .error why { m with heard := (msg ++ placeText m.place?) :: m.heard } := by
  rw [warn_on h hhook]
  change (match answer m.heard (msg ++ placeText m.place?) with
    | some why => throw why
    | none => pure () : Exec Unit) _ = _
  rw [ha]
  rfl

end Warned

end Exec

end OpTree
