import OpTree.Machine.Operators

/-!
# Variables and elements

Ops on lexical and global variables, on references and on the elements of arrays and hashes. An
undefined scalar that is used as a container becomes a reference to a new one, if the op that
reads it asks for that.
-/

namespace OpTree

set_option autoImplicit false

namespace Exec

def readOnlyError {α : Type} : Exec α :=
  throwAt (utf8 "Modification of a read-only value attempted")

/-- Makes an undefined scalar a reference to a new container of the kind the bits ask for. -/
def vivify (c : Option CellId) (p : Priv) : Exec Unit := do
  if !p.derefs || (← valueOf c).defined then return
  let (id, cell) ← cellOf c
  if cell.readOnly then readOnlyError
  else if p.has Priv.derefAV then store id (.array (← onHeap fun h => h.newArray {}))
  else store id (.hash (← onHeap fun h => h.newTable))

def introduce (names? : Option Pad) (targ : Int) : Exec Unit := do
  if !Machine.canFill names? targ then fatal
  let s ← onHeap fun h => Machine.fresh names? h targ
  setPadSlot targ s

/-- An element as a cell; an absent one is undefined. -/
def present (c : Option CellId) : Exec CellId :=
  match c with
  | some c => pure c
  | none => temp .undefined

/-- Pushes an array the way the op wants it: as a container, as a truth, as its elements or as its
length. -/
def pushArray (o : Node) (a : Option ArrayId) : Exec Unit := do
  if o.flags.has Flags.ref then push (.array a)
  else
    let arr : Exec Arr := match a with
      | some a => array a
      | none => fatal
    if ← onlyTruth o then pushBool ((← arr).length != 0)
    else match ← wantOf o with
      | .list => (← arr).elems.toList.forM fun e => do pushCell (← present e)
      | .scalar => pushValue (.int (Int64.ofNat (← arr).length))
      | _ => return

def pushHash (o : Node) (t : Option TableId) : Exec Unit := do
  if o.flags.has Flags.ref then push (.hash t)
  else
    let tab : Exec Table := match t with
      | some t => table t
      | none => fatal
    if ← onlyTruth o then pushBool ((← tab).length != 0)
    else match ← wantOf o with
      | .list => (← tab).entries.toList.forM fun (k, c) => do
          pushValue (.str k)
          pushCell c
      | .scalar => pushValue (.int (Int64.ofNat (← tab).length))
      | _ => return

def padScalar (o : Node) : Exec Unit := do
  if o.priv.has Priv.intro then setPadSlot o.targ (.scalar (← temp .undefined))
  let c := (← padSlot o.targ).scalar?
  vivify c o.priv
  push (.scalar c)

def padArray (names? : Option Pad) (o : Node) : Exec Unit := do
  if o.priv.has Priv.intro then introduce names? o.targ
  pushArray o (← padSlot o.targ).array?

def padHash (names? : Option Pad) (o : Node) : Exec Unit := do
  if o.priv.has Priv.intro then introduce names? o.targ
  pushHash o (← padSlot o.targ).hash?

/-- Introduces the given number of slots from `targ` on. -/
def padSlots (names? : Option Pad) (o : Node) : Nat → Int → Exec Unit
  | 0, _ => pure ()
  | n + 1, targ => do
    if o.priv.has Priv.intro then introduce names? targ
    if (← wantOf o) != .void then push (← padSlot targ).toItem
    padSlots names? o n (targ + 1)

/-- Marks the stack and introduces a run of slots. -/
def padRange (names? : Option Pad) (o : Node) : Exec Unit := do
  pushMark
  padSlots names? o (Pad.slotAfter o.targ o.count - o.targ).toNat o.targ

def global (name : Bytes) : Exec GlobId := onHeap fun h => h.globNamed name

def derefScalar : Exec Unit := do
  match ← pop with
  | .glob g => pushCell (← onHeap fun h => h.globScalar g)
  | .scalar c =>
    if (← valueOf c).defined then throwAt (utf8 "Not a SCALAR reference")
    else throwAt (utf8 "Can't use an undefined value as a SCALAR reference")
  | x => broken (utf8 "rv2sv of " ++ x.typeName)

def derefArray (x : Item) (lval : Bool) : Exec (Option ArrayId) := do
  match x with
  | .glob g => return some (← onHeap fun h => h.globArray g)
  | .array a => return a
  | .scalar c =>
    if lval then vivify c Priv.derefAV
    match (← cellOf c).2.value with
    | .array a => return some a
    | .undefined => throwAt (utf8 "Can't use an undefined value as an ARRAY reference")
    | _ => throwAt (utf8 "Not an ARRAY reference")
  | x => broken (utf8 "rv2av of " ++ x.typeName)

def derefHash (x : Item) (lval : Bool) : Exec (Option TableId) := do
  match x with
  | .glob g => return some (← onHeap fun h => h.globTable g)
  | .hash t => return t
  | .scalar c =>
    if lval then vivify c Priv.derefHV
    match (← cellOf c).2.value with
    | .hash t => return some t
    | .undefined => throwAt (utf8 "Can't use an undefined value as a HASH reference")
    | _ => throwAt (utf8 "Not a HASH reference")
  | x => broken (utf8 "rv2hv of " ++ x.typeName)

def rv2av (o : Node) : Exec Unit := do
  pushArray o (← derefArray (← pop) (o.flags.has Flags.mod))

def rv2hv (o : Node) : Exec Unit := do
  pushHash o (← derefHash (← pop) (o.flags.has Flags.mod))

/-- A container that has to be there. -/
def needed {α : Type} (x : Option α) : Exec α :=
  match x with
  | some x => pure x
  | none => fatal

/-- The element at an index. A checked access to a shaped array stays inside of the shape. -/
def fetchElem (a : Option ArrayId) (i : Int64) (lval checked : Bool) : Exec (Option CellId) := do
  let a ← needed a
  let shape := (← array a).shape
  let j := if i < 0 then i.toInt + shape else i.toInt
  if checked && 0 ≤ shape && (j < 0 || shape ≤ j) then
    throwAt (utf8 "Array index out of bounds " ++ Bytes.ofInt i.toInt)
  else
    let (c, ok) ← onHeap fun h => h.fetchElem a i lval
    if !ok && lval then
      throwAt (utf8 "Modification of non-creatable array value attempted, subscript " ++
        Bytes.ofInt i.toInt)
    else return c

/-- Is the element going to be written to. -/
def isLvalue (o : Node) : Bool := o.flags.has Flags.mod || o.priv.derefs

def pushElem (c : Option CellId) (p : Priv) : Exec Unit := do
  let c ← present c
  vivify (some c) p
  pushCell c

def aelem (o : Node) (checked : Bool) : Exec Unit := do
  let ix ← popScalar
  match ← pop with
  | .array a =>
    let i ← toInt ix o.code
    pushElem (← fetchElem a i (isLvalue o) checked) o.priv
  | _ => broken (utf8 "aelem of non-array")

def helem (o : Node) : Exec Unit := do
  let ks ← popScalar
  match ← pop with
  | .hash t =>
    let k ← toText ks o.code
    let t ← needed t
    pushElem (← onHeap fun h => h.fetchKey t k (isLvalue o)) o.priv
  | _ => broken (utf8 "helem of non-hash")

def existsIn (c : Item) (key : Option CellId) (arrayOp hashOp : Opcode) : Exec Bool := do
  match c with
  | .array a =>
    let i ← toInt key arrayOp
    return (← array (← needed a)).hasElem i
  | .hash t =>
    let k ← toText key hashOp
    return (← table (← needed t)).hasKey k
  | x => broken (utf8 "exists on " ++ x.typeName)

def deleteFrom (c : Item) (key : Option CellId) (arrayOp hashOp : Opcode) :
    Exec (Option CellId) := do
  match c with
  | .array a =>
    let i ← toInt key arrayOp
    let a ← needed a
    onHeap fun h => h.takeElem a i
  | .hash t =>
    let k ← toText key hashOp
    let t ← needed t
    onHeap fun h => h.takeKey t k
  | x => broken (utf8 "delete on " ++ x.typeName)

def existsElem (o : Node) : Exec Unit := do
  let key ← popScalar
  pushBool (← existsIn (← pop) key o.code o.code)

def deleteElem (o : Node) : Exec Unit := do
  let key ← popScalar
  pushCell (← present (← deleteFrom (← pop) key o.code o.code))

def arrayLast : Exec Unit := do
  match ← pop with
  | .array a =>
    let arr ← array (← needed a)
    pushValue (.int (Int64.ofInt ((arr.length : Int) - 1)))
  | _ => broken (utf8 "av2arylen of non-array")

def assign : Exec Unit := do
  let dst ← popScalar
  let src ← popScalar
  let (id, cell) ← cellOf dst
  if cell.readOnly then readOnlyError
  store id (← valueOf src)
  pushCell id

end Exec

end OpTree
