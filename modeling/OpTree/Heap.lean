import OpTree.Value
import OpTree.Memory

/-!
# The heap

Cells hold values, arrays hold cells at indexes (an element may be absent), tables hold cells under
keys in the order of their insertion, and globals are named triples of one of each. Everything is
named by its number; nothing is ever removed from the heap itself.
-/

namespace OpTree

set_option autoImplicit false

abbrev GlobId := Nat

structure Cell where
  value : Value := .undefined
  readOnly : Bool := false
  deriving Repr, Inhabited

/-- `shape` is the fixed size of a shaped array and -1 for any other. -/
structure Arr where
  elems : Array (Option CellId) := #[]
  shape : Int := -1
  deriving Repr, Inhabited, DecidableEq

structure Table where
  entries : Array (Bytes × CellId) := #[]
  deriving Repr, Inhabited, DecidableEq

/-- A package variable: each part exists once it was asked for. -/
structure Glob where
  name : Bytes
  scalar? : Option CellId := none
  array? : Option ArrayId := none
  table? : Option TableId := none
  deriving Repr, Inhabited, DecidableEq

namespace Arr

/-- Does memory hold an array of this shape. -/
def canHave (shape : Int) : Bool := Memory.holds 8 shape

/-- A shaped array has all its elements, absent; any other starts empty. -/
def ofShape (shape : Int) : Arr := ⟨Array.replicate shape.toNat none, shape⟩

def length (a : Arr) : Nat := a.elems.size

def get? (a : Arr) (i : Int) : Option CellId :=
  if i < 0 then none else (a.elems[i.toNat]?).join

/-- A negative index counts from the end. -/
def resolve (a : Arr) (i : Int64) : Int :=
  if i < 0 then i.toInt + a.length else i.toInt

def hasElem (a : Arr) (i : Int64) : Bool := (a.get? (a.resolve i)).isSome

def put (a : Arr) (i : Nat) (c : CellId) : Arr :=
  let grown := a.elems ++ Array.replicate (i + 1 - a.elems.size) none
  { a with elems := grown.setIfInBounds i (some c) }

def dropAbsent (elems : Array (Option CellId)) : Array (Option CellId) :=
  elems.popWhile (·.isNone)

/-- Takes an element out. An array without a shape loses the absent elements at its end. -/
def take (a : Arr) (i : Int64) : Option CellId × Arr :=
  let j := a.resolve i
  if j < 0 || (a.length : Int) ≤ j then (none, a)
  else
    let elems := a.elems.setIfInBounds j.toNat none
    (a.get? j, { a with elems := if a.shape < 0 then dropAbsent elems else elems })

end Arr

namespace Table

def length (t : Table) : Nat := t.entries.size

def get? (t : Table) (k : Bytes) : Option CellId := (t.entries.find? (·.1 == k)).map (·.2)

def hasKey (t : Table) (k : Bytes) : Bool := (t.get? k).isSome

/-- A new key goes to the end. -/
def put (t : Table) (k : Bytes) (c : CellId) : Table := ⟨t.entries.push (k, c)⟩

def take (t : Table) (k : Bytes) : Option CellId × Table :=
  (t.get? k, ⟨t.entries.filter (·.1 != k)⟩)

end Table

structure Heap where
  cells : Array Cell := #[]
  arrays : Array Arr := #[]
  tables : Array Table := #[]
  globs : Array Glob := #[]
  deriving Repr, Inhabited

namespace Heap

def cell (h : Heap) (c : CellId) : Cell := h.cells.getD c {}

def array (h : Heap) (a : ArrayId) : Arr := h.arrays.getD a {}

def table (h : Heap) (t : TableId) : Table := h.tables.getD t {}

def glob (h : Heap) (g : GlobId) : Glob := h.globs.getD g ⟨[], none, none, none⟩

def newCell (h : Heap) (v : Value) (readOnly : Bool) : CellId × Heap :=
  (h.cells.size, { h with cells := h.cells.push ⟨v, readOnly⟩ })

def newArray (h : Heap) (a : Arr) : ArrayId × Heap :=
  (h.arrays.size, { h with arrays := h.arrays.push a })

def newTable (h : Heap) : TableId × Heap :=
  (h.tables.size, { h with tables := h.tables.push {} })

def store (h : Heap) (c : CellId) (v : Value) : Heap :=
  { h with cells := h.cells.modify c fun x => { x with value := v } }

/-- The element at an index. The answer also says whether the index is one at all, which it is
not if it lies before the first element. With `create` a missing element is made. -/
def fetchElem (h : Heap) (a : ArrayId) (i : Int64) (create : Bool) :
    (Option CellId × Bool) × Heap :=
  let arr := h.array a
  let j := arr.resolve i
  if j < 0 then ((none, false), h)
  else match arr.get? j with
    | some c => ((some c, true), h)
    | none =>
      if create then
        let (c, h) := h.newCell .undefined false
        ((some c, true), { h with arrays := h.arrays.modify a fun x => x.put j.toNat c })
      else ((none, true), h)

def takeElem (h : Heap) (a : ArrayId) (i : Int64) : Option CellId × Heap :=
  let (c, arr) := (h.array a).take i
  (c, { h with arrays := h.arrays.modify a fun _ => arr })

/-- The cell under a key; with `create` a missing one is made. -/
def fetchKey (h : Heap) (t : TableId) (k : Bytes) (create : Bool) : Option CellId × Heap :=
  match (h.table t).get? k with
  | some c => (some c, h)
  | none =>
    if create then
      let (c, h) := h.newCell .undefined false
      (some c, { h with tables := h.tables.modify t fun x => x.put k c })
    else (none, h)

def takeKey (h : Heap) (t : TableId) (k : Bytes) : Option CellId × Heap :=
  let (c, tab) := (h.table t).take k
  (c, { h with tables := h.tables.modify t fun _ => tab })

/-- The global of a name, made if it is missing. -/
def globNamed (h : Heap) (name : Bytes) : GlobId × Heap :=
  match h.globs.findIdx? (·.name == name) with
  | some g => (g, h)
  | none => (h.globs.size, { h with globs := h.globs.push { name := name } })

def globScalar (h : Heap) (g : GlobId) : CellId × Heap :=
  match (h.glob g).scalar? with
  | some c => (c, h)
  | none =>
    let (c, h) := h.newCell .undefined false
    (c, { h with globs := h.globs.modify g fun x => { x with scalar? := some c } })

def globArray (h : Heap) (g : GlobId) : ArrayId × Heap :=
  match (h.glob g).array? with
  | some a => (a, h)
  | none =>
    let (a, h) := h.newArray {}
    (a, { h with globs := h.globs.modify g fun x => { x with array? := some a } })

def globTable (h : Heap) (g : GlobId) : TableId × Heap :=
  match (h.glob g).table? with
  | some t => (t, h)
  | none =>
    let (t, h) := h.newTable
    (t, { h with globs := h.globs.modify g fun x => { x with table? := some t } })

end Heap

end OpTree
