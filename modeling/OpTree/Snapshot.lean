import OpTree.Print

/-!
# Snapshots

A finished tree as plain data: nodes refer to each other by id, and zero stands for none.
-/

namespace OpTree

set_option autoImplicit false

inductive SnapValue where
  | none
  | bool (b : Bool)
  | int (v : Int)
  | float (bits : UInt64)
  | str (s : Bytes)
  deriving Repr, DecidableEq, Inhabited

namespace SnapValue

def ofValue : Value → SnapValue
  | .undefined => none
  | .bool b => bool b
  | .int v => int v.toInt
  | .float f => float f.toBits
  | .str s => str s
  | .array _ | .hash _ => none

end SnapValue

structure SnapItem where
  act : Bytes := []
  targ : Int := 0
  name : Bytes := []
  idxTarg : Int := 0
  index : Int := 0
  key : Bytes := []
  deriving Repr, DecidableEq, Inhabited

structure SnapOp where
  id : Int := 0
  type : Bytes := []
  ex : Bytes := []
  flags : Nat := 0
  priv : Nat := 0
  targ : Int := 0
  kids : List Int := []
  next : Int := 0
  other : Int := 0
  name : Bytes := []
  label : Bytes := []
  line : Int := 0
  val : SnapValue := .none
  path : List SnapItem := []
  deriving Repr, DecidableEq, Inhabited

structure Snapshot where
  name : Bytes := []
  root : Int := 0
  start : Int := 0
  ops : List SnapOp := []
  deriving Repr, DecidableEq, Inhabited

namespace SnapItem

def ofItem (p : Path) (it : PathItem) : SnapItem :=
  { act := it.act.name
    targ := it.targ
    name := it.name
    idxTarg := it.idxTarg
    index := it.index.toInt
    key := if it.act.index == Action.idxConst && it.act.isHash then p.keyAt it else [] }

end SnapItem

namespace Arena

/-- The id of a node that may be missing. -/
def idOf (a : Arena) (r : Option RecId) : Nat :=
  match r with
  | some r => (a.node r).id
  | none => 0

def snapOp (a : Arena) (r : RecId) : SnapOp :=
  let n := a.node r
  { id := n.id
    type := n.code.nameBytes
    ex := if n.isEx then n.ex.nameBytes else []
    flags := n.flags.toNat
    priv := n.priv.toNat
    targ := n.targ
    kids := (a.kids r).map fun k => (a.node k).id
    next := a.idOf n.next
    other := a.idOf n.other
    name := n.name
    label := n.label
    line := n.line
    val := match n.val with
      | .scalar v => .ofValue v
      | _ => .none
    path := match n.path with
      | some p => p.items.map (SnapItem.ofItem p)
      | none => [] }

/-- The tree under `root`, parents before kids. -/
def snapshot (a : Arena) (name : Bytes) (root start : Option RecId) : Snapshot :=
  { name := name
    root := a.idOf root
    start := a.idOf start
    ops := (a.preorder root).map fun p => a.snapOp p.1 }

end Arena

namespace Snapshot

def op? (s : Snapshot) (id : Int) : Option SnapOp := s.ops.find? (·.id == id)

end Snapshot

end OpTree
