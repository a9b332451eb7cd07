import OpTree.Peephole.State

/-!
# Bounds of shaped arrays

A constant index into a shaped array is checked once and for all, and an index that is a loop
variable needs no check if the range of the loop stays inside of the shape.
-/

namespace OpTree

set_option autoImplicit false

namespace Peep

/-- Is `i` an index of the shaped array at a slot. Arrays without a shape have none that is known;
an index outside of the shape is a failure. -/
def inShape (targ : Int) (i : Int64) : Peep (Except Failure Bool) := do
  let a ← (get : TreeM Arena)
  let shape := a.pad.shape targ
  if shape < 0 then return .ok false
  let j := if i < 0 then i.toInt + shape else i.toInt
  if j < 0 || shape ≤ j then
    let name := ((a.pad.get? targ).map (·.name)).getD []
    return .error (← complaint (utf8 "Array index out of bounds " ++ name ++ utf8 "[" ++
      Bytes.ofInt i.toInt ++ utf8 "]"))
  else return .ok true

def constIndex (e : RecId) : Peep Unit := do
  let a ← (get : TreeM Arena)
  match (a.node e).first, a.kid? e 1 with
  | some c, some ix =>
    let container := a.node c
    match (a.node ix).constInt? with
    | none => return
    | some i =>
      if container.code ≠ .padav then return
      match ← inShape container.targ i with
      | .error why => fail why
      | .ok false => return
      | .ok true =>
        TreeM.retype e .aelemU
        noteChange "bounds"
  | _, _ => return

/-- What is known of the range of a loop: its variable, its last value and, if that comes from the
length of an array, the slot of the array. -/
structure LoopRange where
  var : Int
  limit : Int
  array? : Option Int

/-- The range of a loop whose ends are known. -/
def loopRange? (a : Arena) (ent : RecId) : Option LoopRange := do
  let lo ← a.kid? ent 0
  let hi ← a.kid? ent 1
  let first ← (a.node lo).constInt?
  guard (0 ≤ first)
  let var := (a.node ent).targ
  let h := a.node hi
  match h.constInt? with
  | some last => return ⟨var, last.toInt, none⟩
  | none =>
    guard (h.code = .av2arylen)
    let av := a.node (← h.first)
    guard (av.code = .padav)
    let shape := a.pad.shape av.targ
    guard (0 ≤ shape)
    return ⟨var, shape - 1, some av.targ⟩

def loopBody? (a : Arena) (ent : RecId) : Option RecId := do
  let leave ← a.parent? ent
  guard ((a.node leave).code = .leaveloop)
  let wrap ← a.kid? leave 1
  let l ← (a.node wrap).first
  guard ((a.node l).opClass = .logop)
  a.kid? l 1

/-- Is it an element access that the range of the loop keeps inside of the shape. -/
def elemInRange (a : Arena) (range : LoopRange) (e : RecId) : Bool :=
  match (a.node e).first, a.kid? e 1 with
  | some c, some ix =>
    let c := a.node c
    let ix := a.node ix
    let shape := a.pad.shape c.targ
    c.code == .padav && ix.isPlainPadsv && ix.targ == range.var &&
      (range.array?.all fun t => t == 0 || c.targ == t) && 0 ≤ shape && range.limit ≤ shape - 1
  | _, _ => false

/-- May the node change what the loop variable holds. -/
def changesVar (v : Int) (n : Node) : Bool :=
  match n.code with
  | .padsv => n.targ == v && !n.isPlainPadsv
  | .padrange => n.targ ≤ v && v < Pad.slotAfter n.targ n.count
  | .enteriter => n.targ == v
  | _ => false

/-- Element ops and fused ops of a loop body, in the order of the walk. -/
structure LoopAccesses where
  elems : List RecId := []
  fused : List RecId := []

/-- Walks the body of a loop; `none` if the loop variable may change in it. -/
def collectAccesses (a : Arena) (range : LoopRange) : Nat → List RecId → LoopAccesses →
    Option LoopAccesses
  | _, [], acc => some acc
  | 0, _ :: _, _ => none
  | fuel + 1, r :: stack, acc =>
    let n := a.node r
    if changesVar range.var n then none
    else
      let acc :=
        if n.code == .aelem && elemInRange a range r then { acc with elems := acc.elems ++ [r] }
        else if n.code == .multideref then { acc with fused := acc.fused ++ [r] }
        else acc
      collectAccesses a range fuel ((a.kids r).reverse ++ stack) acc

def itemInRange (p : Pad) (range : LoopRange) (it : PathItem) : Bool :=
  it.act.kind == Action.padavAelem.byte && it.act.index == Action.idxPadsv &&
    it.idxTarg == range.var && (range.array?.all fun t => t == 0 || it.targ == t) &&
    range.limit ≤ (p.shape it.targ - 1).bmod (Nat.pow 2 64)

/-- Drops the checks of the levels that need none. -/
def uncheckItems (range : LoopRange) (m : RecId) : Peep Unit := do
  let a ← (get : TreeM Arena)
  match (a.node m).path with
  | none => (TreeM.fatal : TreeM Unit)
  | some path =>
    let hit := itemInRange a.pad range
    let items := path.items.map fun it =>
      if hit it then { it with act := it.act.or Action.uncheckedBit } else it
    TreeM.update m fun n => { n with path := some { path with items := items } }
    (path.items.filter hit).forM fun _ => noteChange "bounds"

def loopBounds (ent : RecId) : Peep Unit := do
  let a ← (get : TreeM Arena)
  match loopRange? a ent, loopBody? a ent with
  | some range, some body =>
    match collectAccesses a range (a.bound * a.bound) [body] {} with
    | none => return
    | some acc =>
      acc.elems.forM fun e => do
        TreeM.retype e .aelemU
        noteChange "bounds"
      acc.fused.forM (uncheckItems range)
  | _, _ => return

end Peep

end OpTree
