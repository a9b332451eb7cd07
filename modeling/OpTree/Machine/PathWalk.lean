import OpTree.Machine.Data

/-!
# Walking an access path

A fused op walks its path: every level but the last fetches its element for modification and makes
it a container of the kind the next level needs.
-/

namespace OpTree

set_option autoImplicit false

namespace Exec

/-- The container a level works on; `cur` is the element of the level before. -/
def pathContainer (it : PathItem) (cur : Option CellId) : Exec Item := do
  match it.act.kind.toNat with
  | 1 => return .array (← padSlot it.targ).array?
  | 2 => return .hash (← padSlot it.targ).hash?
  | 3 =>
    let g ← global it.name
    return .array (some (← onHeap fun h => h.globArray g))
  | 4 =>
    let g ← global it.name
    return .hash (some (← onHeap fun h => h.globTable g))
  | 5 =>
    let c := (← padSlot it.targ).scalar?
    vivify c Priv.derefAV
    return .array (← derefArray (.scalar c) false)
  | 6 =>
    let c := (← padSlot it.targ).scalar?
    vivify c Priv.derefHV
    return .hash (← derefHash (.scalar c) false)
  | 7 => return .array (← derefArray (.scalar cur) false)
  | 8 => return .hash (← derefHash (.scalar cur) false)
  | _ => broken (utf8 "multideref: bad action " ++ it.act.name)

def pathKey (p : Path) (it : PathItem) : Exec (Option CellId) := do
  match it.act.index.toNat with
  | 16 =>
    if it.act.isHash then return some (← temp (.str (p.keyAt it)))
    else return some (← temp (.int it.index))
  | 32 => return (← padSlot it.idxTarg).scalar?
  | _ => broken (utf8 "multideref: bad index kind " ++ it.act.name)

def pathElem (p : Path) (it : PathItem) (c : Item) (lval : Bool) : Exec CellId := do
  let key ← pathKey p it
  match c with
  | .array a =>
    let i ← toInt key .aelem
    present (← fetchElem a i lval (!it.act.unchecked))
  | .hash t =>
    let k ← toText key .helem
    let t ← needed t
    present (← onHeap fun h => h.fetchKey t k lval)
  | x => broken (utf8 "multideref: container " ++ x.typeName)

/-- What the op does with the last level: it tests, deletes or pushes the element. -/
def pathLast (o : Node) (p : Path) (it : PathItem) (c : Item) : Exec Unit := do
  if o.priv.has Priv.existsElem then
    let key ← pathKey p it
    pushBool (← existsIn c key .aelem .helem)
  else if o.priv.has Priv.deleteElem then
    let key ← pathKey p it
    pushCell (← present (← deleteFrom c key .aelem .helem))
  else
    let e ← pathElem p it c (o.flags.has Flags.mod)
    vivify (some e) o.priv
    pushCell e

def walkPath (o : Node) (p : Path) (cur : Option CellId) : List PathItem → Exec Unit
  | [] => broken (utf8 "multideref #" ++ Bytes.ofNat o.id ++ utf8 " without items")
  | [it] => do
    let c ← pathContainer it cur
    pathLast o p it c
  | it :: next :: rest => do
    let c ← pathContainer it cur
    let e ← pathElem p it c true
    vivify (some e) (if next.act.isHash then Priv.derefHV else Priv.derefAV)
    walkPath o p (some e) (next :: rest)

def multideref (o : Node) : Exec Unit := do
  match o.path with
  | some p => walkPath o p none p.items
  | none => broken (utf8 "multideref #" ++ Bytes.ofNat o.id ++ utf8 " without items")

end Exec

end OpTree
