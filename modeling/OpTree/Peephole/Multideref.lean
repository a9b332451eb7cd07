import OpTree.Peephole.Bounds

/-!
# Fused element accesses

A chain of container and element ops becomes one op with an access path. The chain is matched
first; then the path is filled and the ops are cut out. The op the chain starts with may be the
target of a jump, so it stays as a null kid of the fused op; everything else is freed.
-/

namespace OpTree

set_option autoImplicit false

/-- One matched level: its action, its element op, its index or key op and the constant key of a
hash. -/
structure PathLevel where
  act : Action
  elem : RecId
  key : RecId
  keyText : Bytes := []

/-- A matched chain, the op that becomes the fused one and the size of all constant keys. -/
structure PathMatch where
  levels : List PathLevel
  top : RecId
  keys : Nat

namespace Peep

/-- Where a chain can start: the action of its first level, the op whose successor is the first key
and the first element op. -/
def pathStart? (a : Arena) (s : RecId) : Option (Action × RecId × RecId) := do
  let n := a.node s
  match n.code with
  | .padav | .padhv =>
    guard (n.flags.has Flags.ref && !n.priv.has Priv.intro)
    let elem ← a.parent? s
    guard ((a.node elem).first = some s)
    return (if n.code = .padhv then .padhvHelem else .padavAelem, s, elem)
  | .gv | .padsv =>
    let r ← a.parent? s
    let d := a.node r
    guard (d.first = some s && n.next = some r && d.flags.has Flags.ref)
    guard (d.code = .rv2av || d.code = .rv2hv)
    let hash : Bool := d.code = .rv2hv
    let act ←
      if n.code = .gv then some (if hash then Action.gvhvHelem else Action.gvavAelem)
      else if n.priv.has Priv.intro || n.flags.has Flags.mod then none
      else if hash && n.priv.has Priv.derefHV then some .padsvRv2hvHelem
      else if !hash && n.priv.has Priv.derefAV then some .padsvRv2avAelem
      else none
    let elem ← a.parent? r
    guard ((a.node elem).first = some r)
    return (act, r, elem)
  | _ => none

/-- Is it a live or neutralized element op of the kind. -/
def isElemOf (n : Node) (hash : Bool) : Bool :=
  let t := if n.code = .null then n.ex else n.code
  if hash then t == .helem else t == .aelem || t == .aelemU

/-- The level of an element op; `none` if it does not fit into a chain. `container` is the slot of
the array that a chain of its own starts with. -/
def pathLevel? (a : Arena) (act : Action) (s elem : RecId) (container : Int) :
    Peep (Except Failure (Option PathLevel)) := do
  let e := a.node elem
  if !isElemOf e act.isHash then return .ok none
  match a.kid? elem 1 with
  | none => return .ok none
  | some key =>
    let k := a.node key
    if (a.node s).next ≠ some key || k.next ≠ some elem then return .ok none
    let free : Bool := e.code = .aelemU || (e.code = .null && e.ex = .aelemU)
    let act' := if free then act.or Action.uncheckedBit else act
    if k.isPlainPadsv then return .ok (some ⟨act', elem, key, []⟩)
    if k.code ≠ .const then return .ok none
    if act.isHash then return .ok (some ⟨act', elem, key, k.val.value.text⟩)
    match k.constInt? with
    | none => return .ok none
    | some i =>
      if act.kind = Action.padavAelem.byte then
        match ← inShape container i with
        | .error why => return .error why
        | .ok sure =>
          return .ok (some ⟨if sure then act'.or Action.uncheckedBit else act', elem, key, []⟩)
      else return .ok (some ⟨act', elem, key, []⟩)

/-- The op above a neutralized element op that tests or deletes the element. -/
def elemUser? (a : Arena) (elem : RecId) : Option RecId := do
  let top ← a.parent? elem
  let t := a.node top
  guard (t.first = some elem && (a.node elem).next = some top)
  guard (t.code = .existsElem || t.code = .deleteElem)
  return top

/-- The next level above an element: its action, its dereferencing op and its element op. -/
def nextLevel? (a : Arena) (elem : RecId) : Option (Action × RecId × RecId) := do
  let e := a.node elem
  let r ← a.parent? elem
  let d := a.node r
  guard (d.first = some elem && e.next = some r && d.flags.has Flags.ref)
  let act ←
    if d.code = .rv2av && e.priv.has Priv.derefAV then some Action.rv2avAelem
    else if d.code = .rv2hv && e.priv.has Priv.derefHV then some .rv2hvHelem
    else none
  let next ← a.parent? r
  guard ((a.node next).first = some r)
  return (act, r, next)

/-- Matches levels upward. `done` holds the levels so far and the last element op. -/
def scanLevels (a : Arena) (container : Int) : Nat → Option PathMatch → Action → RecId → RecId →
    Peep (Except Failure (Option PathMatch))
  | 0, found, _, _, _ => return .ok found
  | fuel + 1, found, act, s, elem => do
    match ← pathLevel? a act s elem container with
    | .error why => return .error why
    | .ok none => return .ok found
    | .ok (some l) =>
      let levels := ((found.map (·.levels)).getD []) ++ [l]
      let keys := ((found.map (·.keys)).getD 0) + l.keyText.length
      if (a.node elem).code = .null then
        match elemUser? a elem with
        | none => return .ok found
        | some top => return .ok (some ⟨levels, top, keys⟩)
      else
        let found := some ⟨levels, elem, keys⟩
        match nextLevel? a elem with
        | none => return .ok found
        | some (act, r, next) => scanLevels a container fuel found act r next

/-- Matches the chain that starts at `s`. -/
def scanPath (s : RecId) : Peep (Except Failure (Option PathMatch)) := do
  let a ← (get : TreeM Arena)
  match pathStart? a s with
  | none => return .ok none
  | some (act, from_, elem) => scanLevels a (a.node from_).targ a.bound none act from_ elem

/-- The item of a level; `keys` are the bytes of the keys before it. -/
def pathItem (a : Arena) (s : Node) (keys : Bytes) (l : PathLevel) : PathItem :=
  let it : PathItem := match l.act.kind.toNat with
    | 1 | 2 | 5 | 6 => { act := l.act, targ := s.targ }
    | 3 | 4 => { act := l.act, name := s.name }
    | _ => { act := l.act }
  let k := a.node l.key
  if k.code = .padsv then { it with act := it.act.or Action.idxPadsv, idxTarg := k.targ }
  else if l.act.isHash then
    { it with act := it.act.or Action.idxConst, key := keys.length, keyLen := l.keyText.length }
  else { it with act := it.act.or Action.idxConst, index := k.constInt?.getD 0 }

def pathOf (a : Arena) (s : Node) (levels : List PathLevel) : Path :=
  levels.foldl (fun p l =>
    { items := p.items ++ [pathItem a s p.keys l], keys := p.keys ++ l.keyText }) ⟨[], []⟩

def pathPriv (top : Node) : Priv :=
  match top.code with
  | .existsElem => Priv.existsElem
  | .deleteElem => Priv.deleteElem
  | _ => top.priv &&& (Priv.derefAV ||| Priv.derefHV)

/-- Frees a sealed chain of siblings. -/
def freeChain (first : Option RecId) : TreeM Unit := do
  let a ← get
  (a.siblingsFrom a.bound first).forM TreeM.freeTree

def fuse (s : RecId) (m : PathMatch) : TreeM Unit := do
  let a ← get
  let path := pathOf a (a.node s) m.levels
  let p := pathPriv (a.node m.top)
  let par ← TreeM.need (a.parent? s)
  let _ ← TreeM.replace par (some s) none
  freeChain (← TreeM.splice (some m.top) none (-1) none)
  TreeM.retype m.top .multideref
  TreeM.update m.top fun n => { n with priv := p, path := some path }
  TreeM.append m.top (some s)
  TreeM.neutralize s
  TreeM.setNext s (some m.top)

/-- Fuses the chain that starts at `s`; answers with the fused op. -/
def multideref? (s : RecId) (prev : Option RecId) (slot : PeepSlot) : Peep (Option RecId) := do
  match ← scanPath s with
  | .error why =>
    fail why
    return none
  | .ok none => return none
  | .ok (some m) =>
    fuse s m
    relink prev slot (some m.top)
    noteChange "multideref"
    return some m.top

end Peep

end OpTree
