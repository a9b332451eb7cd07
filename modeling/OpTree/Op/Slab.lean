import OpTree.Op.Arena

/-!
# Allocation

Records come from the free list if one of the first few entries is large enough, else from the last
slab, else from a new slab. What is left of a slab that is given up goes to the free list.
-/

namespace OpTree

set_option autoImplicit false

namespace Group

def stats (g : Group) : List (String × Int) :=
  [("slabs", g.slabs.length), ("units", g.total), ("live", g.live), ("live_units", g.liveUnits),
    ("free", g.freeCount), ("refs", g.refs)]

/-- Drops all slabs. Records stay readable. -/
def dropped (g : Group) : Group :=
  { g with slabs := [], free := none, freeCount := 0, released := true }

/-- The size of the next slab: the growth factor is applied to all units so far in 64-bit
arithmetic, and the cap comes before the need of the record at hand. -/
def nextUnits (g : Group) (size : Int) : Int :=
  let units :=
    if g.total = 0 then g.tune.slabUnits
    else (g.total * g.tune.slabGrowth).bmod (Nat.pow 2 64)
  max (min units g.tune.slabMaxUnits) size

/-- Does memory hold the next slab; a unit takes 200 bytes. -/
def canGrow (g : Group) (size : Int) : Bool := Memory.holds 200 (g.nextUnits size)

def room (g : Group) : Int :=
  match g.slabs with
  | s :: _ => s.units - s.used
  | [] => 0

/-- Takes `size` units and one record off the last slab. -/
def carve (g : Group) (size : Int) : Group :=
  match g.slabs with
  | s :: rest => { g with slabs := { s with used := s.used + size, count := s.count + 1 } :: rest }
  | [] => g

end Group

namespace Arena

/-- The first record of the free list that is large enough, with the record before it. At most
`scan` records are looked at. -/
def findFree (a : Arena) (size : Int) : Nat → Option RecId → Option RecId →
    Option (Option RecId × RecId)
  | 0, _, _ => none
  | _, _, none => none
  | scan + 1, prev, some r =>
    let n := a.node r
    if n.size < size then a.findFree size scan (some r) n.next else some (prev, r)

/-- A record of the free list made new. -/
def reuse? (a : Arena) (g : Group) (size : Int) : Option (RecId × Arena) :=
  (a.findFree size g.tune.freeScan.toNat none g.free).map fun (prev, r) =>
    let n := a.node r
    let g := { g with freeCount := g.freeCount - 1, live := g.live + 1,
                      liveUnits := g.liveUnits + n.size }
    let (a, g) := match prev with
      | some p => (a.update p fun x => { x with next := n.next }, g)
      | none => (a, { g with free := n.next })
    (r, { a.update r (fun x => { size := x.size }) with group? := some g })

/-- Turns the rest of the last slab into a free record. -/
def scrap (a : Arena) (g : Group) : Arena × Group :=
  let left := g.room
  if left ≤ 0 then (a, g)
  else
    let r := a.recs.size
    ({ a with recs := a.recs.push { code := .freed, size := left, next := g.free } },
      { g.carve left with free := some r, freeCount := g.freeCount + 1 })

def grow (g : Group) (size : Int) : Group :=
  let units := g.nextUnits size
  { g with slabs := ⟨units, 0, 0⟩ :: g.slabs, total := g.total + units }

/-- Is the last slab too full for `size` units. -/
def needsSlab (g : Group) (size : Int) : Bool := g.slabs.isEmpty || g.room < size

/-- A new record from the last slab, or from a new one if that is too full. -/
def carve (a : Arena) (g : Group) (size : Int) : RecId × Arena :=
  let (a, g) :=
    if needsSlab g size then
      let (a, g) := a.scrap g
      (a, grow g size)
    else (a, g)
  let g := { g.carve size with live := g.live + 1, liveUnits := g.liveUnits + size }
  (a.recs.size, { a with recs := a.recs.push { size := size }, group? := some g })

/-- Is there room for `size` units, or memory for a slab that has it. -/
def canAlloc (a : Arena) (g : Group) (size : Int) : Bool :=
  let size := max size 1
  g.canGrow size || !needsSlab g size || (a.reuse? g size).isSome

/-- A record of at least `size` units. -/
def alloc (a : Arena) (g : Group) (size : Int) : RecId × Arena :=
  let size := max size 1
  match a.reuse? g size with
  | some p => p
  | none => a.carve g size

def allocStatic (a : Arena) (size : Int) : RecId × Arena :=
  (a.recs.size, { a with recs := a.recs.push { static := true, size := size } })

/-- Puts a record on the free list. -/
def free (a : Arena) (g : Group) (r : RecId) : Arena :=
  let n := a.node r
  let g' := { g with live := g.live - 1, liveUnits := g.liveUnits - n.size,
                     free := some r, freeCount := g.freeCount + 1 }
  { a.update r (fun n =>
      { code := .freed, ex := n.code, id := n.id, size := n.size, next := g.free }) with
    group? := some g' }

end Arena

namespace TreeM

/-- A record of `size` units from the group of the unit, or a static one if there is none. -/
def alloc (size : Int) : TreeM RecId := do
  match (← get).group? with
  | none => modifyGet fun a => a.allocStatic size
  | some g =>
    if g.released then broken (utf8 "alloc from released group")
    else if !(← get).canAlloc g size then fatal
    else modifyGet fun a => a.alloc g size

/-- A new node with the next id. -/
def new (t : Opcode) (fl : Flags) : TreeM RecId := do
  let r ← alloc t.size
  modify fun a => { a with seq := a.seq + 1 }
  let id := (← get).seq
  update r fun n => { n with code := t, flags := fl, id := id }
  return r

/-- Puts a node of the group on the free list. -/
def freeInGroup (r : RecId) : TreeM Unit := do
  let n ← node r
  if n.code = .freed then return
  match n.static, (← get).group? with
  | false, some g => modify fun a => a.free g r
  | _, _ => broken (utf8 "free of foreign op " ++ n.tag)

/-- Frees a single node wherever it comes from. Payload and kids are the business of the caller. -/
def free (r : RecId) : TreeM Unit := do
  let n ← node r
  if n.code = .freed then return
  if n.static then
    update r fun n =>
      { n with ex := n.code, code := .freed, first := none, last := none, sib := {}, next := none,
               other := none }
  else freeInGroup r

/-- The group; fatal if there is none. -/
def group : TreeM Group := do
  match (← get).group? with
  | some g => pure g
  | none => fatal

def setGroup (g : Group) : TreeM Unit := modify fun a => { a with group? := some g }

def retain : TreeM Unit := do
  let g ← group
  setGroup { g with refs := g.refs + 1 }

/-- Drops a reference. The last one releases the group. -/
def release : TreeM Unit := do
  let g ← group
  let g := { g with refs := g.refs - 1 }
  setGroup g
  if g.refs < 0 then broken (utf8 "group over-released")
  else if g.refs = 0 then setGroup g.dropped

/-- Releases the group; nobody but its owner may hold a reference. -/
def freeGroup : TreeM Unit := do
  let g ← group
  if g.refs ≠ 1 then
    broken (utf8 "free group with " ++ Bytes.ofInt g.refs ++ utf8 " refs")
  else setGroup { g with refs := 0 }.dropped

/-- Keeps a node and its group alive through `forceFreeAll`. -/
def pin (r : RecId) : TreeM Unit := do
  let n ← node r
  if n.pinned then return
  update r fun n => { n with pinned := true }
  if !n.static then retain

def unpin (r : RecId) : TreeM Unit := do
  let n ← node r
  if !n.pinned then return
  update r fun n => { n with pinned := false }
  if !n.static then release

end TreeM

end OpTree
