import OpTree.Proofs.FreeList
import Mathlib.Algebra.Order.Ring.Int

/-!
# The accounts of a slab group

Every unit of the slabs is part of a live record, of a record on the free list or of the tail of the
last slab, and the counters of the group say how many there are of each. The free list goes through
the links of freed records, so nothing but allocating and freeing may touch those links.
-/

namespace OpTree

set_option autoImplicit false

namespace Node

/-- What the accounts of a group say about a record. -/
structure Entry where
  freed : Bool
  next : Option RecId
  size : Int

def entry (n : Node) : Entry := ⟨n.code == .freed, n.next, n.size⟩

/-- Kids and siblings are among the first `k` records. -/
structure Linked (k : Nat) (n : Node) : Prop where
  first : ∀ r ∈ n.first, r < k
  sib : ∀ r ∈ n.sib.target, r < k

theorem linked_blank {k : Nat} {n : Node} (hf : n.first = none) (hs : n.sib = {}) : n.Linked k := by
  constructor <;> simp [hf, hs]

theorem Linked.mono {k l : Nat} {n : Node} (h : n.Linked k) (hkl : k ≤ l) : n.Linked l where
  first r hr := Nat.lt_of_lt_of_le (h.first r hr) hkl
  sib r hr := Nat.lt_of_lt_of_le (h.sib r hr) hkl

theorem Linked.sibling {k : Nat} {n : Node} (h : n.Linked k) : ∀ r ∈ n.sibling?, r < k := by
  intro r hr
  unfold sibling? Sib.sibling? at hr
  split at hr
  · exact h.sib r hr
  · cases hr

structure Carved (k : Nat) (n : Node) : Prop extends Linked k n where
  slab : n.static = false

theorem Carved.mono {k l : Nat} {n : Node} (h : n.Carved k) (hkl : k ≤ l) : n.Carved l :=
  ⟨h.toLinked.mono hkl, h.slab⟩

theorem freed_of_entry {n n' : Node} (h : n'.entry = n.entry) : n'.code = .freed ↔ n.code = .freed := by
  have hf : (n'.code == Opcode.freed) = (n.code == Opcode.freed) := congrArg Entry.freed h
  simpa using hf

end Node

namespace Group

variable {g : Group} {k : Nat}

/-- No slab is overfull, and `k` records were carved in all. -/
structure Packed (g : Group) (k : Nat) : Prop where
  slab : ∀ s ∈ g.slabs, (s.count : Int) ≤ s.used ∧ s.used ≤ s.units
  count : (g.slabs.map Slab.count).sum = k

theorem room_nil (h : g.slabs = []) : g.room = 0 := by rw [room, h]

theorem room_cons {s : Slab} {rest : List Slab} (h : g.slabs = s :: rest) : g.room = s.units - s.used := by
  rw [room, h]

theorem Packed.room_nonneg (h : g.Packed k) : 0 ≤ g.room := by
  cases hs : g.slabs with
  | nil => exact Int.le_of_eq (room_nil hs).symm
  | cons s rest =>
    have := h.slab s (by simp [hs])
    rw [room_cons hs]
    omega

theorem exists_slab_of_room {size : Int} (hs : 1 ≤ size) (hr : size ≤ g.room) :
    ∃ s rest, g.slabs = s :: rest := by
  cases h : g.slabs with
  | nil =>
    rw [room_nil h] at hr
    omega
  | cons s rest => exact ⟨s, rest, rfl⟩

theorem carve_eq (g : Group) (size : Int) : g.carve size = { g with slabs := (g.carve size).slabs } := by
  unfold carve
  split <;> rfl

@[simp] theorem total_carve (g : Group) (size : Int) : (g.carve size).total = g.total := by rw [carve_eq]

@[simp] theorem live_carve (g : Group) (size : Int) : (g.carve size).live = g.live := by rw [carve_eq]

@[simp] theorem liveUnits_carve (g : Group) (size : Int) : (g.carve size).liveUnits = g.liveUnits := by
  rw [carve_eq]

@[simp] theorem freeCount_carve (g : Group) (size : Int) : (g.carve size).freeCount = g.freeCount := by
  rw [carve_eq]

@[simp] theorem released_carve (g : Group) (size : Int) : (g.carve size).released = g.released := by
  rw [carve_eq]

@[simp] theorem refs_carve (g : Group) (size : Int) : (g.carve size).refs = g.refs := by rw [carve_eq]

theorem Packed.carve {size : Int} (h : g.Packed k) (hs : 1 ≤ size) (hr : size ≤ g.room) :
    (g.carve size).Packed (k + 1) ∧ (g.carve size).room = g.room - size := by
  obtain ⟨s, rest, hslabs⟩ := exists_slab_of_room hs hr
  have hlast := h.slab s (by simp [hslabs])
  have hcount := h.count
  have hcarve : (g.carve size).slabs = { s with used := s.used + size, count := s.count + 1 } :: rest := by
    simp only [Group.carve, hslabs]
  rw [room_cons hslabs] at hr
  rw [hslabs, List.map_cons, List.sum_cons] at hcount
  refine ⟨⟨?_, ?_⟩, ?_⟩
  · intro s' hs'
    rw [hcarve] at hs'
    rcases List.mem_cons.mp hs' with rfl | hs'
    · simp only
      omega
    · exact h.slab s' (by simp [hslabs, hs'])
  · rw [hcarve, List.map_cons, List.sum_cons]
    simp only
    omega
  · rw [room_cons hcarve, room_cons hslabs]
    simp only
    omega

theorem Packed.grow {size : Int} (h : g.Packed k) (hs : 1 ≤ size) :
    (Arena.grow g size).Packed k ∧ size ≤ (Arena.grow g size).room ∧
      (Arena.grow g size).total = g.total + (Arena.grow g size).room := by
  have hslabs : (Arena.grow g size).slabs = ⟨g.nextUnits size, 0, 0⟩ :: g.slabs := rfl
  have hnext : size ≤ g.nextUnits size := Int.le_max_right _ _
  refine ⟨⟨?_, ?_⟩, ?_, ?_⟩
  · intro s hs'
    rw [hslabs] at hs'
    rcases List.mem_cons.mp hs' with rfl | hs'
    · simp only
      omega
    · exact h.slab s hs'
  · rw [hslabs, List.map_cons, List.sum_cons, h.count]
    exact Nat.zero_add k
  · rw [room_cons hslabs]
    simp only
    omega
  · rw [room_cons hslabs]
    simp only [Arena.grow]
    omega

end Group

namespace Arena

variable {a b : Arena} {g : Group} {fs : List RecId}

/-- Every pinned record holds one of the references that are not the owner's. -/
def Pinned (a : Arena) (refs : Int) : Prop :=
  ∃ ps : List RecId, (∀ r < a.recs.size, (a.node r).pinned = true → r ∈ ps) ∧ 1 + (ps.length : Int) ≤ refs

theorem Pinned.mono {refs : Int} (h : a.Pinned refs)
    (hp : ∀ r < b.recs.size, (b.node r).pinned = true → r < a.recs.size ∧ (a.node r).pinned = true) :
    b.Pinned refs := by
  obtain ⟨ps, hps, hlen⟩ := h
  refine ⟨ps, fun r hr hpin => ?_, hlen⟩
  obtain ⟨hlt, hpin⟩ := hp r hr hpin
  exact hps r hlt hpin

/-- The counters of `g` agree with the records, and `fs` is its free list. -/
structure Accounts (a : Arena) (g : Group) (fs : List RecId) : Prop where
  group : a.group? = some g
  kept : g.released = false
  chain : a.FreeChain g.free fs
  nodup : fs.Nodup
  mem_iff : ∀ r, r ∈ fs ↔ r < a.recs.size ∧ (a.node r).code = .freed
  count : g.freeCount = fs.length
  live : g.live + fs.length = a.recs.size
  units : g.total = g.liveUnits + (fs.map fun r => (a.node r).size).sum + g.room
  packed : g.Packed a.recs.size
  carved : ∀ r < a.recs.size, (a.node r).Carved a.recs.size
  pinned : a.Pinned g.refs

theorem Accounts.freeList (h : a.Accounts g fs) : a.FreeList fs where
  chain _ hg := Option.some.inj (h.group.symm.trans hg) ▸ h.chain
  nodup := h.nodup
  lt r hr := ((h.mem_iff r).mp hr).1
  freed r hr := ((h.mem_iff r).mp hr).2

theorem Accounts.amend {refs : Int} (h : a.Accounts g fs) (hg : b.group? = some { g with refs := refs })
    (hs : b.recs.size = a.recs.size) (he : ∀ r, (b.node r).entry = (a.node r).entry)
    (hc : ∀ r < b.recs.size, (b.node r).Carved b.recs.size) (hp : b.Pinned refs) :
    b.Accounts { g with refs := refs } fs where
  group := hg
  kept := h.kept
  chain := h.chain.congr fun r _ => congrArg Node.Entry.next (he r)
  nodup := h.nodup
  mem_iff r := by rw [h.mem_iff, hs, Node.freed_of_entry (he r)]
  count := h.count
  live := hs ▸ h.live
  units := by
    have hsizes : (fs.map fun r => (b.node r).size) = fs.map fun r => (a.node r).size :=
      List.map_congr_left fun r _ => congrArg Node.Entry.size (he r)
    rw [hsizes]
    exact h.units
  packed := hs ▸ ⟨h.packed.slab, h.packed.count⟩
  carved := hc
  pinned := hp

theorem Accounts.update {r : RecId} {f : Node → Node} (h : a.Accounts g fs)
    (he : (f (a.node r)).entry = (a.node r).entry) (hp : (f (a.node r)).pinned = (a.node r).pinned)
    (hc : r < a.recs.size → (f (a.node r)).Carved a.recs.size) : (a.update r f).Accounts g fs := by
  refine h.amend h.group (size_update ..) (fun q => ?_) (fun q hq => ?_) ?_
  · rcases node_update_cases (a := a) (r := r) (f := f) q with hq | ⟨rfl, hq⟩ <;> rw [hq]
    exact he
  · rw [size_update] at hq ⊢
    rcases node_update_cases (a := a) (r := r) (f := f) q with hn | ⟨rfl, hn⟩ <;> rw [hn]
    · exact h.carved q hq
    · exact hc hq
  · refine h.pinned.mono fun q hq hpin => ?_
    rw [size_update] at hq
    rcases node_update_cases (a := a) (r := r) (f := f) q with hn | ⟨rfl, hn⟩ <;> rw [hn] at hpin
    · exact ⟨hq, hpin⟩
    · exact ⟨hq, hp ▸ hpin⟩

theorem Accounts.free {r : RecId} (h : a.Accounts g fs) (hr : r < a.recs.size)
    (hlive : (a.node r).code ≠ .freed) : ∃ g' fs', (a.free g r).Accounts g' fs' := by
  have hsize : (a.free g r).recs.size = a.recs.size := size_update ..
  have hself : (a.free g r).node r =
      { code := .freed, ex := (a.node r).code, id := (a.node r).id, size := (a.node r).size, next := g.free } :=
    node_update_self hr _
  have hother : ∀ q ≠ r, (a.free g r).node q = a.node q := fun q hq => node_update_of_ne hq _
  have hnot : r ∉ fs := fun hm => hlive ((h.mem_iff r).mp hm).2
  have hne : ∀ q ∈ fs, q ≠ r := fun q hq he => hnot (he ▸ hq)
  have hcount := h.count
  have hlives := h.live
  have hunits := h.units
  refine ⟨_, r :: fs, rfl, h.kept, ⟨rfl, ?_⟩, List.nodup_cons.mpr ⟨hnot, h.nodup⟩, fun q => ?_, ?_, ?_, ?_,
    ?_, fun q hq => ?_, ?_⟩
  · rw [hself]
    exact h.chain.congr fun q hq => by rw [hother q (hne q hq)]
  · rw [List.mem_cons, hsize]
    by_cases hq : q = r
    · subst hq
      simp [hself, hr]
    · rw [hother q hq, h.mem_iff]
      simp [hq]
  · simp only [List.length_cons]
    omega
  · rw [hsize, List.length_cons]
    simp only
    omega
  · have hsizes : (fs.map fun q => ((a.free g r).node q).size) = fs.map fun q => (a.node q).size :=
      List.map_congr_left fun q hq => by rw [hother q (hne q hq)]
    rw [List.map_cons, List.sum_cons, hsizes, hself]
    have hroom : ∀ l u f c, { g with live := l, liveUnits := u, free := f, freeCount := c }.room = g.room :=
      fun _ _ _ _ => rfl
    rw [hroom]
    simp only
    omega
  · rw [hsize]
    exact ⟨h.packed.slab, h.packed.count⟩
  · rw [hsize] at hq ⊢
    by_cases he : q = r
    · subst he
      rw [hself]
      exact ⟨Node.linked_blank rfl rfl, rfl⟩
    · rw [hother q he]
      exact h.carved q hq
  · refine h.pinned.mono fun q hq hp => ?_
    rw [hsize] at hq
    by_cases he : q = r
    · subst he
      rw [hself] at hp
      cases hp
    · exact ⟨hq, hother q he ▸ hp⟩

/-- What allocating a record of `size` units leaves; no other record becomes live. -/
structure Obtained (a b : Arena) (size : Int) (r : RecId) : Prop where
  accounts : ∃ g fs, b.Accounts g fs
  size : size ≤ (b.node r).size
  live : ∀ q ≠ r, q < b.recs.size → (b.node q).code ≠ .freed →
    q < a.recs.size ∧ (b.node q).code = (a.node q).code ∧ (b.node q).size = (a.node q).size

theorem Accounts.reuse {size : Int} {r : RecId} (h : a.Accounts g fs) (hr : a.reuse? g size = some (r, b)) :
    Obtained a b size r := by
  obtain ⟨l, l', rfl, hsize, hre⟩ := h.freeList.reused h.group hr
  obtain ⟨o, hg⟩ := hre.group
  have hnode := hre.node
  have hnot : r ∉ l ++ l' := by
    have := h.nodup
    rw [List.nodup_middle, List.nodup_cons] at this
    exact this.1
  have hcode : ∀ q ≠ r, (b.node q).code = (a.node q).code ∧ (b.node q).size = (a.node q).size ∧
      (b.node q).pinned = (a.node q).pinned := by
    intro q hq
    rw [hre.other q hq]
    exact ⟨rfl, rfl, rfl⟩
  have hcount := h.count
  have hlives := h.live
  have hunits := h.units
  rw [List.length_append, List.length_cons] at hcount hlives
  rw [List.map_append, List.sum_append, List.map_cons, List.sum_cons] at hunits
  refine ⟨⟨_, l ++ l', hg, h.kept, hre.list.chain _ hg, hre.list.nodup, fun q => ?_, ?_, ?_, ?_, ?_,
    fun q hq => ?_, ?_⟩, hnode ▸ hsize, fun q hq hlt _ => ⟨hre.size ▸ hlt, (hcode q hq).1, (hcode q hq).2.1⟩⟩
  · rw [hre.size]
    by_cases hq : q = r
    · subst hq
      simp only [hnot, hnode, false_iff, not_and]
      intro _ hf
      cases hf
    · rw [(hcode q hq).1, ← h.mem_iff]
      simp [hq]
  · rw [List.length_append]
    simp only
    omega
  · rw [hre.size, List.length_append]
    simp only
    omega
  · have hsizes : ((l ++ l').map fun q => (b.node q).size) = (l ++ l').map fun q => (a.node q).size :=
      List.map_congr_left fun q hq => (hcode q fun he => hnot (he ▸ hq)).2.1
    rw [hsizes, List.map_append, List.sum_append]
    change g.total = _ + _ + g.room
    simp only
    omega
  · rw [hre.size]
    exact ⟨h.packed.slab, h.packed.count⟩
  · rw [hre.size] at hq ⊢
    by_cases he : q = r
    · subst he
      rw [hnode]
      exact ⟨Node.linked_blank rfl rfl, rfl⟩
    · have hc := h.carved q hq
      rw [hre.other q he]
      exact ⟨⟨hc.first, hc.sib⟩, hc.slab⟩
  · refine h.pinned.mono fun q hq hp => ?_
    rw [hre.size] at hq
    by_cases he : q = r
    · subst he
      rw [hnode] at hp
      cases hp
    · exact ⟨hq, (hcode q he).2.2 ▸ hp⟩

theorem node_pushed (a : Arena) (n : Node) (o : Option Group) :
    ({ a with recs := a.recs.push n, group? := o } : Arena).node a.recs.size = n :=
  node_push_self (a := { a with group? := o }) n

theorem node_pushed_of_lt {n : Node} {o : Option Group} {r : RecId} (h : r < a.recs.size) :
    ({ a with recs := a.recs.push n, group? := o } : Arena).node r = a.node r :=
  node_push_of_lt (a := { a with group? := o }) h

/-- What a record carved off the last slab leaves as it was. -/
structure Pushed (a b : Arena) (n : Node) : Prop where
  size : b.recs.size = a.recs.size + 1
  node : b.node a.recs.size = n
  keeps : ∀ r < a.recs.size, b.node r = a.node r

theorem pushed (a : Arena) (n : Node) (o : Option Group) :
    Pushed a { a with recs := a.recs.push n, group? := o } n where
  size := Array.size_push ..
  node := node_pushed a n o
  keeps _ hr := node_pushed_of_lt hr

theorem Accounts.carved_pushed {n : Node} (h : a.Accounts g fs) (hb : Pushed a b n)
    (hn : n.Carved (a.recs.size + 1)) : ∀ r < b.recs.size, (b.node r).Carved b.recs.size := by
  intro r hr
  rw [hb.size] at hr ⊢
  rcases Nat.lt_succ_iff_lt_or_eq.mp hr with hr | rfl
  · rw [hb.keeps r hr]
    exact (h.carved r hr).mono (Nat.le_succ _)
  · rw [hb.node]
    exact hn

theorem Pinned.pushed {n : Node} {refs : Int} (h : a.Pinned refs) (hb : Pushed a b n) (hn : n.pinned = false) :
    b.Pinned refs := by
  refine h.mono fun r hr hp => ?_
  rw [hb.size] at hr
  rcases Nat.lt_succ_iff_lt_or_eq.mp hr with hr | rfl
  · exact ⟨hr, hb.keeps r hr ▸ hp⟩
  · rw [hb.node, hn] at hp
    cases hp

theorem Accounts.sizes_pushed {n : Node} (h : a.Accounts g fs) (hb : Pushed a b n) :
    (fs.map fun r => (b.node r).size) = fs.map fun r => (a.node r).size :=
  List.map_congr_left fun r hr => by rw [hb.keeps r (h.freeList.lt r hr)]

theorem Accounts.mem_pushed {n : Node} (h : a.Accounts g fs) (hb : Pushed a b n) {r : RecId} (hr : r ≠ a.recs.size) :
    r ∈ fs ↔ r < b.recs.size ∧ (b.node r).code = .freed := by
  rw [h.mem_iff, hb.size]
  constructor
  · rintro ⟨hlt, hcode⟩
    exact ⟨Nat.lt_succ_of_lt hlt, hb.keeps r hlt ▸ hcode⟩
  · rintro ⟨hlt, hcode⟩
    have hlt := Nat.lt_of_le_of_ne (Nat.le_of_lt_succ hlt) hr
    exact ⟨hlt, hb.keeps r hlt ▸ hcode⟩

theorem Accounts.carve_live {size : Int} (h : a.Accounts g fs) (hs : 1 ≤ size) (hr : size ≤ g.room)
    (hb : Pushed a b { size := size })
    (hg : b.group? = some { g.carve size with live := g.live + 1, liveUnits := g.liveUnits + size }) :
    b.Accounts { g.carve size with live := g.live + 1, liveUnits := g.liveUnits + size } fs := by
  obtain ⟨hpacked, hroom⟩ := h.packed.carve hs hr
  have hlives := h.live
  have hunits := h.units
  have hnew : a.recs.size ∉ fs := fun hm => Nat.lt_irrefl _ (h.freeList.lt _ hm)
  refine ⟨hg, ?_, ?_, h.nodup, fun r => ?_, ?_, ?_, ?_, ?_, ?_, ?_⟩
  · simpa using h.kept
  · rw [free_carve]
    exact h.chain.congr fun r hr => by rw [hb.keeps r (h.freeList.lt r hr)]
  · by_cases he : r = a.recs.size
    · subst he
      simp only [hnew, hb.node, false_iff, not_and]
      intro _ hf
      cases hf
    · exact h.mem_pushed hb he
  · simpa using h.count
  · rw [hb.size]
    push_cast
    omega
  · rw [h.sizes_pushed hb]
    change (g.carve size).total = g.liveUnits + size + _ + (g.carve size).room
    rw [Group.total_carve, hroom]
    omega
  · rw [hb.size]
    exact ⟨hpacked.slab, hpacked.count⟩
  · exact h.carved_pushed hb ⟨Node.linked_blank rfl rfl, rfl⟩
  · simpa using h.pinned.pushed hb rfl

theorem Accounts.carve_freed (h : a.Accounts g fs) (hr : 1 ≤ g.room)
    (hb : Pushed a b { code := .freed, size := g.room, next := g.free })
    (hg : b.group? = some { g.carve g.room with free := some a.recs.size, freeCount := g.freeCount + 1 }) :
    b.Accounts { g.carve g.room with free := some a.recs.size, freeCount := g.freeCount + 1 }
      (a.recs.size :: fs) := by
  obtain ⟨hpacked, hroom⟩ := h.packed.carve hr (Int.le_refl _)
  have hcount := h.count
  have hlives := h.live
  have hunits := h.units
  have hnew : a.recs.size ∉ fs := fun hm => Nat.lt_irrefl _ (h.freeList.lt _ hm)
  refine ⟨hg, ?_, ⟨rfl, ?_⟩, List.nodup_cons.mpr ⟨hnew, h.nodup⟩, fun r => ?_, ?_, ?_, ?_, ?_, ?_, ?_⟩
  · simpa using h.kept
  · rw [hb.node]
    exact h.chain.congr fun r hr => by rw [hb.keeps r (h.freeList.lt r hr)]
  · rw [List.mem_cons]
    by_cases he : r = a.recs.size
    · subst he
      simp [hb.node, hb.size]
    · simp only [he, false_or]
      exact h.mem_pushed hb he
  · rw [List.length_cons]
    push_cast
    omega
  · rw [hb.size, List.length_cons]
    simp only [Group.live_carve]
    push_cast
    omega
  · rw [List.map_cons, List.sum_cons, h.sizes_pushed hb, hb.node]
    change (g.carve g.room).total = (g.carve g.room).liveUnits + (g.room + _) + (g.carve g.room).room
    rw [Group.total_carve, Group.liveUnits_carve, hroom]
    omega
  · rw [hb.size]
    exact ⟨hpacked.slab, hpacked.count⟩
  · exact h.carved_pushed hb ⟨Node.linked_blank rfl rfl, rfl⟩
  · simpa using h.pinned.pushed hb rfl

theorem Accounts.scrap (h : a.Accounts g fs) :
    ∃ fs', ({ (a.scrap g).1 with group? := some (a.scrap g).2 } : Arena).Accounts (a.scrap g).2 fs' ∧
      (a.scrap g).2.room = 0 ∧ ∀ q < (a.scrap g).1.recs.size, ((a.scrap g).1.node q).code ≠ .freed →
        q < a.recs.size ∧ (a.scrap g).1.node q = a.node q := by
  have hroom := h.packed.room_nonneg
  by_cases hle : g.room ≤ 0
  · have heq : a.scrap g = (a, g) := by simp [Arena.scrap, hle]
    rw [heq, ← h.group]
    exact ⟨fs, h, Int.le_antisymm hle hroom, fun q hq _ => ⟨hq, rfl⟩⟩
  · have hone : 1 ≤ g.room := Int.not_le.mp hle
    have heq : a.scrap g =
        ({ a with recs := a.recs.push { code := .freed, size := g.room, next := g.free } },
          { g.carve g.room with free := some a.recs.size, freeCount := g.freeCount + 1 }) := by
      simp [Arena.scrap, hle]
    rw [heq]
    refine ⟨_, h.carve_freed hone (pushed ..) rfl, ?_, fun q hq hlive => ?_⟩
    · exact (h.packed.carve hone (Int.le_refl _)).2.trans (Int.sub_self _)
    · rw [Array.size_push] at hq
      rcases Nat.lt_succ_iff_lt_or_eq.mp hq with hq | rfl
      · exact ⟨hq, node_push_of_lt hq⟩
      · rw [node_push_self] at hlive
        exact absurd rfl hlive

theorem Accounts.grow {size : Int} (h : a.Accounts g fs) (hs : 1 ≤ size) (hr : g.room = 0) :
    ({ a with group? := some (Arena.grow g size) } : Arena).Accounts (Arena.grow g size) fs := by
  obtain ⟨hpacked, -, htotal⟩ := h.packed.grow hs
  have hunits := h.units
  refine ⟨rfl, h.kept, h.chain.withGroup, h.nodup, h.mem_iff, h.count, h.live, ?_, hpacked, h.carved, h.pinned⟩
  simp only [node_withGroup]
  rw [htotal, hunits, hr]
  change _ = g.liveUnits + _ + _
  omega

theorem Accounts.carve {size : Int} {r : RecId} (h : a.Accounts g fs) (hs : 1 ≤ size)
    (hr : a.carve g size = (r, b)) : Obtained a b size r := by
  unfold Arena.carve at hr
  split at hr
  rename_i c g' hc
  simp only [Prod.mk.injEq] at hr
  obtain ⟨rfl, rfl⟩ := hr
  obtain ⟨fs', hacc, hroom, hlive⟩ : ∃ fs', ({ c with group? := some g' } : Arena).Accounts g' fs' ∧
      size ≤ g'.room ∧ ∀ q < c.recs.size, (c.node q).code ≠ .freed → q < a.recs.size ∧ c.node q = a.node q := by
    by_cases hneeds : needsSlab g size = true
    · simp only [hneeds, if_true, Prod.mk.injEq] at hc
      obtain ⟨rfl, rfl⟩ := hc
      obtain ⟨fs', hacc, hzero, hlive⟩ := h.scrap
      exact ⟨fs', hacc.grow hs hzero, (hacc.packed.grow hs).2.1, hlive⟩
    · simp only [hneeds, Bool.false_eq_true, if_false, Prod.mk.injEq] at hc
      obtain ⟨rfl, rfl⟩ := hc
      simp only [needsSlab, Bool.or_eq_true, decide_eq_true_eq, not_or, Int.not_lt] at hneeds
      rw [← h.group]
      exact ⟨fs, h, hneeds.2, fun q hq _ => ⟨hq, rfl⟩⟩
  refine ⟨⟨_, fs', hacc.carve_live hs hroom (pushed ..) rfl⟩, ?_, fun q hq hlt hl => ?_⟩
  · exact Int.le_of_eq (by rw [node_pushed])
  · have hlt : q < c.recs.size := by
      rw [Array.size_push] at hlt
      exact Nat.lt_of_le_of_ne (Nat.le_of_lt_succ hlt) hq
    rw [node_pushed_of_lt hlt] at hl ⊢
    obtain ⟨hlt, hnode⟩ := hlive q hlt hl
    exact ⟨hlt, by rw [hnode], by rw [hnode]⟩

theorem Accounts.alloc {size : Int} {r : RecId} (h : a.Accounts g fs) (hr : a.alloc g size = (r, b)) :
    Obtained a b (max size 1) r := by
  unfold Arena.alloc at hr
  simp only at hr
  split at hr
  · rename_i p hp
    exact h.reuse (hp.trans (congrArg some hr))
  · exact h.carve (Int.le_max_right _ _) hr

end Arena

end OpTree
