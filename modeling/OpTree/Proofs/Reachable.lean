import OpTree.Proofs.Invariants

/-!
# Reachable machines

What holds of every machine that a unit can bring about: the stack has room for its items, nothing
refers to a cell that is not there, and an array at a slot has the shape that the slot declares.
-/

namespace OpTree

set_option autoImplicit false

namespace Machine

/-- What a slot may hold. -/
def Fits (p : Pad) (h : Heap) (i : Nat) : PadSlot → Prop
  | .scalar c => c < h.cells.size
  | .array a => a < h.arrays.size ∧ (h.array a).shape = p.shape i
  | .hash _ => True

structure Sound (p : Pad) (m : Machine) : Prop where
  room : m.height ≤ m.slots.size
  truths : 2 ≤ m.heap.cells.size
  refers : ∀ c : Nat, m.heap.Refers c → c < m.heap.cells.size
  pad : ∀ i s, m.pad[i]? = some s → Fits p m.heap i s
  loops : ∀ l ∈ m.loops, Fits p m.heap l.targ.toNat l.saved

/-- The machines that the ops of a unit lead to, in whatever order they are executed. -/
inductive Reachable (p : Pad) : Machine → Prop where
  /-- A machine may be made on cells that are there already. -/
  | start {cells : Array Cell} {m : Machine} (h : ofPadOn? { cells := initialHeap.cells ++ cells } p = some m) :
      Reachable p m
  | step {m : Machine} (o : Node) (h : Reachable p m) : Reachable p ((Exec.step (some p) o).after m)
  /-- A caller may set up the machine for the next run. -/
  | setup {m : Machine} (gimme : Want) (leave : Option RecId) (hook : WarnHook) (noWarn : Bool)
      (warnings heard : List Bytes) (writer : List Bytes → Bytes → Option Bytes) (out : List Bytes)
      (result : List Value) (kept : Nat → Option CellId) (steps : Nat) (h : Reachable p m) :
      Reachable p { m with gimme := gimme, leave := leave, hook := hook, noWarn := noWarn,
                           warnings := warnings, heard := heard, writer := writer, out := out,
                           result := result, kept := kept, steps := steps }

variable {p : Pad} {m : Machine} {h h' : Heap}

theorem Fits.evolves {i : Nat} {s : PadSlot} (hs : Fits p h i s) (he : h.Evolves h') :
    Fits p h' i s := by
  cases s with
  | scalar c => exact Nat.lt_of_lt_of_le hs he.cells
  | array a => exact ⟨Nat.lt_of_lt_of_le hs.1 he.arrays, (he.shape a hs.1).trans hs.2⟩
  | hash t => trivial

theorem refers_lt_of_evolves (hc : ∀ c : Nat, h.Refers c → c < h.cells.size) (he : h.Evolves h')
    {c : Nat} (hr : h'.Refers c) : c < h'.cells.size := by
  rcases he.refers c hr with hr | hr
  · exact Nat.lt_of_lt_of_le (hc c hr) he.cells
  · exact hr.2

/-- A fresh container fits. -/
theorem fits_fresh (p : Pad) (h : Heap) {targ : Int} (ht : 0 ≤ targ) :
    Fits p (fresh (some p) h targ).2 targ.toNat (fresh (some p) h targ).1 := by
  have hcast : ((targ.toNat : Nat) : Int) = targ := Int.toNat_of_nonneg ht
  unfold fresh
  simp only
  split
  · simp [Fits, Heap.newArray, Heap.array, Arr.ofShape, hcast]
  · trivial
  · simp [Fits, Heap.newCell]

theorem pad_set {pad : Array PadSlot} {j : Nat} {x : PadSlot}
    (hp : ∀ i s, pad[i]? = some s → Fits p h i s) (hx : Fits p h j x) {i : Nat} {s : PadSlot}
    (hs : (pad.setIfInBounds j x)[i]? = some s) : Fits p h i s := by
  rw [Array.getElem?_setIfInBounds] at hs
  split at hs
  · subst j
    split at hs
    · obtain rfl := Option.some.inj hs
      exact hx
    · exact absurd hs (by simp)
  · exact hp i s hs

theorem Sound.heap (hm : m.Sound p) (he : m.heap.Evolves h) : Sound p { m with heap := h } where
  room := hm.room
  truths := Nat.le_trans hm.truths he.cells
  refers _ hr := refers_lt_of_evolves hm.refers he hr
  pad i s hs := (hm.pad i s hs).evolves he
  loops l hl := (hm.loops l hl).evolves he

theorem admits_sound (p : Pad) : Admits (some p) fun m m' => m.Sound p → m'.Sound p where
  refl _ := id
  trans h h' hm := h' (h hm)
  stack _ _ _ _ hroom hm := ⟨hroom hm.room, hm.truths, hm.refers, hm.pad, hm.loops⟩
  notes _ _ _ _ _ _ hm := ⟨hm.room, hm.truths, hm.refers, hm.pad, hm.loops⟩
  heap _ _ he hm := hm.heap he.toEvolves
  scalar m i c hc hm := by
    have hfit : Fits p m.heap i (.scalar c) := hc
    exact ⟨hm.room, hm.truths, hm.refers, fun _ _ hs => pad_set hm.pad hfit hs, hm.loops⟩
  fresh m targ ht hm := by
    have hh := hm.heap (fresh_evolves (some p) m.heap targ)
    exact ⟨hh.room, hh.truths, hh.refers, fun _ _ hs => pad_set hh.pad (fits_fresh p m.heap ht) hs, hh.loops⟩
  enter m l hl hm := by
    refine ⟨hm.room, hm.truths, hm.refers, hm.pad, fun k hk => ?_⟩
    rcases List.mem_cons.mp hk with rfl | hk
    · exact hm.pad _ _ hl
    · exact hm.loops k hk
  advance m l rest cur hl hm := by
    refine ⟨hm.room, hm.truths, hm.refers, hm.pad, fun k hk => ?_⟩
    rcases List.mem_cons.mp hk with rfl | hk
    · exact hm.loops l (by rw [hl]; exact List.mem_cons_self ..)
    · exact hm.loops k (by rw [hl]; exact List.mem_cons_of_mem l hk)
  close m l rest hl hm :=
    ⟨hm.room, hm.truths, hm.refers, hm.pad, fun k hk => hm.loops k (by rw [hl]; exact List.mem_cons_of_mem l hk)⟩
  restore m l rest hl hm := by
    refine ⟨hm.room, hm.truths, hm.refers, fun i s hs => ?_, fun k hk => ?_⟩
    · exact pad_set hm.pad (hm.loops l (by rw [hl]; exact List.mem_cons_self ..)) hs
    · exact hm.loops k (by rw [hl]; exact List.mem_cons_of_mem l hk)

theorem not_refers_cells {cells : Array Cell} (c : CellId) : ¬ Heap.Refers { cells := cells } c := by
  intro hr
  cases hr with
  | array a hc => simp [Heap.array] at hc
  | table t k hc => simp [Heap.table] at hc
  | glob g hc => simp [Heap.glob] at hc

theorem pad_push {pad : Array PadSlot} {x : PadSlot} (hp : ∀ i s, pad[i]? = some s → Fits p h i s)
    (hx : Fits p h pad.size x) {i : Nat} {s : PadSlot} (hs : (pad.push x)[i]? = some s) :
    Fits p h i s := by
  rw [Array.getElem?_push] at hs
  split at hs
  · subst i
    obtain rfl := Option.some.inj hs
    exact hx
  · exact hp i s hs

theorem pad_range (p : Pad) {cells : Array Cell} (h2 : 2 ≤ cells.size) (n : Nat) :
    let s := (List.range n).foldl (fun (s : Array PadSlot × Heap) (i : Nat) =>
      (s.1.push (fresh (some p) s.2 i).1, (fresh (some p) s.2 i).2)) (#[], { cells := cells })
    s.1.size = n ∧ 2 ≤ s.2.cells.size ∧ (∀ c : Nat, s.2.Refers c → c < s.2.cells.size) ∧
      ∀ i x, s.1[i]? = some x → Fits p s.2 i x := by
  induction n with
  | zero =>
    refine ⟨rfl, h2, fun c hr => absurd hr (not_refers_cells c), fun i x hx => ?_⟩
    simp at hx
  | succ n ih =>
    simp only [List.range_succ, List.foldl_append, List.foldl_cons, List.foldl_nil] at ih ⊢
    generalize (List.range n).foldl _ _ = s at ih ⊢
    obtain ⟨hsize, htruths, hrefers, hpad⟩ := ih
    have he := fresh_evolves (some p) s.2 (n : Int)
    refine ⟨by simp [hsize], Nat.le_trans htruths he.cells, fun c hr => refers_lt_of_evolves hrefers he hr,
      fun i x hx => ?_⟩
    refine pad_push (fun i x hx => (hpad i x hx).evolves he) ?_ hx
    rw [hsize]
    exact fits_fresh p s.2 (Int.natCast_nonneg n)

theorem sound_ofPad {cells : Array Cell} (h2 : 2 ≤ cells.size) (hp : ofPadOn? { cells := cells } p = some m) :
    m.Sound p := by
  unfold ofPadOn? at hp
  simp only at hp
  split at hp
  · obtain rfl := Option.some.inj hp
    obtain ⟨-, htruths, hrefers, hpad⟩ := pad_range p h2 p.size
    exact ⟨Nat.le_refl _, htruths, hrefers, hpad, by simp⟩
  · exact absurd hp (by simp)

theorem Reachable.sound (hm : Reachable p m) : m.Sound p := by
  induction hm with
  | start h => exact sound_ofPad (by simp [initialHeap]) h
  | step o h ih => exact Exec.within_step (admits_sound p) o _ ih
  | setup gimme leave hook noWarn warnings heard writer out result kept steps h ih =>
    exact ⟨ih.room, ih.truths, ih.refers, ih.pad, ih.loops⟩

end Machine

end OpTree
