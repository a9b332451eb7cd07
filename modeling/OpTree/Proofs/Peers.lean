import OpTree.Proofs.Reachable
import Mathlib.Data.List.Forall2

/-!
# Machines that nobody can tell apart

Two machines are peers if they differ at most in their stacks, in the op that a warning names, and
in hidden cells: new ones that nothing refers to. A computation on the one and a computation on the
other go together if from peers they lead to peers, or fail in the same way.
-/

namespace OpTree

set_option autoImplicit false

/-- Warnings that differ at most in the op they name. -/
inductive SameWarning : Bytes → Bytes → Prop where
  | refl (x : Bytes) : SameWarning x x
  | op (before after : Bytes) (t t' : Opcode) :
      SameWarning (before ++ t.description ++ after) (before ++ t'.description ++ after)

/-- Failures that differ at most in the op named by the warning they come from. -/
inductive SameFailure : Failure → Failure → Prop where
  | refl (e : Failure) : SameFailure e e
  | warning {x y : Bytes} (h : SameWarning x y) : SameFailure (.plain x) (.plain y)

/-- A hook that answers alike to warnings that differ in the names of ops only. -/
def WarnHook.Blind : WarnHook → Prop
  | record => True
  | handle answer => ∀ texts texts' text text', List.Forall₂ SameWarning texts texts' → SameWarning text text' →
    Option.Rel SameFailure (answer texts text) (answer texts' text')

theorem WarnHook.blind_escalate : escalate.Blind :=
  fun _ _ _ _ _ h => .some (.warning h)

theorem WarnHook.blind_ignore : ignore.Blind :=
  fun _ _ _ _ _ _ => .none

namespace Heap

variable {α : Type} {h₀ h h' : Heap} {hid : List CellId}

/-- Two heaps that started as `h₀` and differ in the hidden cells only. -/
structure Peer (h₀ : Heap) (hid : List CellId) (h h' : Heap) : Prop where
  evolves : h₀.Evolves h
  rest : h' = { h with cells := h'.cells }
  size : h'.cells.size = h.cells.size
  cell : ∀ c : Nat, c ∉ hid → h'.cell c = h.cell c
  hidden : ∀ c : Nat, c ∈ hid → h₀.cells.size ≤ c ∧ c < h.cells.size ∧ ¬ h.Refers c

theorem Peer.refl (h : Heap) : Peer h [] h h :=
  ⟨.refl h, rfl, rfl, fun _ _ => rfl, fun _ hc => absurd hc List.not_mem_nil⟩

theorem Peer.array (hp : Peer h₀ hid h h') (a : ArrayId) : h'.array a = h.array a := by
  rw [hp.rest]
  rfl

theorem Peer.table (hp : Peer h₀ hid h h') (t : TableId) : h'.table t = h.table t := by
  rw [hp.rest]
  rfl

theorem Peer.not_hidden (hp : Peer h₀ hid h h') {c : Nat} (hc : h.Refers c) : c ∉ hid :=
  fun hm => (hp.hidden c hm).2.2 hc

theorem Peer.refers_lt (hp : Peer h₀ hid h h') (h₀c : ∀ c : Nat, h₀.Refers c → c < h₀.cells.size)
    {c : Nat} (hc : h.Refers c) : c < h.cells.size :=
  Machine.refers_lt_of_evolves h₀c hp.evolves hc

theorem Peer.still_hidden {k : Heap} (hp : Peer h₀ hid h h') (he : h.Evolves k) {c : Nat}
    (hc : c ∈ hid) : h₀.cells.size ≤ c ∧ c < k.cells.size ∧ ¬ k.Refers c := by
  obtain ⟨hle, hlt, hr⟩ := hp.hidden c hc
  refine ⟨hle, Nat.lt_of_lt_of_le hlt he.cells, fun hk => ?_⟩
  rcases he.refers c hk with hk | hk
  · exact hr hk
  · exact absurd hlt (Nat.not_lt.mpr hk.1)

/-- A heap operation that looks at no cell: what it answers and what it does elsewhere does not
depend on what the cells hold. -/
def Blind (f : Heap → α × Heap) : Prop :=
  ∀ (h : Heap) (cs : Array Cell), cs.size = h.cells.size → ∃ new : Array Cell,
    (f h).2.cells = h.cells ++ new ∧ (f { h with cells := cs }).1 = (f h).1 ∧
      (f { h with cells := cs }).2 = { (f h).2 with cells := cs ++ new }

theorem cell_append {cs ds new : Array Cell} (hs : ds.size = cs.size) {c : Nat}
    (hc : ds.getD c {} = cs.getD c {}) : (ds ++ new).getD c {} = (cs ++ new).getD c {} := by
  simp only [Array.getD_eq_getD_getElem?] at hc ⊢
  by_cases hlt : c < cs.size
  · rwa [Array.getElem?_append_left hlt, Array.getElem?_append_left (hs ▸ hlt)]
  · have hle : cs.size ≤ c := Nat.not_lt.mp hlt
    rw [Array.getElem?_append_right hle, Array.getElem?_append_right (hs ▸ hle), hs]

theorem Peer.blind {f : Heap → α × Heap} (hp : Peer h₀ hid h h') (hf : Blind f)
    (he : h.Evolves (f h).2) : (f h').1 = (f h).1 ∧ Peer h₀ hid (f h).2 (f h').2 := by
  obtain ⟨new, hcells, hval, hheap⟩ := hf h h'.cells hp.size
  rw [← hp.rest] at hval hheap
  refine ⟨hval, hp.evolves.trans he, ?_, ?_, fun c hc => ?_, fun c hc => hp.still_hidden he hc⟩
  · rw [hheap]
  · rw [hheap, hcells, Array.size_append, Array.size_append, hp.size]
  · rw [hheap]
    simp only [Heap.cell, hcells]
    exact cell_append hp.size (hp.cell c hc)

theorem Peer.store (hp : Peer h₀ hid h h') (c : Nat) (v : Value) :
    Peer h₀ hid (h.store c v) (h'.store c v) := by
  have he := h.store_evolves c v
  refine ⟨hp.evolves.trans he, ?_, ?_, fun d hd => ?_, fun d hd => hp.still_hidden he hd⟩
  · conv => lhs; rw [hp.rest]
    rfl
  · simp [Heap.store, hp.size]
  · have hcell := hp.cell d hd
    have hsize := hp.size
    simp only [Heap.store, Heap.cell, Array.getD_eq_getD_getElem?, Array.getElem?_modify] at hcell ⊢
    by_cases he : c = d
    · subst he
      by_cases hlt : c < h.cells.size
      · have hlt' : c < h'.cells.size := hsize ▸ hlt
        simp only [Array.getElem?_eq_getElem hlt, Array.getElem?_eq_getElem hlt',
          Option.getD_some] at hcell
        simp [hlt, hlt', hcell]
      · have hlt' : ¬ c < h'.cells.size := hsize ▸ hlt
        simp [hlt, hlt']
    · simp [he, hcell]

theorem Refers.of_cells {cs : Array Cell} {c : CellId} (hr : ({ h with cells := cs } : Heap).Refers c) :
    h.Refers c := by
  cases hr with
  | array a hc => exact .array a hc
  | table t k hc => exact .table t k hc
  | glob g hc => exact .glob g hc

theorem Peer.hide (hp : Peer h₀ hid h h') (h₀c : ∀ c : Nat, h₀.Refers c → c < h₀.cells.size)
    (v v' : Value) (ro ro' : Bool) :
    Peer h₀ (h.cells.size :: hid) (h.newCell v ro).2 (h'.newCell v' ro').2 := by
  have he := h.newCell_evolves v ro
  refine ⟨hp.evolves.trans he, ?_, ?_, fun c hc => ?_, fun c hc => ?_⟩
  · conv => lhs; rw [hp.rest]
    rfl
  · simp [newCell, hp.size]
  · have hne : c ≠ h.cells.size := fun h => hc (h ▸ List.mem_cons_self ..)
    have hcell := hp.cell c fun hm => hc (List.mem_cons_of_mem _ hm)
    simp only [newCell, Heap.cell, Array.getD_eq_getD_getElem?, Array.getElem?_push] at hcell ⊢
    rw [if_neg hne, if_neg (hp.size ▸ hne)]
    exact hcell
  · rcases List.mem_cons.mp hc with rfl | hc
    · refine ⟨hp.evolves.cells, by simp [newCell], fun hr => ?_⟩
      exact Nat.lt_irrefl _ (hp.refers_lt h₀c hr.of_cells)
    · exact hp.still_hidden he hc

theorem blind_newCell (v : Value) (ro : Bool) : Blind fun h => h.newCell v ro := by
  intro h cs hs
  exact ⟨#[⟨v, ro⟩], by simp [newCell], by simp [newCell, hs], by simp [newCell]⟩

theorem blind_newArray (x : Arr) : Blind fun h => h.newArray x := fun h cs _ =>
  ⟨#[], by simp [newArray], rfl, by simp [newArray]⟩

theorem blind_newTable : Blind newTable := fun h cs _ =>
  ⟨#[], by simp [newTable], rfl, by simp [newTable]⟩

theorem blind_fetchElem (a : ArrayId) (i : Int64) (create : Bool) :
    Blind fun h => h.fetchElem a i create := by
  intro h cs hs
  have ha : ({ h with cells := cs } : Heap).array a = h.array a := rfl
  simp only [fetchElem, ha]
  split
  · exact ⟨#[], by simp, rfl, by simp⟩
  · split
    · exact ⟨#[], by simp, rfl, by simp⟩
    · split
      · exact ⟨#[⟨.undefined, false⟩], by simp [newCell], by simp [newCell, hs], by simp [newCell, hs]⟩
      · exact ⟨#[], by simp, rfl, by simp⟩

theorem blind_fetchKey (t : TableId) (k : Bytes) (create : Bool) :
    Blind fun h => h.fetchKey t k create := by
  intro h cs hs
  have ht : ({ h with cells := cs } : Heap).table t = h.table t := rfl
  simp only [fetchKey, ht]
  split
  · exact ⟨#[], by simp, rfl, by simp⟩
  · split
    · exact ⟨#[⟨.undefined, false⟩], by simp [newCell], by simp [newCell, hs], by simp [newCell, hs]⟩
    · exact ⟨#[], by simp, rfl, by simp⟩

theorem blind_takeElem (a : ArrayId) (i : Int64) : Blind fun h => h.takeElem a i := fun h cs _ =>
  ⟨#[], by simp [takeElem], rfl, by simp [takeElem, array]⟩

theorem blind_takeKey (t : TableId) (k : Bytes) : Blind fun h => h.takeKey t k := fun h cs _ =>
  ⟨#[], by simp [takeKey], rfl, by simp [takeKey, table]⟩

theorem blind_globNamed (name : Bytes) : Blind fun h => h.globNamed name := by
  intro h cs _
  simp only [globNamed]
  split <;> exact ⟨#[], by simp, rfl, by simp⟩

theorem blind_globArray (g : GlobId) : Blind fun h => h.globArray g := by
  intro h cs _
  have hg : ({ h with cells := cs } : Heap).glob g = h.glob g := rfl
  simp only [globArray, hg]
  split
  · exact ⟨#[], by simp, rfl, by simp⟩
  · exact ⟨#[], by simp [newArray], rfl, by simp [newArray]⟩

theorem blind_globTable (g : GlobId) : Blind fun h => h.globTable g := by
  intro h cs _
  have hg : ({ h with cells := cs } : Heap).glob g = h.glob g := rfl
  simp only [globTable, hg]
  split
  · exact ⟨#[], by simp, rfl, by simp⟩
  · exact ⟨#[], by simp [newTable], rfl, by simp [newTable]⟩

theorem refers_of_get {a : ArrayId} {j : Int} {c : CellId} (hc : (h.array a).get? j = some c) :
    h.Refers c := by
  unfold Arr.get? at hc
  split at hc
  · exact absurd hc (by simp)
  · exact .array a (Array.mem_of_getElem? (Option.join_eq_some_iff.mp hc))

theorem refers_of_key {t : TableId} {k : Bytes} {c : CellId} (hc : (h.table t).get? k = some c) :
    h.Refers c := by
  obtain ⟨⟨k', c'⟩, he, rfl⟩ := Option.map_eq_some_iff.mp hc
  exact .table t k' (Array.mem_of_find?_eq_some he)

theorem Peer.size_not_hidden (hp : Peer h₀ hid h h') : h.cells.size ∉ hid := fun hm =>
  Nat.lt_irrefl _ (hp.hidden _ hm).2.1

theorem Peer.elem_not_hidden (hp : Peer h₀ hid h h') {a : ArrayId} {i : Int64} {create : Bool}
    {c : CellId} (hc : (h.fetchElem a i create).1.1 = some c) : c ∉ hid := by
  simp only [fetchElem] at hc
  split at hc
  · exact absurd hc (by simp)
  · split at hc
    · rename_i hget
      obtain rfl := Option.some.inj hc
      exact hp.not_hidden (refers_of_get hget)
    · split at hc
      · obtain rfl := Option.some.inj hc
        exact hp.size_not_hidden
      · exact absurd hc (by simp)

theorem Peer.key_not_hidden (hp : Peer h₀ hid h h') {t : TableId} {k : Bytes} {create : Bool}
    {c : CellId} (hc : (h.fetchKey t k create).1 = some c) : c ∉ hid := by
  simp only [fetchKey] at hc
  split at hc
  · rename_i hget
    obtain rfl := Option.some.inj hc
    exact hp.not_hidden (refers_of_key hget)
  · split at hc
    · obtain rfl := Option.some.inj hc
      exact hp.size_not_hidden
    · exact absurd hc (by simp)

theorem refers_of_takeElem {a : ArrayId} {i : Int64} {c : CellId} (hc : (h.takeElem a i).1 = some c) :
    h.Refers c := by
  simp only [takeElem, Arr.take] at hc
  split at hc
  · exact absurd hc (by simp)
  · exact refers_of_get hc

theorem refers_of_takeKey {t : TableId} {k : Bytes} {c : CellId} (hc : (h.takeKey t k).1 = some c) :
    h.Refers c := refers_of_key hc

end Heap

namespace Machine

/-- The machine apart from its stack and its count of steps. -/
def offStack (m : Machine) : Machine :=
  { m with slots := #[], height := 0, marks := [], steps := 0 }

def core (m : Machine) : Machine := { m.offStack with heap := {}, warnings := [], heard := [] }

variable {h₀ : Heap} {hid : List CellId} {m m' n n' : Machine}

def Shown (hid : List CellId) (h : Heap) : PadSlot → Prop
  | .scalar c => c ∉ hid ∧ c < h.cells.size
  | _ => True

theorem Shown.mono {h h' : Heap} {s : PadSlot} (hs : Shown hid h s)
    (hle : h.cells.size ≤ h'.cells.size) : Shown hid h' s := by
  cases s with
  | scalar c => exact ⟨hs.1, Nat.lt_of_lt_of_le hs.2 hle⟩
  | array a => trivial
  | hash t => trivial

theorem Shown.hide {h h' : Heap} {s : PadSlot} (hs : Shown hid h s)
    (hle : h.cells.size ≤ h'.cells.size) : Shown (h.cells.size :: hid) h' s := by
  cases s with
  | scalar c =>
    refine ⟨fun hm => ?_, Nat.lt_of_lt_of_le hs.2 hle⟩
    rcases List.mem_cons.mp hm with rfl | hm
    · exact Nat.lt_irrefl _ hs.2
    · exact hs.1 hm
  | array a => trivial
  | hash t => trivial

/-- Two machines whose heaps started as `h₀` and that differ in stack, in the ops named by warnings
and in hidden cells only. Warnings are reported alike, and each const op makes a cell of its own. -/
structure Peer (h₀ : Heap) (hid : List CellId) (m m' : Machine) : Prop where
  core : m'.core = m.core
  heap : Heap.Peer h₀ hid m.heap m'.heap
  warnings : List.Forall₂ SameWarning m.warnings m'.warnings
  heard : List.Forall₂ SameWarning m.heard m'.heard
  blind : m.hook.Blind
  alone : m.kept = fun _ => none
  pad : ∀ (i : Nat) s, m.pad[i]? = some s → Shown hid m.heap s
  loops : ∀ l ∈ m.loops, Shown hid m.heap l.saved

theorem shown_of_fits {p : Pad} {h : Heap} {i : Nat} {s : PadSlot} (hs : Fits p h i s) :
    Shown [] h s := by
  cases s with
  | scalar c => exact ⟨List.not_mem_nil, hs⟩
  | array a => trivial
  | hash t => trivial

theorem Sound.peer {p : Pad} (hm : m.Sound p) (hb : m.hook.Blind) (hk : m.kept = fun _ => none) :
    Peer m.heap [] m m where
  core := rfl
  heap := .refl m.heap
  warnings := List.forall₂_same.mpr fun x _ => .refl x
  heard := List.forall₂_same.mpr fun x _ => .refl x
  blind := hb
  alone := hk
  pad i s hs := shown_of_fits (hm.pad i s hs)
  loops l hl := shown_of_fits (hm.loops l hl)

namespace Peer

variable (hp : Peer h₀ hid m m')
include hp

theorem pad_eq : m'.pad = m.pad := (congrArg Machine.pad hp.core :)

theorem place_eq : m'.place? = m.place? := (congrArg Machine.place? hp.core :)

theorem hook_eq : m'.hook = m.hook := (congrArg Machine.hook hp.core :)

theorem noWarn_eq : m'.noWarn = m.noWarn := (congrArg Machine.noWarn hp.core :)

theorem move (hm : n.offStack = m.offStack) (hm' : n'.offStack = m'.offStack) : Peer h₀ hid n n' := by
  have hcore : n'.core = n.core := by
    rw [Machine.core, Machine.core, hm, hm']
    exact hp.core
  have hheap : n.heap = m.heap := (congrArg Machine.heap hm :)
  have hheap' : n'.heap = m'.heap := (congrArg Machine.heap hm' :)
  have hwarn : n.warnings = m.warnings := (congrArg Machine.warnings hm :)
  have hwarn' : n'.warnings = m'.warnings := (congrArg Machine.warnings hm' :)
  have hheard : n.heard = m.heard := (congrArg Machine.heard hm :)
  have hheard' : n'.heard = m'.heard := (congrArg Machine.heard hm' :)
  have hhook : n.hook = m.hook := (congrArg Machine.hook hm :)
  have hkept : n.kept = m.kept := (congrArg Machine.kept hm :)
  have hpad : n.pad = m.pad := (congrArg Machine.pad hm :)
  have hloops : n.loops = m.loops := (congrArg Machine.loops hm :)
  refine ⟨hcore, ?_, ?_, ?_, ?_, ?_, ?_, ?_⟩
  · rw [hheap, hheap']
    exact hp.heap
  · rw [hwarn, hwarn']
    exact hp.warnings
  · rw [hheard, hheard']
    exact hp.heard
  · rw [hhook]
    exact hp.blind
  · rw [hkept]
    exact hp.alone
  · rw [hpad, hheap]
    exact hp.pad
  · rw [hloops, hheap]
    exact hp.loops

theorem withHeap {h h' : Heap} (hh : Heap.Peer h₀ hid h h') (hle : m.heap.cells.size ≤ h.cells.size) :
    Peer h₀ hid { m with heap := h } { m' with heap := h' } where
  core := hp.core
  heap := hh
  warnings := hp.warnings
  heard := hp.heard
  blind := hp.blind
  alone := hp.alone
  pad i s hs := (hp.pad i s hs).mono hle
  loops l hl := (hp.loops l hl).mono hle

theorem hide (h₀c : ∀ c : Nat, h₀.Refers c → c < h₀.cells.size) (v v' : Value) (ro ro' : Bool) :
    Peer h₀ (m.heap.cells.size :: hid) { m with heap := (m.heap.newCell v ro).2 }
      { m' with heap := (m'.heap.newCell v' ro').2 } := by
  have hle := (m.heap.newCell_evolves v ro).cells
  exact ⟨hp.core, hp.heap.hide h₀c v v' ro ro', hp.warnings, hp.heard, hp.blind, hp.alone,
    fun i s hs => (hp.pad i s hs).hide hle, fun l hl => (hp.loops l hl).hide hle⟩

end Peer

/-- What is on the stack, bottom first, and where the marks are. -/
structure Layout where
  items : List Item
  marks : List Nat

structure Has (m : Machine) (l : Layout) : Prop where
  room : m.height ≤ m.slots.size
  stack : m.stack = l.items
  marks : m.marks = l.marks

theorem stack_eq (m : Machine) : m.stack = m.slots.toList.take m.height := by
  simp [stack, List.extract]

theorem Has.length {l : Layout} (h : m.Has l) : l.items.length = m.height := by
  rw [← h.stack, stack_eq, List.length_take, Array.length_toList]
  exact Nat.min_eq_left h.room

structure Meet (h₀ : Heap) (hid : List CellId) (l l' : Layout) (m m' : Machine) : Prop where
  peer : Peer h₀ hid m m'
  left : m.Has l
  right : m'.Has l'

end Machine

namespace Exec

open Machine

theorem push_has {m : Machine} {xs : List Item} {ks : List Nat} (x : Item) (h : m.Has ⟨xs, ks⟩) :
    ∃ n, push x m = .ok () n ∧ n.offStack = m.offStack ∧ n.Has ⟨xs ++ [x], ks⟩ := by
  have hstack := h.stack
  have hroom := h.room
  rw [stack_eq] at hstack
  by_cases hlt : m.height < m.slots.size
  · refine ⟨_, congrArg (EStateM.Result.ok ()) (if_pos hlt), rfl, ?_, ?_, h.marks⟩
    · simpa using Nat.succ_le_of_lt hlt
    · rw [stack_eq]
      simp only [Array.toList_setIfInBounds]
      rw [List.take_add_one, List.take_set_of_le (Nat.le_refl _), hstack, List.getElem?_set_self (by simpa)]
      rfl
  · have heq : m.slots.size = m.height := by omega
    refine ⟨_, congrArg (EStateM.Result.ok ()) (if_neg hlt), rfl, ?_, ?_, h.marks⟩
    · simpa using hroom
    · rw [stack_eq]
      simp only [Array.toList_push]
      rw [List.take_of_length_le (by simp [heq])]
      rw [List.take_of_length_le (by simp [heq])] at hstack
      rw [hstack]

theorem pop_has {m : Machine} {xs : List Item} {ks : List Nat} {x : Item} (h : m.Has ⟨xs ++ [x], ks⟩) :
    ∃ n, pop m = .ok x n ∧ n.offStack = m.offStack ∧ n.Has ⟨xs, ks⟩ := by
  have hlen := h.length
  have hstack : m.stack = xs ++ [x] := h.stack
  have hroom := h.room
  rw [stack_eq] at hstack
  simp only [List.length_append, List.length_singleton] at hlen
  have hne : ¬ m.height = 0 := by omega
  have htop : m.slots.getD (m.height - 1) .vacant = x := by
    have hget : (xs ++ [x])[m.height - 1]? = some x := by simp [← hlen]
    rw [← hstack, List.getElem?_take_of_lt (by omega)] at hget
    rw [Array.getD_eq_getD_getElem?, ← Array.getElem?_toList, hget]
    rfl
  refine ⟨{ m with height := m.height - 1 }, ?_, rfl, ?_, ?_, h.marks⟩
  · change (if m.height = 0 then broken (utf8 "stack underflow") else _ : Exec Item) m = _
    rw [if_neg hne]
    change EStateM.Result.ok (m.slots.getD (m.height - 1) .vacant) _ = _
    rw [htop]
  · exact Nat.le_trans (Nat.sub_le ..) hroom
  · rw [stack_eq]
    change m.slots.toList.take (m.height - 1) = xs
    have htake := congrArg (List.take (m.height - 1)) hstack
    rw [List.take_take, Nat.min_eq_left (Nat.sub_le ..)] at htake
    rw [htake, List.take_append_of_le_length (by omega), List.take_of_length_le (by omega)]

theorem popScalar_has {m : Machine} {xs : List Item} {ks : List Nat} {c : Option CellId}
    (h : m.Has ⟨xs ++ [.scalar c], ks⟩) :
    ∃ n, popScalar m = .ok c n ∧ n.offStack = m.offStack ∧ n.Has ⟨xs, ks⟩ := by
  obtain ⟨n, hok, hoff, hhas⟩ := pop_has h
  exact ⟨n, bind_of_ok hok, hoff, hhas⟩

variable {α β γ δ : Type} {h₀ : Heap} {hid : List CellId} {l l' : Layout}
  {P R : Machine → Machine → Prop}

/-- How two computations end: both with answers, or both with the same failure. -/
def Joint (h₀ : Heap) (Q : α → β → Machine → Machine → Prop) :
    EStateM.Result Failure Machine α → EStateM.Result Failure Machine β → Prop
  | .ok u m, .ok v m' => Q u v m m'
  | .error e m, .error e' m' => SameFailure e e' ∧ ∃ hid, m.Peer h₀ hid m'
  | _, _ => False

theorem Joint.post {Q S : α → β → Machine → Machine → Prop} {x : EStateM.Result Failure Machine α}
    {y : EStateM.Result Failure Machine β} (h : Joint h₀ Q x y)
    (hq : ∀ u v m m', Q u v m m' → S u v m m') : Joint h₀ S x y := by
  revert h
  cases x <;> cases y
  · exact hq _ _ _ _
  · exact id
  · exact id
  · exact id

/-- Two computations that go together. -/
def Sim (h₀ : Heap) (P : Machine → Machine → Prop) (x : Exec α) (y : Exec β)
    (Q : α → β → Machine → Machine → Prop) : Prop :=
  ∀ m m', P m m' → Joint h₀ Q (x m) (y m')

namespace Sim

variable {x : Exec α} {y : Exec β} {Q Q' : α → β → Machine → Machine → Prop}

theorem bind {f : α → Exec γ} {g : β → Exec δ} {S : γ → δ → Machine → Machine → Prop}
    (hx : Sim h₀ P x y Q) (hf : ∀ u v, Sim h₀ (Q u v) (f u) (g v) S) :
    Sim h₀ P (x >>= f) (y >>= g) S := by
  intro m m' hm
  have h := hx m m' hm
  change Joint h₀ S (EStateM.bind x f m) (EStateM.bind y g m')
  unfold EStateM.bind
  cases hxm : x m with
  | error e n =>
    cases hym : y m' with
    | error e' n' =>
      rw [hxm, hym] at h
      exact h
    | ok v n' =>
      rw [hxm, hym] at h
      exact h.elim
  | ok u n =>
    cases hym : y m' with
    | error e' n' =>
      rw [hxm, hym] at h
      exact h.elim
    | ok v n' =>
      rw [hxm, hym] at h
      exact hf u v n n' h

theorem pre (hx : Sim h₀ R x y Q) (hp : ∀ m m', P m m' → R m m') : Sim h₀ P x y Q :=
  fun m m' hm => hx m m' (hp m m' hm)

theorem post (hx : Sim h₀ P x y Q) (hq : ∀ u v m m', Q u v m m' → Q' u v m m') : Sim h₀ P x y Q' :=
  fun m m' hm => (hx m m' hm).post hq

theorem step {f : α → Exec γ} {g : β → Exec δ} {F : α → β → Prop}
    {S : γ → δ → Machine → Machine → Prop} (hx : Sim h₀ P x y fun u v m m' => R m m' ∧ F u v)
    (hf : ∀ u v, F u v → Sim h₀ R (f u) (g v) S) : Sim h₀ P (x >>= f) (y >>= g) S :=
  hx.bind fun u v m m' hm => hf u v hm.2 m m' hm.1

theorem pure {u : α} {v : β} (h : ∀ m m', P m m' → Q u v m m') : Sim h₀ P (pure u) (pure v) Q := h

theorem given {F : Prop} (hp : ∀ m m', P m m' → R m m' ∧ F) (h : F → Sim h₀ R x y Q) :
    Sim h₀ P x y Q :=
  fun m m' hm => h (hp m m' hm).2 m m' (hp m m' hm).1

theorem ite {p : Prop} [Decidable p] {x' : Exec α} {y' : Exec β} (h : Sim h₀ P x y Q)
    (h' : Sim h₀ P x' y' Q) : Sim h₀ P (if p then x else x') (if p then y else y') Q := by
  split
  · exact h
  · exact h'

theorem throw {e e' : Failure} (he : SameFailure e e') (h : ∀ m m', P m m' → ∃ hid, m.Peer h₀ hid m') :
    Sim h₀ P (throw e : Exec α) (throw e' : Exec β) Q := fun m m' hm => ⟨he, h m m' hm⟩

theorem bind_run {f : α → Exec γ} {g : β → Exec δ} {S : γ → δ → Machine → Machine → Prop}
    (hx : Sim h₀ P x y Q)
    (hf : ∀ u v, Sim h₀ (fun n n' => Q u v n n' ∧ ∃ m m', P m m' ∧ x m = .ok u n) (f u) (g v) S) :
    Sim h₀ P (x >>= f) (y >>= g) S := by
  intro m m' hm
  have hsim : Sim h₀ (fun k k' => k = m ∧ k' = m') x y fun u v n n' =>
      Q u v n n' ∧ ∃ m m', P m m' ∧ x m = .ok u n := by
    rintro k k' ⟨rfl, rfl⟩
    have h := hx k k' hm
    cases hxm : x k with
    | error e n =>
      rw [hxm] at h
      revert h
      cases y k' <;> exact id
    | ok u n =>
      cases hym : y k' with
      | error e' n' =>
        rw [hxm, hym] at h
        exact h.elim
      | ok v n' =>
        rw [hxm, hym] at h
        exact ⟨h, k, k', hm, hxm⟩
  exact hsim.bind hf m m' ⟨rfl, rfl⟩

end Sim

end Exec

end OpTree
