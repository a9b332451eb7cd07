import OpTree.Proofs.Accesses
import OpTree.Build.Fold

/-!
# Machines that follow a trial

A trial is strict: it fails where other machines warn. When a computation ends well on the machine of a trial,
it does so on every machine that has more below on its stack, and with scalars of the same values.
-/

namespace OpTree

set_option autoImplicit false

namespace Heap

structure Truths (h : Heap) : Prop where
  size : 2 ≤ h.cells.size
  yes : (h.cell Machine.yes).value = .bool true
  no : (h.cell Machine.no).value = .bool false

def Grown (h h' : Heap) : Prop := ∃ new, h' = { h with cells := h.cells ++ new }

variable {h h' h'' : Heap}

theorem Grown.refl (h : Heap) : Grown h h := ⟨#[], by simp⟩

theorem Grown.trans (hg : Grown h h') (hg' : Grown h' h'') : Grown h h'' := by
  obtain ⟨new, rfl⟩ := hg
  obtain ⟨new', rfl⟩ := hg'
  exact ⟨new ++ new', by simp [Array.append_assoc]⟩

theorem grown_newCell (h : Heap) (v : Value) (ro : Bool) : Grown h (h.newCell v ro).2 :=
  ⟨#[⟨v, ro⟩], by simp [newCell]⟩

theorem Grown.size_le (hg : Grown h h') : h.cells.size ≤ h'.cells.size := by
  obtain ⟨new, rfl⟩ := hg
  simp

theorem Grown.cell (hg : Grown h h') {c : CellId} (hc : c < h.cells.size) : h'.cell c = h.cell c := by
  obtain ⟨new, rfl⟩ := hg
  simp [Heap.cell, Array.getD_eq_getD_getElem?, Array.getElem?_append_left hc]

theorem Truths.grown (ht : Truths h) (hg : Grown h h') : Truths h' where
  size := Nat.le_trans ht.size hg.size_le
  yes := by rw [hg.cell (Nat.lt_of_lt_of_le (by decide) ht.size)]; exact ht.yes
  no := by rw [hg.cell (Nat.lt_of_lt_of_le (by decide) ht.size)]; exact ht.no

theorem Truths.ofBool (ht : Truths h) (b : Bool) : (h.cell (Machine.ofBool b)).value = .bool b := by
  cases b with
  | true => exact ht.yes
  | false => exact ht.no

theorem cell_newCell (h : Heap) (v : Value) (ro : Bool) : (h.newCell v ro).2.cell (h.newCell v ro).1 = ⟨v, ro⟩ := by
  simp [newCell, Heap.cell]

/-- Scalars of one value on two heaps. -/
def Alike (h h' : Heap) (x y : Item) : Prop :=
  ∃ c d, x = .scalar (some c) ∧ y = .scalar (some d) ∧ c < h.cells.size ∧ d < h'.cells.size ∧
    (h'.cell d).value = (h.cell c).value

theorem Alike.grown {k k' : Heap} {x y : Item} (ha : Alike h h' x y) (hg : Grown h k) (hg' : Grown h' k') :
    Alike k k' x y := by
  obtain ⟨c, d, hx, hy, hc, hd, hv⟩ := ha
  refine ⟨c, d, hx, hy, Nat.lt_of_lt_of_le hc hg.size_le, Nat.lt_of_lt_of_le hd hg'.size_le, ?_⟩
  rw [hg.cell hc, hg'.cell hd, hv]

theorem Alike.value {c d : Option CellId} (ha : Alike h h' (.scalar c) (.scalar d)) : h'.value d = h.value c := by
  obtain ⟨c, d, ⟨⟩, ⟨⟩, -, -, hv⟩ := ha
  exact hv

end Heap

namespace Machine

variable {b m n : Machine} {xs ys : List Item} {ks : List Nat}

/-- The machine on the left treats warnings as failures, unless both ignore them, is asked for a value and keeps no
cells for const ops. -/
structure Strict (m n : Machine) : Prop where
  hook : m.hook = .escalate
  same : n.noWarn = m.noWarn
  asked : m.gimme ≠ .void
  alone : m.kept = fun _ => none

/-- If a machine keeps a cell for a const op, the cell has the value of the op. -/
def Keeps (m : Machine) (o : Node) : Prop :=
  o.code = .const → ∀ c, m.kept o.id = some c → c < m.heap.cells.size ∧ (m.heap.cell c).value = o.val.value

/-- The stack has room for what is on it, no mark is above it, and the truth values are where they should be. -/
structure Orderly (m : Machine) : Prop where
  room : m.height ≤ m.slots.size
  truths : m.heap.Truths
  marks : ∀ k ∈ m.marks, k ≤ m.height

/-- A trial on the left and the same ops on the right, from the machine `b` on. -/
structure Mirrors (b : Machine) (xs ys : List Item) (ks : List Nat) (m n : Machine) : Prop where
  left : m.Has ⟨xs, ks⟩
  right : n.Has ⟨b.stack ++ ys, ks.map (b.height + ·) ++ b.marks⟩
  alike : List.Forall₂ (Heap.Alike m.heap n.heap) xs ys
  strict : Strict m n
  truths : m.heap.Truths
  base : b.Orderly
  grown : b.heap.Grown n.heap
  rest : n.offStack = { b.offStack with heap := n.heap }

def Tracks (b m n : Machine) : Prop := ∃ xs ys ks, Mirrors b xs ys ks m n

theorem Mirrors.tracks (h : Mirrors b xs ys ks m n) : Tracks b m n := ⟨xs, ys, ks, h⟩

theorem Tracks.strict (h : Tracks b m n) : Strict m n := by
  obtain ⟨xs, ys, ks, h⟩ := h
  exact h.strict

theorem Tracks.gimme_eq (h : Tracks b m n) : n.gimme = b.gimme := by
  obtain ⟨xs, ys, ks, h⟩ := h
  have hgimme := congrArg Machine.gimme h.rest
  exact hgimme

theorem length_stack (h : b.height ≤ b.slots.size) : b.stack.length = b.height := by
  rw [stack_eq, List.length_take, Array.length_toList]
  exact Nat.min_eq_left h

theorem Mirrors.move (h : Mirrors b xs ys ks m n) {m' n' : Machine} {xs' ys' : List Item} {ks' : List Nat}
    (hm : m'.offStack = { m.offStack with heap := m'.heap }) (hn : n'.offStack = { n.offStack with heap := n'.heap })
    (hg : m.heap.Grown m'.heap) (hg' : n.heap.Grown n'.heap) (hl : m'.Has ⟨xs', ks'⟩)
    (hr : n'.Has ⟨b.stack ++ ys', ks'.map (b.height + ·) ++ b.marks⟩)
    (ha : List.Forall₂ (Heap.Alike m'.heap n'.heap) xs' ys') : Mirrors b xs' ys' ks' m' n' where
  left := hl
  right := hr
  alike := ha
  strict := by
    have hhook := congrArg Machine.hook hm
    have hquiet := congrArg Machine.noWarn hm
    have hquiet' := congrArg Machine.noWarn hn
    have hasked := congrArg Machine.gimme hm
    have hkept := congrArg Machine.kept hm
    exact ⟨Eq.trans hhook h.strict.hook, Eq.trans hquiet' (h.strict.same.trans hquiet.symm),
      fun hvoid => h.strict.asked (hasked.symm.trans hvoid), Eq.trans hkept h.strict.alone⟩
  truths := h.truths.grown hg
  base := h.base
  grown := h.grown.trans hg'
  rest := by rw [hn, h.rest]

theorem heap_of_offStack {m m' : Machine} (h : m'.offStack = m.offStack) : m'.heap = m.heap := by
  have hheap := congrArg Machine.heap h
  exact hheap

theorem Mirrors.restack (h : Mirrors b xs ys ks m n) {m' n' : Machine} {xs' ys' : List Item} {ks' : List Nat}
    (hm : m'.offStack = m.offStack) (hn : n'.offStack = n.offStack) (hl : m'.Has ⟨xs', ks'⟩)
    (hr : n'.Has ⟨b.stack ++ ys', ks'.map (b.height + ·) ++ b.marks⟩)
    (ha : List.Forall₂ (Heap.Alike m.heap n.heap) xs' ys') : Mirrors b xs' ys' ks' m' n' := by
  have hheap := heap_of_offStack hm
  have hheap' := heap_of_offStack hn
  refine h.move (by rw [hm, hheap]; rfl) (by rw [hn, hheap']; rfl) ?_ ?_ hl hr ?_
  · rw [hheap]
    exact .refl _
  · rw [hheap']
    exact .refl _
  · rwa [hheap, hheap']

theorem Mirrors.alike_grown (h : Mirrors b xs ys ks m n) {k k' : Heap} (hg : m.heap.Grown k)
    (hg' : n.heap.Grown k') : List.Forall₂ (Heap.Alike k k') xs ys :=
  h.alike.imp fun _ _ ha => ha.grown hg hg'

end Machine

namespace Exec

open Machine

variable {α β γ δ : Type} {P : Machine → Machine → Prop}

/-- If the computation on the left ends well, so does the one on the right. -/
def Follows (P : Machine → Machine → Prop) (x : Exec α) (y : Exec β)
    (Q : α → β → Machine → Machine → Prop) : Prop :=
  ∀ m n, P m n → ∀ u m', x m = .ok u m' → ∃ v n', y n = .ok v n' ∧ Q u v m' n'

namespace Follows

variable {x : Exec α} {y : Exec β} {Q : α → β → Machine → Machine → Prop}
  {S : γ → δ → Machine → Machine → Prop}

theorem bind {f : α → Exec γ} {g : β → Exec δ} (hx : Follows P x y Q)
    (hf : ∀ u v, Follows (Q u v) (f u) (g v) S) : Follows P (x >>= f) (y >>= g) S := by
  intro m n hm w m' hok
  obtain ⟨u, m₁, hu, hok⟩ := bind_eq_ok.mp hok
  obtain ⟨v, n₁, hv, hq⟩ := hx m n hm u m₁ hu
  obtain ⟨z, n', hz, hs⟩ := hf u v m₁ n₁ hq w m' hok
  exact ⟨z, n', by rw [bind_of_ok hv, hz], hs⟩

theorem pre {R : Machine → Machine → Prop} (hx : Follows R x y Q) (hp : ∀ m n, P m n → R m n) :
    Follows P x y Q := fun m n hm => hx m n (hp m n hm)

theorem pure {u : α} {v : β} (h : ∀ m n, P m n → Q u v m n) : Follows P (pure u) (pure v) Q := by
  intro m n hm w m' hok
  cases hok
  exact ⟨v, n, rfl, h m n hm⟩

theorem never {y : Exec β} (hx : ∀ m u m', x m ≠ .ok u m') : Follows P x y Q :=
  fun m _ _ u m' hok => absurd hok (hx m u m')

theorem given {R : Machine → Machine → Prop} {F : Prop} (h : F → Follows R x y Q) :
    Follows (fun m n => R m n ∧ F) x y Q := fun m n hm => h hm.2 m n hm.1

theorem read {f : α → Exec γ} {g : α → Exec δ} {y : Exec α}
    (hx : ∀ m n, P m n → ∀ u m', x m = .ok u m' → m' = m ∧ y n = .ok u n)
    (hf : ∀ u, Follows P (f u) (g u) S) : Follows P (x >>= f) (y >>= g) S := by
  intro m n hm w m' hok
  obtain ⟨u, m₁, hu, hrest⟩ := bind_eq_ok.mp hok
  obtain ⟨rfl, hy⟩ := hx m n hm u m₁ hu
  rw [bind_of_ok hy]
  exact hf u m₁ n hm w m' hrest

end Follows

section Reading

variable {m n : Machine} {c d : Option CellId} {t : Opcode}

theorem throwAt_ne_ok (msg : Bytes) (m : Machine) (u : α) (m' : Machine) :
    (throwAt msg : Exec α) m ≠ .ok u m' := nofun

theorem warn_strict (hs : Strict m n) {msg : Bytes} {u : Unit} {m' : Machine} (hok : warn msg m = .ok u m') :
    m' = m ∧ warn msg n = .ok u n := by
  unfold warn at hok ⊢
  rw [bind_of_ok (rfl : (get : Exec Machine) m = .ok m m)] at hok
  rw [bind_of_ok (rfl : (get : Exec Machine) n = .ok n n), hs.same]
  cases hq : m.noWarn with
  | true =>
    rw [hq] at hok
    cases hok
    exact ⟨rfl, rfl⟩
  | false =>
    rw [hq, hs.hook] at hok
    cases hok

theorem toNumber_strict (hs : Strict m n) (hv : n.value d = m.value c) {u : Number} {m' : Machine}
    (hok : toNumber c t m = .ok u m') : m' = m ∧ toNumber d t n = .ok u n := by
  unfold toNumber at hok ⊢
  rw [bind_of_ok (valueOf_apply c m)] at hok
  rw [bind_of_ok (valueOf_apply d n), hv]
  generalize m.value c = w at hok
  split at hok
  · rename_i hdef
    rw [if_pos hdef]
    dsimp only at hok ⊢
    split at hok
    · rename_i hnum
      rw [if_pos hnum]
      obtain ⟨u', m₁, hw, hend⟩ := bind_eq_ok.mp hok
      obtain ⟨rfl, hw'⟩ := warn_strict hs hw
      rw [bind_of_ok hw']
      cases hend
      exact ⟨rfl, rfl⟩
    · rename_i hnum
      rw [if_neg hnum]
      cases hok
      exact ⟨rfl, rfl⟩
  · rename_i hdef
    rw [if_neg hdef]
    obtain ⟨u', m₁, hw, hend⟩ := bind_eq_ok.mp hok
    obtain ⟨rfl, hw'⟩ := warn_strict hs hw
    unfold warnUndefined
    rw [bind_of_ok hw']
    cases hend
    exact ⟨rfl, rfl⟩

theorem toInt_strict (hs : Strict m n) (hv : n.value d = m.value c) {u : Int64} {m' : Machine}
    (hok : toInt c t m = .ok u m') : m' = m ∧ toInt d t n = .ok u n := by
  obtain ⟨k, m₁, hk, hend⟩ := bind_eq_ok.mp hok
  obtain ⟨rfl, hk'⟩ := toNumber_strict hs hv hk
  cases hend
  exact ⟨rfl, bind_of_ok hk'⟩

theorem toText_strict (hs : Strict m n) (hv : n.value d = m.value c) {u : Bytes} {m' : Machine}
    (hok : toText c t m = .ok u m') : m' = m ∧ toText d t n = .ok u n := by
  unfold toText at hok ⊢
  rw [bind_of_ok (valueOf_apply c m)] at hok
  rw [bind_of_ok (valueOf_apply d n), hv]
  generalize m.value c = w at hok
  dsimp only at hok ⊢
  split at hok
  · rename_i hdef
    rw [if_pos hdef]
    obtain ⟨u', m₁, hw, hend⟩ := bind_eq_ok.mp hok
    obtain ⟨rfl, hw'⟩ := warn_strict hs hw
    unfold warnUndefined
    rw [bind_of_ok hw']
    cases hend
    exact ⟨rfl, rfl⟩
  · rename_i hdef
    rw [if_neg hdef]
    cases hok
    exact ⟨rfl, rfl⟩

end Reading

end Exec

end OpTree
