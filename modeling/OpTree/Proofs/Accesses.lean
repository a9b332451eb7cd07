import OpTree.Proofs.Peers

/-!
# What peers see of their variables

The primitive operations on scalars, arrays and hashes lead peers to peers: they answer the same on
both machines, and what they make or change is the same.
-/

namespace OpTree

set_option autoImplicit false

open Machine

def Heap.value (h : Heap) : Option CellId → Value
  | some c => (h.cell c).value
  | none => .undefined

namespace Machine

variable {h₀ : Heap} {hid : List CellId} {l l' : Layout} {m m' : Machine}

def value (m : Machine) (c : Option CellId) : Value := m.heap.value c

/-- A scalar that is not hidden. -/
def Visible (hid : List CellId) (m : Machine) (c : Option CellId) : Prop :=
  ∀ id, c = some id → Shown hid m.heap (.scalar id)

theorem Peer.value_eq (hp : Peer h₀ hid m m') {c : Option CellId} (hc : Visible hid m c) :
    m'.value c = m.value c := by
  cases c with
  | none => rfl
  | some id => exact congrArg Cell.value (hp.heap.cell id (hc id rfl).1)

theorem Has.withHeap (h : m.Has l) (k : Heap) : Has { m with heap := k } l :=
  ⟨h.room, h.stack, h.marks⟩

theorem Meet.withHeap (hm : Meet h₀ hid l l' m m') {h h' : Heap} (hh : Heap.Peer h₀ hid h h')
    (hle : m.heap.cells.size ≤ h.cells.size) :
    Meet h₀ hid l l' { m with heap := h } { m' with heap := h' } :=
  ⟨hm.peer.withHeap hh hle, hm.left.withHeap h, hm.right.withHeap h'⟩

end Machine

/-- Values that an element op cannot tell apart when they are used as a key. -/
def Value.SameKey (hash : Bool) (v v' : Value) : Prop :=
  v'.defined = v.defined ∧ if hash then v'.text = v.text else v' = v

def Value.index (v : Value) : Int64 := if v.defined then v.number.1.toInt64 else 0

/-- Does a container have an element under a key. A missing container has none that could be absent. -/
def Heap.HasUnder (h : Heap) (c : Item) (w : Value) : Prop :=
  match c with
  | .array (some a) => (h.array a).hasElem w.index = true
  | .hash (some t) => (h.table t).hasKey w.text = true
  | _ => True

theorem Value.SameKey.refl (hash : Bool) (v : Value) : v.SameKey hash v := by
  cases hash
  · exact ⟨rfl, rfl⟩
  · exact ⟨rfl, rfl⟩

namespace Exec

variable {α β : Type} {h₀ : Heap} {hid : List CellId} {l l' : Layout}

theorem valueOf_apply (c : Option CellId) (m : Machine) : valueOf c m = .ok (m.value c) m := by
  cases c <;> rfl

theorem sim_read {P : Machine → Machine → Prop} {x : Exec α} {y : Exec β} {f : Machine → α}
    {g : Machine → β} (hx : ∀ m, x m = .ok (f m) m) (hy : ∀ m, y m = .ok (g m) m) :
    Sim h₀ P x y fun u v m m' => P m m' ∧ u = f m ∧ v = g m' := by
  intro m m' hm
  rw [hx, hy]
  exact ⟨hm, rfl, rfl⟩

theorem sim_fatal {P : Machine → Machine → Prop} {Q : α → β → Machine → Machine → Prop}
    (hP : ∀ m m', P m m' → Peer h₀ hid m m') : Sim h₀ P (fatal : Exec α) (fatal : Exec β) Q :=
  .throw (.refl _) fun m m' hm => ⟨hid, hP m m' hm⟩

theorem sim_throwAt (msg : Bytes) {P : Machine → Machine → Prop} {Q : α → β → Machine → Machine → Prop}
    (hP : ∀ m m', P m m' → Peer h₀ hid m m') :
    Sim h₀ P (throwAt msg : Exec α) (throwAt msg : Exec β) Q := by
  intro m m' hm
  have hp := hP m m' hm
  refine ⟨?_, hid, hp⟩
  rw [hp.place_eq]
  exact .refl _

theorem sim_onHeap {f : Heap → α × Heap} (hf : Heap.Blind f) (he : ∀ h : Heap, h.Evolves (f h).2) :
    Sim h₀ (Meet h₀ hid l l') (onHeap f) (onHeap f) fun u v m m' => Meet h₀ hid l l' m m' ∧
      v = u ∧ ∃ h h', Heap.Peer h₀ hid h h' ∧ u = (f h).1 ∧ m.heap = (f h).2 := by
  intro m m' hm
  obtain ⟨hval, hheap⟩ := hm.peer.heap.blind hf (he m.heap)
  exact ⟨hm.withHeap hheap (he m.heap).cells, hval, m.heap, m'.heap, hm.peer.heap, rfl, rfl⟩

theorem sim_store (c : CellId) (v : Value) :
    Sim h₀ (Meet h₀ hid l l') (store c v) (store c v) fun _ _ m m' => Meet h₀ hid l l' m m' :=
  fun m _ hm => hm.withHeap (hm.peer.heap.store c v) (m.heap.store_evolves c v).cells

theorem sim_warn {msg msg' : Bytes} (h : ∀ place, SameWarning (msg ++ place) (msg' ++ place))
    (G : Heap → Prop) :
    Sim h₀ (fun m m' => Meet h₀ hid l l' m m' ∧ G m.heap) (warn msg) (warn msg')
      fun _ _ m m' => Meet h₀ hid l l' m m' ∧ G m.heap := by
  intro m m' ⟨hm, hG⟩
  have hp := hm.peer
  have hleft : ∀ n : Machine, n.slots = m.slots → n.height = m.height → n.marks = m.marks → n.Has l := by
    intro n hslots hheight hmarks
    have hm := hm.left
    exact ⟨by rw [hheight, hslots]; exact hm.room, by rw [stack, hslots, hheight]; exact hm.stack, hmarks.trans hm.marks⟩
  have hright : ∀ n : Machine, n.slots = m'.slots → n.height = m'.height → n.marks = m'.marks → n.Has l' := by
    intro n hslots hheight hmarks
    have hm := hm.right
    exact ⟨by rw [hheight, hslots]; exact hm.room, by rw [stack, hslots, hheight]; exact hm.stack, hmarks.trans hm.marks⟩
  have hsame : SameWarning (msg ++ placeText m.place?) (msg' ++ placeText m'.place?) := by
    rw [hp.place_eq]
    exact h _
  cases hoff : m.noWarn with
  | true =>
    rw [warn_off hoff, warn_off (hp.noWarn_eq.trans hoff)]
    exact ⟨hm, hG⟩
  | false =>
    have hoff' := hp.noWarn_eq.trans hoff
    cases hhook : m.hook with
    | record =>
      rw [warn_recorded hoff hhook, warn_recorded hoff' (hp.hook_eq.trans hhook)]
      have hpeer : Peer h₀ hid { m with warnings := (msg ++ placeText m.place?) :: m.warnings }
          { m' with warnings := (msg' ++ placeText m'.place?) :: m'.warnings } :=
        ⟨hp.core, hp.heap, .cons hsame hp.warnings, hp.heard, hp.blind, hp.alone, hp.pad, hp.loops⟩
      exact ⟨⟨hpeer, hleft _ rfl rfl rfl, hright _ rfl rfl rfl⟩, hG⟩
    | handle answer =>
      have hpeer : Peer h₀ hid { m with heard := (msg ++ placeText m.place?) :: m.heard }
          { m' with heard := (msg' ++ placeText m'.place?) :: m'.heard } :=
        ⟨hp.core, hp.heap, hp.warnings, .cons hsame hp.heard, hp.blind, hp.alone, hp.pad, hp.loops⟩
      have hblind := hp.blind
      rw [hhook] at hblind
      have hanswer := hblind _ _ _ _ hp.heard hsame
      obtain ⟨why, hwhy⟩ : ∃ why, answer m.heard (msg ++ placeText m.place?) = why := ⟨_, rfl⟩
      obtain ⟨why', hwhy'⟩ : ∃ why', answer m'.heard (msg' ++ placeText m'.place?) = why' := ⟨_, rfl⟩
      rw [hwhy, hwhy'] at hanswer
      cases hanswer with
      | none =>
        rw [warn_heard hoff hhook hwhy, warn_heard hoff' (hp.hook_eq.trans hhook) hwhy']
        exact ⟨⟨hpeer, hleft _ rfl rfl rfl, hright _ rfl rfl rfl⟩, hG⟩
      | some hsame =>
        rw [warn_refused hoff hhook hwhy, warn_refused hoff' (hp.hook_eq.trans hhook) hwhy']
        exact ⟨hsame, hid, hpeer⟩

section Stack

variable {γ : Type} {xs ys : List Item} {ks js : List Nat} {x : Item} {E : Heap → Machine → Prop}
  {y : Exec β} {Q : γ → β → Machine → Machine → Prop}

theorem sim_push_left {f : Unit → Exec γ}
    (hf : Sim h₀ (fun m m' => Meet h₀ hid ⟨xs ++ [x], ks⟩ l' m m' ∧ E m.heap m') (f ()) y Q) :
    Sim h₀ (fun m m' => Meet h₀ hid ⟨xs, ks⟩ l' m m' ∧ E m.heap m') (push x >>= f) y Q := by
  intro m m' hm
  obtain ⟨n, hok, hoff, hhas⟩ := push_has x hm.1.left
  have hheap : n.heap = m.heap := (congrArg Machine.heap hoff :)
  rw [bind_of_ok hok]
  exact hf n m' ⟨⟨hm.1.peer.move hoff rfl, hhas, hm.1.right⟩, hheap ▸ hm.2⟩

theorem sim_pop_left {f : Item → Exec γ}
    (hf : Sim h₀ (fun m m' => Meet h₀ hid ⟨xs, ks⟩ l' m m' ∧ E m.heap m') (f x) y Q) :
    Sim h₀ (fun m m' => Meet h₀ hid ⟨xs ++ [x], ks⟩ l' m m' ∧ E m.heap m') (pop >>= f) y Q := by
  intro m m' hm
  obtain ⟨n, hok, hoff, hhas⟩ := pop_has hm.1.left
  have hheap : n.heap = m.heap := (congrArg Machine.heap hoff :)
  rw [bind_of_ok hok]
  exact hf n m' ⟨⟨hm.1.peer.move hoff rfl, hhas, hm.1.right⟩, hheap ▸ hm.2⟩

theorem sim_popScalar_left {c : Option CellId} {f : Option CellId → Exec γ}
    (hf : Sim h₀ (fun m m' => Meet h₀ hid ⟨xs, ks⟩ l' m m' ∧ E m.heap m') (f c) y Q) :
    Sim h₀ (fun m m' => Meet h₀ hid ⟨xs ++ [.scalar c], ks⟩ l' m m' ∧ E m.heap m')
      (popScalar >>= f) y Q := by
  intro m m' hm
  obtain ⟨n, hok, hoff, hhas⟩ := popScalar_has hm.1.left
  have hheap : n.heap = m.heap := (congrArg Machine.heap hoff :)
  rw [bind_of_ok hok]
  exact hf n m' ⟨⟨hm.1.peer.move hoff rfl, hhas, hm.1.right⟩, hheap ▸ hm.2⟩

end Stack

section Keys

variable {k : Option CellId} {w : Value} (t t' : Opcode) (G : Heap → Prop)

theorem sim_warnUndefined :
    Sim h₀ (fun m m' => Meet h₀ hid l l' m m' ∧ G m.heap) (warnUndefined t) (warnUndefined t')
      fun _ _ m m' => Meet h₀ hid l l' m m' ∧ G m.heap :=
  sim_warn (fun place => .op _ place t t') G

theorem sim_toNumber :
    Sim h₀ (fun m m' => (Meet h₀ hid l l' m m' ∧ G m.heap) ∧ m.value k = w ∧
        Value.SameKey false w (m'.value k))
      (toNumber k t) (toNumber k t') fun u v m m' => (Meet h₀ hid l l' m m' ∧ G m.heap) ∧
        u.toInt64 = w.index ∧ v = u := by
  refine Sim.bind (sim_read (valueOf_apply k) (valueOf_apply k)) fun v v' => ?_
  refine Sim.given (F := v = w ∧ v' = w) (fun m m' hm => ⟨hm.1.1, ?_⟩) ?_
  · rw [hm.2.1, hm.2.2]
    exact ⟨hm.1.2.1, hm.1.2.2.2⟩
  · rintro ⟨rfl, rfl⟩
    dsimp only
    by_cases hd : v'.defined = true
    · rw [if_pos hd, if_pos hd]
      have hindex : v'.number.1.toInt64 = v'.index := (if_pos hd).symm
      split
      · refine Sim.bind (sim_warn (fun place => ?_) G) fun _ _ => .pure fun m m' hm => ⟨hm, hindex, rfl⟩
        exact .op _ place t t'
      · exact .pure fun m m' hm => ⟨hm, hindex, rfl⟩
    · rw [if_neg hd, if_neg hd]
      have hindex : (Number.int 0).toInt64 = v'.index := (if_neg hd).symm
      exact Sim.bind (sim_warnUndefined t t' G) fun _ _ => .pure fun m m' hm => ⟨hm, hindex, rfl⟩

theorem sim_toInt :
    Sim h₀ (fun m m' => (Meet h₀ hid l l' m m' ∧ G m.heap) ∧ m.value k = w ∧
        Value.SameKey false w (m'.value k))
      (toInt k t) (toInt k t') fun u v m m' => (Meet h₀ hid l l' m m' ∧ G m.heap) ∧
        u = w.index ∧ v = w.index := by
  refine (sim_toNumber t t' G).step fun n n' hn => .pure fun m m' hm => ⟨hm, hn.1, ?_⟩
  rw [hn.2]
  exact hn.1

theorem sim_toText :
    Sim h₀ (fun m m' => (Meet h₀ hid l l' m m' ∧ G m.heap) ∧ m.value k = w ∧
        Value.SameKey true w (m'.value k))
      (toText k t) (toText k t') fun u v m m' => (Meet h₀ hid l l' m m' ∧ G m.heap) ∧
        u = w.text ∧ v = w.text := by
  refine Sim.bind (sim_read (valueOf_apply k) (valueOf_apply k)) fun v v' => ?_
  refine Sim.given (F := v = w ∧ v'.defined = v.defined ∧ v'.text = v.text)
    (fun m m' hm => ⟨hm.1.1, ?_⟩) ?_
  · rw [hm.2.1, hm.2.2, hm.1.2.1]
    exact ⟨rfl, hm.1.2.2⟩
  · rintro ⟨rfl, hdef, htext⟩
    rw [hdef]
    split
    · exact Sim.bind (sim_warnUndefined t t' G) fun _ _ => .pure fun m m' hm => ⟨hm, rfl, htext⟩
    · exact .pure fun m m' hm => ⟨hm, rfl, htext⟩

end Keys

section Scalars

variable {c : Option CellId}

theorem visible_mono {m n : Machine} (hc : Visible hid m c) (hle : m.heap.cells.size ≤ n.heap.cells.size) :
    Visible hid n c := fun id hid => (hc id hid).mono hle

theorem vivify_of_defined {p : Priv} {m : Machine} (h : p.derefs = true → (m.value c).defined = true) :
    vivify c p m = .ok () m := by
  unfold vivify
  by_cases hp : p.derefs = true
  · rw [bind_of_ok (valueOf_apply c m), h hp]
    simp
    rfl
  · rw [bind_of_ok (valueOf_apply c m)]
    simp [hp]
    rfl

theorem defined_array (a : ArrayId) : (Value.array a).defined = true := rfl

theorem defined_hash (t : TableId) : (Value.hash t).defined = true := rfl

theorem sim_fill {id : CellId} {f : Heap → α × Heap} {g : α → Value} (hf : Heap.Blind f)
    (he : ∀ h : Heap, h.Evolves (f h).2) (hg : ∀ u, (g u).defined = true) :
    Sim h₀ (fun m m' => Meet h₀ hid l l' m m' ∧ Visible hid m (some id))
      (do store id (g (← onHeap f))) (do store id (g (← onHeap f)))
      fun _ _ m m' => (Meet h₀ hid l l' m m' ∧ Visible hid m (some id)) ∧
        (m.value (some id)).defined = true := by
  intro m m' hm
  obtain ⟨hval, hheap⟩ := hm.1.peer.heap.blind hf (he m.heap)
  have hmeet := hm.1.withHeap hheap (he m.heap).cells
  have hlt : id < (f m.heap).2.cells.size := Nat.lt_of_lt_of_le (hm.2 id rfl).2 (he m.heap).cells
  change Joint h₀ _ (store id (g (f m.heap).1) _) (store id (g (f m'.heap).1) _)
  rw [hval]
  refine ⟨⟨sim_store id (g (f m.heap).1) _ _ hmeet, visible_mono hm.2 ?_⟩, ?_⟩
  · simpa [Heap.store] using (he m.heap).cells
  simp only [Machine.value, Heap.value, Heap.store, Heap.cell, Array.getD_eq_getD_getElem?, Array.getElem?_modify]
  simp [hlt, hg]

theorem sim_vivify (p : Priv) :
    Sim h₀ (fun m m' => Meet h₀ hid l l' m m' ∧ Visible hid m c) (vivify c p) (vivify c p)
      fun _ _ m m' => (Meet h₀ hid l l' m m' ∧ Visible hid m c) ∧
        (p.derefs = true → (m.value c).defined = true) := by
  unfold vivify
  refine Sim.bind (sim_read (valueOf_apply c) (valueOf_apply c)) fun v v' => ?_
  refine Sim.given (F := v' = v) (R := fun m m' => (Meet h₀ hid l l' m m' ∧ Visible hid m c) ∧ v = m.value c)
    (fun m m' hm => ⟨⟨hm.1, hm.2.1⟩, ?_⟩) ?_
  · rw [hm.2.1, hm.2.2]
    exact hm.1.1.peer.value_eq hm.1.2
  rintro rfl
  split
  · rename_i hcond
    refine .pure fun m m' hm => ⟨hm.1, fun hp => ?_⟩
    rw [← hm.2]
    simpa [hp] using hcond
  · cases c with
    | none => exact sim_fatal fun m m' hm => hm.1.1.peer
    | some id =>
      refine Sim.bind (sim_read (f := fun m => (id, m.heap.cell id)) (g := fun m => (id, m.heap.cell id))
        (fun _ => rfl) fun _ => rfl) fun u w => ?_
      refine Sim.given (F := u.1 = id ∧ w = u)
        (R := fun m m' => Meet h₀ hid l l' m m' ∧ Visible hid m (some id)) (fun m m' hm => ?_) ?_
      · obtain ⟨⟨⟨hmeet, hvis⟩, -⟩, rfl, rfl⟩ := hm
        exact ⟨⟨hmeet, hvis⟩, rfl, by rw [hmeet.peer.heap.cell id (hvis id rfl).1]⟩
      · rintro ⟨hid', rfl⟩
        obtain ⟨id', cell⟩ := w
        obtain rfl : id' = id := hid'
        dsimp only
        split
        · exact sim_throwAt _ fun m m' hm => hm.1.peer
        · split
          · refine (sim_fill (Heap.blind_newArray {}) ?_ defined_array).post fun _ _ m m' hm => ?_
            · exact fun h => h.newArray_evolves (by simp)
            · exact ⟨hm.1, fun _ => hm.2⟩
          · refine (sim_fill Heap.blind_newTable Heap.newTable_evolves defined_hash).post
              fun _ _ m m' hm => ?_
            exact ⟨hm.1, fun _ => hm.2⟩

theorem sim_cellValue {f : Value → Exec α} {Q : α → α → Machine → Machine → Prop}
    (hf : ∀ v, Sim h₀ (Meet h₀ hid l l') (f v) (f v) Q) :
    Sim h₀ (fun m m' => Meet h₀ hid l l' m m' ∧ Visible hid m c) (do f (← cellOf c).2.value)
      (do f (← cellOf c).2.value) Q := by
  cases c with
  | none => exact sim_fatal fun m m' hm => hm.1.peer
  | some id =>
    intro m m' ⟨hm, hvis⟩
    change Joint h₀ Q (f (m.heap.cell id).value m) (f (m'.heap.cell id).value m')
    rw [hm.peer.heap.cell id (hvis id rfl).1]
    exact hf _ m m' hm

theorem derefArray_of_defined {lval : Bool} {m : Machine}
    (h : lval = true → (m.value c).defined = true) :
    derefArray (.scalar c) lval m = derefArray (.scalar c) false m := by
  cases lval with
  | false => rfl
  | true =>
    unfold derefArray
    exact bind_of_ok (vivify_of_defined fun _ => h rfl)

theorem derefHash_of_defined {lval : Bool} {m : Machine}
    (h : lval = true → (m.value c).defined = true) :
    derefHash (.scalar c) lval m = derefHash (.scalar c) false m := by
  cases lval with
  | false => rfl
  | true =>
    unfold derefHash
    exact bind_of_ok (vivify_of_defined fun _ => h rfl)

def arrayIn : Value → Exec (Option ArrayId)
  | .array a => pure (some a)
  | .undefined => throwAt (utf8 "Can't use an undefined value as an ARRAY reference")
  | _ => throwAt (utf8 "Not an ARRAY reference")

theorem sim_derefArray (lval : Bool) :
    Sim h₀ (fun m m' => (Meet h₀ hid l l' m m' ∧ Visible hid m c) ∧
        (lval = true → (m.value c).defined = true))
      (derefArray (.scalar c) lval) (derefArray (.scalar c) false)
      fun u v m m' => Meet h₀ hid l l' m m' ∧ v = u := by
  intro m m' hm
  rw [derefArray_of_defined hm.2]
  refine sim_cellValue (f := arrayIn) (fun v => ?_) m m' hm.1
  cases v with
  | array a => exact .pure fun m m' hm => ⟨hm, rfl⟩
  | _ => exact sim_throwAt _ fun m m' hm => hm.peer

def hashIn : Value → Exec (Option TableId)
  | .hash t => pure (some t)
  | .undefined => throwAt (utf8 "Can't use an undefined value as a HASH reference")
  | _ => throwAt (utf8 "Not a HASH reference")

theorem sim_derefHash (lval : Bool) :
    Sim h₀ (fun m m' => (Meet h₀ hid l l' m m' ∧ Visible hid m c) ∧
        (lval = true → (m.value c).defined = true))
      (derefHash (.scalar c) lval) (derefHash (.scalar c) false)
      fun u v m m' => Meet h₀ hid l l' m m' ∧ v = u := by
  intro m m' hm
  rw [derefHash_of_defined hm.2]
  refine sim_cellValue (f := hashIn) (fun v => ?_) m m' hm.1
  cases v with
  | hash t => exact .pure fun m m' hm => ⟨hm, rfl⟩
  | _ => exact sim_throwAt _ fun m m' hm => hm.peer

end Scalars

section Elements

variable (h₀c : ∀ c : Nat, h₀.Refers c → c < h₀.cells.size)

/-- Is an index inside of a shape. -/
def InShape (shape : Int) (i : Int64) : Prop :=
  let j := if i < 0 then i.toInt + shape else i.toInt
  0 ≤ j ∧ j < shape

theorem sim_needed {x : Option α} :
    Sim h₀ (Meet h₀ hid l l') (needed x) (needed x) fun u v m m' =>
      Meet h₀ hid l l' m m' ∧ v = u ∧ x = some u := by
  cases x with
  | none => exact sim_fatal fun m m' hm => hm.peer
  | some x => exact .pure fun m m' hm => ⟨hm, rfl, rfl⟩

include h₀c

theorem visible_elem {h h' : Heap} (hp : Heap.Peer h₀ hid h h') {a : ArrayId} {i : Int64} {create : Bool}
    {c : CellId} (hc : (h.fetchElem a i create).1.1 = some c) :
    Shown hid (h.fetchElem a i create).2 (.scalar c) := by
  refine ⟨hp.elem_not_hidden hc, ?_⟩
  simp only [Heap.fetchElem] at hc ⊢
  split at hc
  · exact absurd hc (by simp)
  · rename_i hj
    rw [if_neg hj]
    split at hc
    · rename_i hget
      obtain rfl := Option.some.inj hc
      exact hp.refers_lt h₀c (Heap.refers_of_get hget)
    · split at hc
      · rename_i hcreate
        obtain rfl := Option.some.inj hc
        simp [hcreate, Heap.newCell]
      · exact absurd hc (by simp)

theorem visible_key {h h' : Heap} (hp : Heap.Peer h₀ hid h h') {t : TableId} {k : Bytes} {create : Bool}
    {c : CellId} (hc : (h.fetchKey t k create).1 = some c) :
    Shown hid (h.fetchKey t k create).2 (.scalar c) := by
  refine ⟨hp.key_not_hidden hc, ?_⟩
  simp only [Heap.fetchKey] at hc ⊢
  split at hc
  · rename_i hget
    obtain rfl := Option.some.inj hc
    exact hp.refers_lt h₀c (Heap.refers_of_key hget)
  · split at hc
    · rename_i hcreate
      obtain rfl := Option.some.inj hc
      simp [hcreate, Heap.newCell]
    · exact absurd hc (by simp)

theorem sim_elemAt (a : ArrayId) (i : Int64) (lval : Bool) :
    Sim h₀ (Meet h₀ hid l l')
      (do
        let (c, ok) ← onHeap fun h => h.fetchElem a i lval
        if !ok && lval then
          throwAt (utf8 "Modification of non-creatable array value attempted, subscript " ++
            Bytes.ofInt i.toInt)
        else return c : Exec (Option CellId))
      (do
        let (c, ok) ← onHeap fun h => h.fetchElem a i lval
        if !ok && lval then
          throwAt (utf8 "Modification of non-creatable array value attempted, subscript " ++
            Bytes.ofInt i.toInt)
        else return c : Exec (Option CellId))
      fun u v m m' => (Meet h₀ hid l l' m m' ∧ Visible hid m u) ∧ v = u := by
  refine Sim.bind (sim_onHeap (Heap.blind_fetchElem a i lval) fun h => h.fetchElem_evolves a i lval)
    fun u v => ?_
  refine Sim.given (F := v = u) (R := fun m m' => Meet h₀ hid l l' m m' ∧ Visible hid m u.1)
    (fun m m' hm => ?_) ?_
  · obtain ⟨hmeet, rfl, h, h', hp, rfl, hheap⟩ := hm
    refine ⟨⟨hmeet, fun c hc => ?_⟩, rfl⟩
    rw [hheap]
    exact visible_elem h₀c hp hc
  · rintro rfl
    obtain ⟨c, ok⟩ := v
    dsimp only
    split
    · exact sim_throwAt _ fun m m' hm => hm.1.peer
    · exact .pure fun m m' hm => ⟨hm, rfl⟩

theorem sim_fetchElem {a : Option ArrayId} (i : Int64) (lval : Bool) {checked checked' : Bool}
    (hch : checked' = checked ∨ ∀ b, a = some b → b < h₀.arrays.size ∧ InShape (h₀.array b).shape i) :
    Sim h₀ (Meet h₀ hid l l') (fetchElem a i lval checked) (fetchElem a i lval checked')
      fun u v m m' => (Meet h₀ hid l l' m m' ∧ Visible hid m u) ∧ v = u := by
  unfold fetchElem
  refine sim_needed.step fun _ b hb => ?_
  obtain ⟨rfl, rfl⟩ := hb
  -- The shape is read off the heap, so the check is decided on the machines at hand.
  intro m m' hm
  rw [bind_of_ok (rfl : array b m = .ok (m.heap.array b) m),
    bind_of_ok (rfl : array b m' = .ok (m'.heap.array b) m'), hm.peer.heap.array b]
  dsimp only
  rcases hch with rfl | hch
  · exact Sim.ite (sim_throwAt _ fun m m' hm => hm.peer) (sim_elemAt h₀c b i lval) m m' hm
  · obtain ⟨hlt, hin⟩ := hch b rfl
    rw [hm.peer.heap.evolves.shape b hlt, if_neg, if_neg]
    · exact sim_elemAt h₀c b i lval m m' hm
    · simp only [InShape] at hin
      simp [hin.1, hin.2]
    · simp only [InShape] at hin
      simp [hin.1, hin.2]

theorem sim_fetchKey (t : TableId) (k : Bytes) (lval : Bool) :
    Sim h₀ (Meet h₀ hid l l') (onHeap fun h => h.fetchKey t k lval) (onHeap fun h => h.fetchKey t k lval)
      fun u v m m' => (Meet h₀ hid l l' m m' ∧ Visible hid m u) ∧ v = u := by
  refine (sim_onHeap (Heap.blind_fetchKey t k lval) fun h => h.fetchKey_evolves t k lval).post
    fun u v m m' hm => ?_
  obtain ⟨hmeet, hv, h, h', hp, hu, hheap⟩ := hm
  refine ⟨⟨hmeet, fun c hc => ?_⟩, hv⟩
  rw [hheap]
  exact visible_key h₀c hp (hu ▸ hc)

omit h₀c in
theorem fetchElem_of_present {h : Heap} {a : ArrayId} {i : Int64} (hp : (h.array a).hasElem i = true) :
    ∃ c, ∀ create, h.fetchElem a i create = ((some c, true), h) := by
  obtain ⟨c, hc⟩ := Option.isSome_iff_exists.mp hp
  refine ⟨c, fun create => ?_⟩
  have hj : ¬ (h.array a).resolve i < 0 := by
    intro hj
    rw [Arr.get?, if_pos hj] at hc
    cases hc
  simp only [Heap.fetchElem]
  rw [if_neg hj, hc]

theorem sim_fetchElem_present {a : Option ArrayId} (i : Int64) {lval lval' checked checked' : Bool}
    (hch : checked' = checked ∨ ∀ b, a = some b → b < h₀.arrays.size ∧ InShape (h₀.array b).shape i) :
    Sim h₀ (fun m m' => Meet h₀ hid l l' m m' ∧
        (lval' = lval ∨ ∀ b, a = some b → (m.heap.array b).hasElem i = true))
      (fetchElem a i lval checked) (fetchElem a i lval' checked')
      fun u v m m' => (Meet h₀ hid l l' m m' ∧ Visible hid m u) ∧ v = u := by
  rintro m m' ⟨hm, rfl | hpres⟩
  · exact sim_fetchElem h₀c i lval' hch m m' hm
  · have hsame : fetchElem a i lval checked m = fetchElem a i lval' checked m := by
      cases a with
      | none => rfl
      | some b =>
        obtain ⟨c, hc⟩ := fetchElem_of_present (hpres b rfl)
        have hok (create : Bool) : onHeap (fun h => h.fetchElem b i create) m = .ok (some c, true) m := by
          simp only [onHeap, modifyGet, MonadStateOf.modifyGet, modifyGet_run, hc]
        have harr : array b m = .ok (m.heap.array b) m := rfl
        simp only [fetchElem, needed, pure_bind]
        rw [bind_of_ok harr, bind_of_ok harr]
        generalize (if i < 0 then i.toInt + (m.heap.array b).shape else i.toInt) = j
        by_cases hout : (checked && decide (0 ≤ (m.heap.array b).shape) &&
            (decide (j < 0) || decide ((m.heap.array b).shape ≤ j))) = true
        · rw [if_pos hout, if_pos hout]
        · rw [if_neg hout, if_neg hout, bind_of_ok (hok lval), bind_of_ok (hok lval')]
          rfl
    rw [hsame]
    exact sim_fetchElem h₀c i lval' hch m m' hm

theorem sim_fetchKey_present (t : TableId) (k : Bytes) {lval lval' : Bool} :
    Sim h₀ (fun m m' => Meet h₀ hid l l' m m' ∧
        (lval' = lval ∨ (m.heap.table t).hasKey k = true))
      (onHeap fun h => h.fetchKey t k lval) (onHeap fun h => h.fetchKey t k lval')
      fun u v m m' => (Meet h₀ hid l l' m m' ∧ Visible hid m u) ∧ v = u := by
  rintro m m' ⟨hm, rfl | hpres⟩
  · exact sim_fetchKey h₀c t k lval' m m' hm
  · have hsame : (onHeap fun h => h.fetchKey t k lval) m = (onHeap fun h => h.fetchKey t k lval') m := by
      obtain ⟨c, hc⟩ := Option.isSome_iff_exists.mp hpres
      simp only [onHeap, modifyGet, MonadStateOf.modifyGet, modifyGet_run, Heap.fetchKey, hc]
    rw [hsame]
    exact sim_fetchKey h₀c t k lval' m m' hm

omit h₀c in
theorem sim_temp (v : Value) :
    Sim h₀ (Meet h₀ hid l l') (temp v) (temp v)
      fun c d m m' => (Meet h₀ hid l l' m m' ∧ Visible hid m (some c)) ∧ d = c := by
  refine (sim_onHeap (Heap.blind_newCell v false) fun h => h.newCell_evolves v false).post
    fun c d m m' hm => ?_
  obtain ⟨hmeet, hd, h, h', hp, rfl, hheap⟩ := hm
  refine ⟨⟨hmeet, fun id hc => ?_⟩, hd⟩
  obtain rfl := Option.some.inj hc
  refine ⟨hp.size_not_hidden, ?_⟩
  rw [hheap]
  simp [Heap.newCell]

omit h₀c in
theorem sim_present {c : Option CellId} :
    Sim h₀ (fun m m' => Meet h₀ hid l l' m m' ∧ Visible hid m c) (present c) (present c)
      fun u v m m' => (Meet h₀ hid l l' m m' ∧ Visible hid m (some u)) ∧ v = u := by
  cases c with
  | none => exact (sim_temp .undefined).pre fun m m' hm => hm.1
  | some c => exact .pure fun m m' hm => ⟨hm, rfl⟩

omit h₀c in
theorem sim_padSlot (targ : Int) :
    Sim h₀ (Meet h₀ hid l l') (padSlot targ) (padSlot targ)
      fun s t m m' => (Meet h₀ hid l l' m m' ∧ Visible hid m s.scalar?) ∧ t = s := by
  intro m m' hm
  simp only [padSlot, bind, EStateM.bind, get, getThe, MonadStateOf.get, get_run, hm.peer.pad_eq]
  by_cases ht : targ < 0
  · rw [if_pos ht]
    exact ⟨.refl _, hid, hm.peer⟩
  · rw [if_neg ht]
    cases hs : m.pad[targ.toNat]? with
    | none => exact ⟨.refl _, hid, hm.peer⟩
    | some s =>
      refine ⟨⟨hm, fun id hc => ?_⟩, rfl⟩
      cases s with
      | scalar c =>
        obtain rfl := Option.some.inj hc
        exact hm.peer.pad _ _ hs
      | array a => exact absurd hc (by simp [PadSlot.scalar?])
      | hash t => exact absurd hc (by simp [PadSlot.scalar?])

theorem sim_taken {f : Heap → Option CellId × Heap} (hf : Heap.Blind f)
    (he : ∀ h : Heap, h.Evolves (f h).2) (hr : ∀ (h : Heap) c, (f h).1 = some c → h.Refers c) :
    Sim h₀ (Meet h₀ hid l l') (onHeap f) (onHeap f)
      fun x y m m' => (Meet h₀ hid l l' m m' ∧ Visible hid m x) ∧ y = x := by
  refine (sim_onHeap hf he).post fun x y m m' hm => ?_
  obtain ⟨hmeet, hy, h, h', hp, rfl, hheap⟩ := hm
  refine ⟨⟨hmeet, fun id hc => ⟨hp.not_hidden (hr h id hc), ?_⟩⟩, hy⟩
  rw [hheap]
  exact Nat.lt_of_lt_of_le (hp.refers_lt h₀c (hr h id hc)) (he h).cells

section Tests

variable {c : Item} {k : Option CellId} {w : Value} (t t' u u' : Opcode)

def IsContainer (hash : Bool) : Item → Prop
  | .array _ => hash = false
  | .hash _ => hash = true
  | _ => False

omit h₀c in
theorem sim_existsIn {hash : Bool} (hc : IsContainer hash c) :
    Sim h₀ (fun m m' => Meet h₀ hid l l' m m' ∧ m.value k = w ∧ Value.SameKey hash w (m'.value k))
      (existsIn c k t u) (existsIn c k t' u') fun b b' m m' => Meet h₀ hid l l' m m' ∧ b' = b := by
  cases c with
  | array a =>
    obtain rfl : hash = false := hc
    refine Sim.step ((sim_toInt t t' fun _ => True).pre fun m m' hm => ⟨⟨hm.1, trivial⟩, hm.2⟩)
      fun i i' hi => ?_
    refine Sim.step (sim_needed.pre fun m m' hm => hm.1) fun b b' hb => ?_
    obtain ⟨rfl, -⟩ := hb
    intro m m' hm
    exact ⟨hm, by rw [hi.1, hi.2, hm.peer.heap.array]⟩
  | hash s =>
    obtain rfl : hash = true := hc
    refine Sim.step ((sim_toText u u' fun _ => True).pre fun m m' hm => ⟨⟨hm.1, trivial⟩, hm.2⟩)
      fun i i' hi => ?_
    refine Sim.step (sim_needed.pre fun m m' hm => hm.1) fun b b' hb => ?_
    obtain ⟨rfl, -⟩ := hb
    intro m m' hm
    exact ⟨hm, by rw [hi.1, hi.2, hm.peer.heap.table]⟩
  | scalar c => exact hc.elim
  | glob g => exact hc.elim
  | vacant => exact hc.elim

theorem sim_deleteFrom {hash : Bool} (hc : IsContainer hash c) :
    Sim h₀ (fun m m' => Meet h₀ hid l l' m m' ∧ m.value k = w ∧ Value.SameKey hash w (m'.value k))
      (deleteFrom c k t u) (deleteFrom c k t' u')
      fun x y m m' => (Meet h₀ hid l l' m m' ∧ Visible hid m x) ∧ y = x := by
  cases c with
  | array a =>
    obtain rfl : hash = false := hc
    refine Sim.step ((sim_toInt t t' fun _ => True).pre fun m m' hm => ⟨⟨hm.1, trivial⟩, hm.2⟩)
      fun i i' hi => ?_
    obtain ⟨rfl, rfl⟩ := hi
    refine Sim.step (sim_needed.pre fun m m' hm => hm.1) fun _ b hb => ?_
    obtain ⟨rfl, -⟩ := hb
    exact sim_taken h₀c (Heap.blind_takeElem b _) (fun h => h.takeElem_evolves b _) fun _ _ hc =>
      Heap.refers_of_takeElem hc
  | hash s =>
    obtain rfl : hash = true := hc
    refine Sim.step ((sim_toText u u' fun _ => True).pre fun m m' hm => ⟨⟨hm.1, trivial⟩, hm.2⟩)
      fun i i' hi => ?_
    obtain ⟨rfl, rfl⟩ := hi
    refine Sim.step (sim_needed.pre fun m m' hm => hm.1) fun _ b hb => ?_
    obtain ⟨rfl, -⟩ := hb
    exact sim_taken h₀c (Heap.blind_takeKey b _) (fun h => h.takeKey_evolves b _) fun _ _ hc =>
      Heap.refers_of_takeKey hc
  | scalar c => exact hc.elim
  | glob g => exact hc.elim
  | vacant => exact hc.elim

end Tests

end Elements

end Exec

end OpTree
