import OpTree.Machine.Run
import OpTree.Proofs.Sequencing
import Mathlib.Tactic.Common

/-!
# How heaps change

No operation on a heap takes anything away or makes up a reference: cells, arrays and tables stay, an array
keeps its shape, and what is referred to afterwards was referred to before or is new. Only cells that are
not read-only are written.
-/

namespace OpTree

set_option autoImplicit false

/-- A cell that an array, a hash or a global refers to. -/
inductive Heap.Refers (h : Heap) (c : CellId) : Prop where
  | array (a : ArrayId) (hc : some c ∈ (h.array a).elems)
  | table (t : TableId) (k : Bytes) (hc : (k, c) ∈ (h.table t).entries)
  | glob (g : GlobId) (hc : (h.glob g).scalar? = some c)

/-- Nothing is ever removed from the heap, an array keeps its shape, and whatever the heap comes to
refer to is new. -/
structure Heap.Evolves (h h' : Heap) : Prop where
  cells : h.cells.size ≤ h'.cells.size
  arrays : h.arrays.size ≤ h'.arrays.size
  shape : ∀ a < h.arrays.size, (h'.array a).shape = (h.array a).shape
  refers : ∀ c : Nat, h'.Refers c → h.Refers c ∨ h.cells.size ≤ c ∧ c < h'.cells.size

namespace Heap

variable {h h' h'' : Heap}

theorem Evolves.refl (h : Heap) : Evolves h h :=
  ⟨Nat.le_refl _, Nat.le_refl _, fun _ _ => rfl, fun _ => Or.inl⟩

theorem Evolves.trans (e : Evolves h h') (e' : Evolves h' h'') : Evolves h h'' where
  cells := Nat.le_trans e.cells e'.cells
  arrays := Nat.le_trans e.arrays e'.arrays
  shape a ha := (e'.shape a (Nat.lt_of_lt_of_le ha e.arrays)).trans (e.shape a ha)
  refers c hc := by
    have hle := e.cells
    have hle' := e'.cells
    rcases e'.refers c hc with hc | hc
    · rcases e.refers c hc with hc | hc
      · exact Or.inl hc
      · exact Or.inr (by omega)
    · exact Or.inr (by omega)

theorem Evolves.of_cells {cells : Array Cell} (hc : h.cells.size ≤ cells.size) :
    Evolves h { h with cells := cells } where
  cells := hc
  arrays := Nat.le_refl _
  shape _ _ := rfl
  refers c hr := by
    refine Or.inl ?_
    cases hr with
    | array a hc => exact .array a hc
    | table t k hc => exact .table t k hc
    | glob g hc => exact .glob g hc

theorem array_modify (h : Heap) (a b : ArrayId) (f : Arr → Arr) :
    ({ h with arrays := h.arrays.modify a f } : Heap).array b = h.array b ∨
      b < h.arrays.size ∧ b = a ∧
        ({ h with arrays := h.arrays.modify a f } : Heap).array b = f (h.array b) := by
  simp only [array, Array.getD_eq_getD_getElem?, Array.getElem?_modify]
  by_cases hb : b < h.arrays.size
  · by_cases he : a = b
    · subst he
      exact Or.inr ⟨hb, rfl, by simp [hb]⟩
    · exact Or.inl (by simp [he])
  · refine Or.inl ?_
    simp [hb]

theorem table_modify (h : Heap) (t u : TableId) (f : Table → Table) :
    ({ h with tables := h.tables.modify t f } : Heap).table u = h.table u ∨
      u = t ∧ ({ h with tables := h.tables.modify t f } : Heap).table u = f (h.table u) := by
  simp only [table, Array.getD_eq_getD_getElem?, Array.getElem?_modify]
  by_cases hu : u < h.tables.size
  · by_cases he : t = u
    · subst he
      exact Or.inr ⟨rfl, by simp [hu]⟩
    · exact Or.inl (by simp [he])
  · refine Or.inl ?_
    simp [hu]

theorem glob_modify (h : Heap) (g k : GlobId) (f : Glob → Glob) :
    ({ h with globs := h.globs.modify g f } : Heap).glob k = h.glob k ∨
      ({ h with globs := h.globs.modify g f } : Heap).glob k = f (h.glob k) := by
  simp only [glob, Array.getD_eq_getD_getElem?, Array.getElem?_modify]
  by_cases hk : k < h.globs.size
  · by_cases he : g = k
    · subst he
      exact Or.inr (by simp [hk])
    · exact Or.inl (by simp [he])
  · refine Or.inl ?_
    simp [hk]

theorem newCell_evolves (h : Heap) (v : Value) (ro : Bool) : Evolves h (h.newCell v ro).2 :=
  .of_cells (by simp)

theorem store_evolves (h : Heap) (c : CellId) (v : Value) : Evolves h (h.store c v) :=
  .of_cells (by simp)

theorem newArray_evolves (h : Heap) {x : Arr} (hx : ∀ c, some c ∉ x.elems) :
    Evolves h (h.newArray x).2 where
  cells := Nat.le_refl _
  arrays := by simp [newArray]
  shape a ha := by simp [newArray, array, Array.getElem?_push, Nat.ne_of_lt ha]
  refers c hr := by
    refine Or.inl ?_
    cases hr with
    | array a hc =>
      simp only [newArray, array, Array.getD_eq_getD_getElem?, Array.getElem?_push] at hc
      split at hc
      · exact absurd hc (hx c)
      · exact .array a (by simpa [array] using hc)
    | table t k hc => exact .table t k hc
    | glob g hc => exact .glob g hc

theorem notMem_ofShape (shape : Int) (c : CellId) : some c ∉ (Arr.ofShape shape).elems := by
  simp [Arr.ofShape, Array.mem_replicate]

theorem newTable_evolves (h : Heap) : Evolves h h.newTable.2 where
  cells := Nat.le_refl _
  arrays := Nat.le_refl _
  shape _ _ := rfl
  refers c hr := by
    refine Or.inl ?_
    cases hr with
    | array a hc => exact .array a hc
    | table t k hc =>
      simp only [newTable, table, Array.getD_eq_getD_getElem?, Array.getElem?_push] at hc
      split at hc
      · simp at hc
      · exact .table t k (by simpa [table] using hc)
    | glob g hc => exact .glob g hc

theorem mem_put {x : Arr} {i : Nat} {c d : CellId} (h : some d ∈ (x.put i c).elems) :
    some d ∈ x.elems ∨ d = c := by
  simp only [Arr.put] at h
  rcases Array.mem_or_eq_of_mem_setIfInBounds h with h | h
  · rcases Array.mem_append.mp h with h | h
    · exact Or.inl h
    · simp [Array.mem_replicate] at h
  · exact Or.inr (Option.some.inj h)

theorem fetchElem_evolves (h : Heap) (a : ArrayId) (i : Int64) (create : Bool) :
    Evolves h (h.fetchElem a i create).2 := by
  unfold fetchElem
  simp only
  split
  · exact .refl h
  · split
    · exact .refl h
    · split
      · have hcells := (newCell_evolves h .undefined false).cells
        refine ⟨hcells, by simp [newCell], fun b hb => ?_, fun c hr => ?_⟩
        · rcases (h.newCell .undefined false).2.array_modify a b (fun x => x.put _ _) with he | ⟨-, -, he⟩
          · rw [he]
            rfl
          · rw [he]
            rfl
        · cases hr with
          | array b hc =>
            rcases (h.newCell .undefined false).2.array_modify a b (fun x => x.put _ _) with
              he | ⟨-, -, he⟩
            · exact Or.inl (.array b (he ▸ hc))
            · rcases mem_put (he ▸ hc) with hc | rfl
              · exact Or.inl (.array b hc)
              · exact Or.inr (by simp [newCell])
          | table t k hc => exact Or.inl (.table t k hc)
          | glob g hc => exact Or.inl (.glob g hc)
      · exact .refl h

theorem shape_take (x : Arr) (i : Int64) : (x.take i).2.shape = x.shape := by
  unfold Arr.take
  simp only
  split <;> rfl

theorem mem_dropAbsent {xs : Array (Option CellId)} {x : Option CellId} (h : x ∈ Arr.dropAbsent xs) :
    x ∈ xs := by
  obtain ⟨xs⟩ := xs
  rw [Arr.dropAbsent, List.popWhile_toArray, List.mem_toArray, List.mem_reverse] at h
  simpa using (List.dropWhile_sublist _).subset h

theorem mem_take {x : Arr} {i : Int64} {c : CellId} (h : some c ∈ (x.take i).2.elems) :
    some c ∈ x.elems := by
  unfold Arr.take at h
  simp only at h
  split at h
  · exact h
  · have hset : some c ∈ x.elems.setIfInBounds (x.resolve i).toNat none → some c ∈ x.elems := fun h =>
      (Array.mem_or_eq_of_mem_setIfInBounds h).resolve_right (by simp)
    simp only at h
    split at h
    · exact hset (mem_dropAbsent h)
    · exact hset h

theorem takeElem_evolves (h : Heap) (a : ArrayId) (i : Int64) : Evolves h (h.takeElem a i).2 where
  cells := Nat.le_refl _
  arrays := by simp [takeElem]
  shape b hb := by
    rcases h.array_modify a b (fun _ => ((h.array a).take i).2) with he | ⟨-, rfl, he⟩
    · exact congrArg Arr.shape he
    · exact (congrArg Arr.shape he).trans (shape_take _ i)
  refers c hr := by
    refine Or.inl ?_
    cases hr with
    | array b hc =>
      rcases h.array_modify a b (fun _ => ((h.array a).take i).2) with he | ⟨-, rfl, he⟩
      · exact .array b (he ▸ hc)
      · exact .array b (mem_take (he ▸ hc))
    | table t k hc => exact .table t k hc
    | glob g hc => exact .glob g hc

theorem fetchKey_evolves (h : Heap) (t : TableId) (k : Bytes) (create : Bool) :
    Evolves h (h.fetchKey t k create).2 := by
  unfold fetchKey
  split
  · exact .refl h
  · split
    · refine ⟨(newCell_evolves h .undefined false).cells, Nat.le_refl _, fun _ _ => rfl, fun c hr => ?_⟩
      cases hr with
      | array a hc => exact Or.inl (.array a hc)
      | table u j hc =>
        rcases (h.newCell .undefined false).2.table_modify t u (fun x => x.put k _) with he | ⟨-, he⟩
        · exact Or.inl (.table u j (he ▸ hc))
        · have hc := he ▸ hc
          rcases Array.mem_push.mp hc with hc | hc
          · exact Or.inl (.table u j hc)
          · obtain rfl := (Prod.mk.inj hc).2
            exact Or.inr (by simp [newCell])
      | glob g hc => exact Or.inl (.glob g hc)
    · exact .refl h

theorem takeKey_evolves (h : Heap) (t : TableId) (k : Bytes) : Evolves h (h.takeKey t k).2 where
  cells := Nat.le_refl _
  arrays := Nat.le_refl _
  shape _ _ := rfl
  refers c hr := by
    refine Or.inl ?_
    cases hr with
    | array a hc => exact .array a hc
    | table u j hc =>
      rcases h.table_modify t u (fun _ => ((h.table t).take k).2) with he | ⟨rfl, he⟩
      · exact .table u j (he ▸ hc)
      · have hc := he ▸ hc
        exact .table u j (Array.mem_of_mem_filter hc)
    | glob g hc => exact .glob g hc

theorem Evolves.of_globs {globs : Array Glob}
    (hg : ∀ g c, (({ h with globs := globs } : Heap).glob g).scalar? = some c →
      (h.glob g).scalar? = some c) : Evolves h { h with globs := globs } where
  cells := Nat.le_refl _
  arrays := Nat.le_refl _
  shape _ _ := rfl
  refers c hr := by
    refine Or.inl ?_
    cases hr with
    | array a hc => exact .array a hc
    | table t k hc => exact .table t k hc
    | glob g hc => exact .glob g (hg g c hc)

theorem globNamed_evolves (h : Heap) (name : Bytes) : Evolves h (h.globNamed name).2 := by
  unfold globNamed
  split
  · exact .refl h
  · refine .of_globs fun g c hc => ?_
    simp only [glob, Array.getD_eq_getD_getElem?, Array.getElem?_push] at hc ⊢
    split at hc
    · simp at hc
    · exact hc

theorem globScalar_evolves (h : Heap) (g : GlobId) : Evolves h (h.globScalar g).2 := by
  unfold globScalar
  split
  · exact .refl h
  · refine ⟨(newCell_evolves h .undefined false).cells, Nat.le_refl _, fun _ _ => rfl, fun c hr => ?_⟩
    cases hr with
    | array a hc => exact Or.inl (.array a hc)
    | table t k hc => exact Or.inl (.table t k hc)
    | glob k hc =>
      rcases (h.newCell .undefined false).2.glob_modify g k
        (fun x => { x with scalar? := some (h.newCell .undefined false).1 }) with he | he
      · exact Or.inl (.glob k (he ▸ hc))
      · have hc := he ▸ hc
        obtain rfl := Option.some.inj hc
        exact Or.inr (by simp [newCell])

theorem globArray_evolves (h : Heap) (g : GlobId) : Evolves h (h.globArray g).2 := by
  unfold globArray
  split
  · exact .refl h
  · refine (newArray_evolves h (x := {}) (by simp)).trans (.of_globs fun k c hc => ?_)
    rcases (h.newArray {}).2.glob_modify g k
      (fun x => { x with array? := some (h.newArray {}).1 }) with he | he
    · exact he ▸ hc
    · exact (congrArg Glob.scalar? he).symm.trans hc

theorem globTable_evolves (h : Heap) (g : GlobId) : Evolves h (h.globTable g).2 := by
  unfold globTable
  split
  · exact .refl h
  · refine (newTable_evolves h).trans (.of_globs fun k c hc => ?_)
    rcases h.newTable.2.glob_modify g k
      (fun x => { x with table? := some h.newTable.1 }) with he | he
    · exact he ▸ hc
    · exact (congrArg Glob.scalar? he).symm.trans hc

end Heap

theorem Machine.fresh_evolves (names? : Option Pad) (h : Heap) (targ : Int) :
    h.Evolves (Machine.fresh names? h targ).2 := by
  unfold Machine.fresh
  simp only
  split
  · exact Heap.newCell_evolves h _ _
  · split
    · exact Heap.newArray_evolves h (Heap.notMem_ofShape _)
    · exact Heap.newTable_evolves h
    · exact Heap.newCell_evolves h _ _

/-- The cells that are read-only in `h` are so in `h'`, and hold the same. -/
def Heap.KeepsReadOnly (h h' : Heap) : Prop :=
  ∀ c : Nat, (h.cell c).readOnly = true → h'.cell c = h.cell c

/-- What an op may do to the heap: it evolves, and the cells that are read-only stay as they are. -/
structure Heap.Advances (h h' : Heap) : Prop extends Heap.Evolves h h' where
  readOnly : h.KeepsReadOnly h'

namespace Heap

variable {h h' h'' : Heap}

theorem lt_size_of_readOnly {c : Nat} (hc : (h.cell c).readOnly = true) : c < h.cells.size := by
  refine Nat.lt_of_not_le fun hle => ?_
  simp [cell, Nat.not_lt.mpr hle] at hc

theorem Evolves.advances (he : Evolves h h')
    (hc : h'.cells = h.cells ∨ ∃ x, h'.cells = h.cells.push x) : Advances h h' where
  toEvolves := he
  readOnly c hro := by
    rcases hc with hc | ⟨x, hc⟩
    · simp only [cell, hc]
    · have hlt := lt_size_of_readOnly hro
      simp [cell, hc, Array.getElem?_push, Nat.ne_of_lt hlt]

theorem newCell_advances (h : Heap) (v : Value) (ro : Bool) : Advances h (h.newCell v ro).2 :=
  (h.newCell_evolves v ro).advances (Or.inr ⟨_, rfl⟩)

theorem store_advances (h : Heap) {c : CellId} (v : Value) (hc : (h.cell c).readOnly = false) :
    Advances h (h.store c v) where
  toEvolves := h.store_evolves c v
  readOnly d hd := by
    have hne : c ≠ d := by
      rintro rfl
      rw [hc] at hd
      exact Bool.false_ne_true hd
    simp [cell, store, Array.getElem?_modify, hne]

theorem newArray_advances (h : Heap) {x : Arr} (hx : ∀ c, some c ∉ x.elems) :
    Advances h (h.newArray x).2 :=
  (h.newArray_evolves hx).advances (Or.inl rfl)

theorem newTable_advances (h : Heap) : Advances h h.newTable.2 :=
  h.newTable_evolves.advances (Or.inl rfl)

theorem fetchElem_advances (h : Heap) (a : ArrayId) (i : Int64) (create : Bool) :
    Advances h (h.fetchElem a i create).2 := by
  refine (h.fetchElem_evolves a i create).advances ?_
  unfold fetchElem
  simp only
  split
  · exact Or.inl rfl
  · split
    · exact Or.inl rfl
    · split
      · exact Or.inr ⟨_, rfl⟩
      · exact Or.inl rfl

theorem takeElem_advances (h : Heap) (a : ArrayId) (i : Int64) : Advances h (h.takeElem a i).2 :=
  (h.takeElem_evolves a i).advances (Or.inl rfl)

theorem fetchKey_advances (h : Heap) (t : TableId) (k : Bytes) (create : Bool) :
    Advances h (h.fetchKey t k create).2 := by
  refine (h.fetchKey_evolves t k create).advances ?_
  unfold fetchKey
  split
  · exact Or.inl rfl
  · split
    · exact Or.inr ⟨_, rfl⟩
    · exact Or.inl rfl

theorem takeKey_advances (h : Heap) (t : TableId) (k : Bytes) : Advances h (h.takeKey t k).2 :=
  (h.takeKey_evolves t k).advances (Or.inl rfl)

theorem globNamed_advances (h : Heap) (name : Bytes) : Advances h (h.globNamed name).2 := by
  refine (h.globNamed_evolves name).advances (Or.inl ?_)
  unfold globNamed
  split <;> rfl

theorem globScalar_advances (h : Heap) (g : GlobId) : Advances h (h.globScalar g).2 := by
  refine (h.globScalar_evolves g).advances ?_
  unfold globScalar
  split
  · exact Or.inl rfl
  · exact Or.inr ⟨_, rfl⟩

theorem globArray_advances (h : Heap) (g : GlobId) : Advances h (h.globArray g).2 := by
  refine (h.globArray_evolves g).advances (Or.inl ?_)
  unfold globArray
  split <;> rfl

theorem globTable_advances (h : Heap) (g : GlobId) : Advances h (h.globTable g).2 := by
  refine (h.globTable_evolves g).advances (Or.inl ?_)
  unfold globTable
  split <;> rfl

end Heap

theorem Machine.fresh_advances (names? : Option Pad) (h : Heap) (targ : Int) :
    h.Advances (Machine.fresh names? h targ).2 := by
  unfold Machine.fresh
  simp only
  split
  · exact Heap.newCell_advances h _ _
  · split
    · exact Heap.newArray_advances h (Heap.notMem_ofShape _)
    · exact Heap.newTable_advances h
    · exact Heap.newCell_advances h _ _

end OpTree
