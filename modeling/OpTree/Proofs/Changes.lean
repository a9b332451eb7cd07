import OpTree.Proofs.HeapChanges

/-!
# Computations within a relation

All that a step does to a machine is composed of a few kinds of change: to the stack, to the notes
a run leaves, to the heap, to a pad slot and to the loops. What a relation has to admit for each of them,
and that it then holds across the parts of which the steps are composed.
-/

namespace OpTree

set_option autoImplicit false

/-- A relation that admits every kind of change a step is composed of, but for those of variables and loops. -/
structure Machine.Spares (R : Machine → Machine → Prop) : Prop where
  refl : ∀ m, R m m
  trans : ∀ {m m' m''}, R m m' → R m' m'' → R m m''
  stack : ∀ m slots height marks, (m.height ≤ m.slots.size → height ≤ slots.size) →
    R m { m with slots := slots, height := height, marks := marks }
  notes : ∀ m place? warnings heard out result,
    R m { m with place? := place?, warnings := warnings, heard := heard, out := out, result := result }
  heap : ∀ m h, m.heap.Advances h → R m { m with heap := h }

/-- The changes of variables, and the rounds of the innermost loop. -/
structure Machine.Assigns (names? : Option Pad) (R : Machine → Machine → Prop) : Prop where
  scalar : ∀ m i c, c < m.heap.cells.size → R m { m with pad := m.pad.setIfInBounds i (.scalar c) }
  fresh : ∀ m (targ : Int), 0 ≤ targ →
    R m { m with heap := (Machine.fresh names? m.heap targ).2,
                 pad := m.pad.setIfInBounds targ.toNat (Machine.fresh names? m.heap targ).1 }
  advance : ∀ m l rest cur, m.loops = l :: rest →
    R m { m with loops := { l with cur := cur } :: rest }

structure Machine.Nests (R : Machine → Machine → Prop) : Prop where
  enter : ∀ m l, m.pad[l.targ.toNat]? = some l.saved → R m { m with loops := l :: m.loops }
  close : ∀ m l rest, m.loops = l :: rest → R m { m with loops := rest }
  restore : ∀ m l rest, m.loops = l :: rest →
    R m { m with loops := rest, pad := m.pad.setIfInBounds l.targ.toNat l.saved }

/-- A relation that admits every kind of change a step is composed of. -/
structure Machine.Admits (names? : Option Pad) (R : Machine → Machine → Prop) : Prop
  extends Machine.Spares R, Machine.Assigns names? R, Machine.Nests R

namespace Exec

variable {α β : Type}

/-- The machine after a computation, failed or not. -/
def after (x : Exec α) (m : Machine) : Machine :=
  match x m with
  | .ok _ m' => m'
  | .error _ m' => m'

/-- Whatever a computation does to a machine is within a relation. -/
def Within (R : Machine → Machine → Prop) (x : Exec α) : Prop := ∀ m, R m (x.after m)

variable {names? : Option Pad} {R : Machine → Machine → Prop}

theorem Within.ite {p : Prop} [Decidable p] {x y : Exec α} (hx : Within R x) (hy : Within R y) :
    Within R (if p then x else y) := by split <;> assumption

theorem Within.of_ok {x : Exec α} (hx : Within R x) {v : α} {m m' : Machine} (h : x m = .ok v m') :
    R m m' := by
  have := hx m
  rwa [after, h] at this

theorem get_run (m : Machine) : (EStateM.get : Exec Machine) m = .ok m m := rfl

theorem modifyGet_run (f : Machine → α × Machine) (m : Machine) :
    (EStateM.modifyGet f : Exec α) m = .ok (f m).1 (f m).2 := rfl

section Rules

variable (hR : Machine.Spares R)
include hR

theorem within_pure (v : α) : Within R (pure v : Exec α) := fun m => hR.refl m

theorem within_throw (e : Failure) : Within R (throw e : Exec α) := fun m => hR.refl m

theorem within_get : Within R (get : Exec Machine) := fun m => hR.refl m

theorem Within.bind {x : Exec α} {f : α → Exec β} (hx : Within R x) (hf : ∀ v, Within R (f v)) :
    Within R (x >>= f) := by
  intro m
  have h := hx m
  simp only [after, Bind.bind, EStateM.bind] at *
  cases hxm : x m with
  | error e m' =>
    rw [hxm] at h
    exact h
  | ok v m' =>
    rw [hxm] at h
    exact hR.trans h (hf v m')

theorem within_forM {xs : List α} {f : α → Exec Unit} (hf : ∀ x, Within R (f x)) :
    Within R (xs.forM f) := by
  induction xs with
  | nil => exact within_pure hR ()
  | cons x xs ih => exact Within.bind hR (hf x) fun _ => ih

theorem within_mapM {xs : List α} {f : α → Exec β} (hf : ∀ x, Within R (f x)) :
    Within R (xs.mapM f) := by
  induction xs with
  | nil => exact within_pure hR []
  | cons x xs ih =>
    rw [List.mapM_cons]
    exact Within.bind hR (hf x) fun _ => Within.bind hR ih fun _ => within_pure hR _

theorem within_onHeap {f : Heap → α × Heap} (hf : ∀ h : Heap, h.Advances (f h).2) :
    Within R (onHeap f) := fun m => hR.heap m _ (hf m.heap)

end Rules

section Primitives

variable (hR : Machine.Spares R)
include hR

theorem within_broken (msg : Bytes) : Within R (broken msg : Exec α) := within_throw hR _

theorem within_fatal : Within R (fatal : Exec α) := within_throw hR _

theorem within_push (x : Item) : Within R (push x) := by
  intro m
  simp only [push, after, modify, modifyGet, MonadStateOf.modifyGet, modifyGet_run]
  split
  · exact hR.stack m _ _ _ fun _ => by simpa using Nat.succ_le_of_lt ‹m.height < m.slots.size›
  · exact hR.stack m _ _ _ fun h => by simpa using h

theorem within_pop : Within R pop := by
  refine (within_get hR).bind hR fun m => ?_
  split
  · exact within_broken hR _
  · exact fun m => hR.stack m _ _ _ fun h => Nat.le_trans (Nat.sub_le _ _) h

theorem within_temp (v : Value) : Within R (temp v) :=
  within_onHeap hR fun h => h.newCell_advances v false

theorem within_pushCell (c : CellId) : Within R (pushCell c) := within_push hR _

theorem within_pushValue (v : Value) : Within R (pushValue v) :=
  (within_temp hR v).bind hR fun c => within_pushCell hR c

theorem within_pushBool (b : Bool) : Within R (pushBool b) := within_pushCell hR _

theorem within_scalarExpected (x : Item) : Within R (scalarExpected x : Exec α) :=
  within_broken hR _

theorem within_popScalar : Within R popScalar := by
  refine (within_pop hR).bind hR fun x => ?_
  split
  · exact within_pure hR _
  · exact (within_temp hR _).bind hR fun _ => within_pure hR _
  · exact within_scalarExpected hR _

theorem within_top : Within R top := by
  refine (within_pop hR).bind hR fun x => (within_push hR x).bind hR fun _ => ?_
  split
  · exact within_pure hR _
  · exact within_scalarExpected hR _

theorem within_pushMark : Within R pushMark := fun m => hR.stack m _ _ _ id

theorem within_popMark : Within R popMark := by
  refine (within_get hR).bind hR fun m => ?_
  split
  · exact within_broken hR _
  · exact Within.bind hR (fun m => hR.stack m _ _ _ id) fun _ => within_pure hR _

theorem within_base : Within R base := by
  refine (within_get hR).bind hR fun m => ?_
  split <;> exact within_pure hR _

theorem within_resetStack (sp : Nat) : Within R (resetStack sp) := by
  intro m
  simp only [resetStack, after, bind, EStateM.bind, get, getThe, MonadStateOf.get, get_run]
  split
  · rename_i _ m' h
    split at h
    · cases h
      exact hR.stack m _ _ _ fun _ => ‹_›
    · split at h
      · cases h
        refine hR.stack m _ _ _ fun _ => ?_
        rw [Array.size_append, Array.size_replicate]
        omega
      · cases h
  · rename_i _ m' h
    split at h
    · cases h
    · split at h
      · cases h
      · cases h
        exact hR.refl m

theorem within_itemsFrom (sp : Nat) : Within R (itemsFrom sp) := by
  refine (within_get hR).bind hR fun m => ?_
  split
  · exact within_fatal hR
  · exact within_pure hR _

theorem within_items : Within R items := by
  refine (within_popMark hR).bind hR fun mark => (within_itemsFrom hR mark).bind hR fun xs => ?_
  refine Within.bind hR (within_mapM hR fun x => ?_) fun cs =>
    (within_resetStack hR mark).bind hR fun _ => within_pure hR _
  split
  · exact within_pure hR _
  · exact within_broken hR _

theorem within_valueOf (c : Option CellId) : Within R (valueOf c) := by
  cases c with
  | none => exact within_pure hR _
  | some c => exact (within_get hR).bind hR fun _ => within_pure hR _

theorem within_cellOf (c : Option CellId) : Within R (cellOf c) := by
  cases c with
  | none => exact within_fatal hR
  | some c => exact (within_get hR).bind hR fun _ => within_pure hR _

/-- What is done with a cell that has just been read starts from the machine it was read from. -/
theorem within_cellOf_bind {c : Option CellId} {f : CellId × Cell → Exec α}
    (hf : ∀ m id, R m ((f (id, m.heap.cell id)).after m)) : Within R (cellOf c >>= f) := by
  cases c with
  | none => exact fun m => hR.refl m
  | some id => exact fun m => hf m id

theorem store_within {m : Machine} {c : CellId} (v : Value) (hc : (m.heap.cell c).readOnly = false) :
    R m ((store c v).after m) :=
  hR.heap m _ (m.heap.store_advances v hc)

theorem within_wantOf (o : Node) : Within R (wantOf o) := by
  unfold wantOf
  split
  · exact (within_get hR).bind hR fun _ => within_pure hR _
  · exact within_pure hR _

theorem within_padSlot (targ : Int) : Within R (padSlot targ) := by
  refine (within_get hR).bind hR fun m => ?_
  split
  · exact within_fatal hR
  · split
    · exact within_pure hR _
    · exact within_fatal hR

theorem within_setScalar (hA : Machine.Assigns names? R) (targ : Int) (v : Value) :
    Within R (do setPadSlot targ (.scalar (← temp v))) := by
  intro m
  have hheap := hR.heap m _ (m.heap.newCell_advances v false)
  simp only [after, bind, EStateM.bind, temp, onHeap, modifyGet, MonadStateOf.modifyGet,
    modifyGet_run, setPadSlot, get, getThe, MonadStateOf.get, get_run]
  by_cases ht : targ < 0 ∨ (m.pad.size : Int) ≤ targ
  · simp only [ht, decide_eq_true_eq, if_true, Bool.or_eq_true]
    exact hheap
  · simp only [ht, decide_eq_true_eq, if_false, Bool.or_eq_true]
    exact hR.trans hheap (hA.scalar _ _ _ (by simp [Heap.newCell]))

theorem within_array (a : ArrayId) : Within R (array a) :=
  (within_get hR).bind hR fun _ => within_pure hR _

theorem within_table (t : TableId) : Within R (table t) :=
  (within_get hR).bind hR fun _ => within_pure hR _

theorem within_throwAt (msg : Bytes) : Within R (throwAt msg : Exec α) :=
  (within_get hR).bind hR fun _ => within_throw hR _

theorem within_report (text : Bytes) (hook : WarnHook) : Within R (report text hook) := by
  cases hook with
  | record => exact fun m => hR.notes m _ _ _ _ _
  | handle answer =>
    refine (within_get hR).bind hR fun m => Within.bind hR (fun m => hR.notes m _ _ _ _ _) fun _ => ?_
    split
    · exact within_throw hR _
    · exact within_pure hR _

theorem within_warn (msg : Bytes) : Within R (warn msg) := by
  refine (within_get hR).bind hR fun m => ?_
  split
  · exact within_pure hR _
  · exact within_report hR _ _

theorem within_toNumber (c : Option CellId) (t : Opcode) : Within R (toNumber c t) := by
  refine (within_valueOf hR c).bind hR fun v => ?_
  split
  · dsimp only
    split
    · exact (within_warn hR _).bind hR fun _ => within_pure hR _
    · exact within_pure hR _
  · exact (within_warn hR _).bind hR fun _ => within_pure hR _

theorem within_toInt (c : Option CellId) (t : Opcode) : Within R (toInt c t) :=
  (within_toNumber hR c t).bind hR fun _ => within_pure hR _

theorem within_toText (c : Option CellId) (t : Opcode) : Within R (toText c t) := by
  refine (within_valueOf hR c).bind hR fun v => ?_
  dsimp only
  split
  · exact (within_warn hR _).bind hR fun _ => within_pure hR _
  · exact within_pure hR _

end Primitives

end Exec

namespace FormatM

open Exec

variable {α β : Type} {names? : Option Pad} {R : Machine → Machine → Prop}

/-- Whatever a part of a formatting does to the machine is within a relation. -/
def Within (R : Machine → Machine → Prop) (x : FormatM α) : Prop := ∀ s, Exec.Within R (x s)

variable (hR : Machine.Spares R)
include hR

theorem within_pure (v : α) : Within R (pure v : FormatM α) := fun _ => Exec.within_pure hR _

theorem Within.bind {x : FormatM α} {f : α → FormatM β} (hx : Within R x) (hf : ∀ v, Within R (f v)) :
    Within R (x >>= f) := fun s => Exec.Within.bind hR (hx s) fun p => hf p.1 p.2

theorem within_lift {x : Exec α} (hx : Exec.Within R x) : Within R (liftM x : FormatM α) :=
  fun _ => Exec.Within.bind hR hx fun _ => Exec.within_pure hR _

theorem within_get : Within R (get : FormatM Formatting) := fun _ => Exec.within_pure hR _

theorem within_modify (f : Formatting → Formatting) : Within R (modify f : FormatM Unit) :=
  fun _ => Exec.within_pure hR _

theorem within_attempt {x : Exec α} (hx : Exec.Within R x) : Within R (attempt x) := by
  refine Within.bind hR (within_lift hR fun m => ?_) fun r => ?_
  · have h := hx m
    simp only [after, tryCatch, tryCatchThe, MonadExceptOf.tryCatch, EStateM.tryCatch, Bind.bind,
      EStateM.bind] at *
    cases hxm : x m <;> (rw [hxm] at h; exact h)
  · split
    · exact within_pure hR _
    · exact (within_modify hR _).bind hR fun _ => within_pure hR _

theorem within_next : Within R next := by
  refine (within_get hR).bind hR fun s => ?_
  split
  · exact (within_modify hR _).bind hR fun _ => within_pure hR _
  · exact (within_attempt hR (within_warn hR _)).bind hR fun _ => within_pure hR _

theorem within_resolveStar (spec : Bytes) : Within R (resolveStar spec) := by
  unfold resolveStar
  split
  · refine (within_next hR).bind hR fun c => ?_
    exact (within_attempt hR (within_toInt hR c _)).bind hR fun _ => within_pure hR _
  · exact within_pure hR _

theorem within_intArg : Within R intArg := by
  refine (within_next hR).bind hR fun c => ?_
  exact (within_attempt hR (within_toInt hR c _)).bind hR fun _ => within_pure hR _

theorem within_vector (spec : Bytes) : Within R (vector spec) := by
  refine (within_next hR).bind hR fun c => ?_
  exact (within_lift hR (within_valueOf hR c)).bind hR fun _ => within_modify hR _

theorem within_directive (d : Directive) : Within R (directive d) := by
  refine (within_get hR).bind hR fun s => ?_
  split
  · exact within_pure hR _
  · refine (within_resolveStar hR _).bind hR fun width => ?_
    refine (within_resolveStar hR _).bind hR fun prec => ?_
    dsimp only
    have hint : ∀ f : Int64 → Bytes, Within R (intArg >>= fun v => emit (f v)) := fun _ =>
      (within_intArg hR).bind hR fun _ => within_modify hR _
    split
    case h_1 => exact within_modify hR _
    case h_2 => exact hint _
    case h_3 =>
      refine (within_next hR).bind hR fun c => ?_
      exact (within_attempt hR (within_toText hR c _)).bind hR fun _ => within_modify hR _
    case h_18 => exact within_pure hR _
    case h_19 =>
      exact (within_attempt hR (within_warn hR _)).bind hR fun _ => within_modify hR _
    case h_4 | h_5 | h_6 =>
      split
      · exact within_vector hR _
      · exact hint _
    case h_7 | h_8 | h_9 | h_10 | h_11 => exact hint _
    all_goals
      refine (within_next hR).bind hR fun c => ?_
      refine (within_attempt hR (within_toNumber hR c _)).bind hR fun n => ?_
      split
      · exact within_modify hR _
      · exact within_lift hR (within_fatal hR)

theorem within_part (p : FormatPart) : Within R (part p) := by
  cases p with
  | text s => exact within_modify hR _
  | directive d => exact within_directive hR d

end FormatM

namespace Exec

variable {names? : Option Pad} {R : Machine → Machine → Prop} (hR : Machine.Spares R)
include hR

theorem within_sprintf (format : Bytes) (args : List (Option CellId)) :
    Within R (sprintf format args) := by
  have hparts : ∀ ps : List FormatPart, FormatM.Within R (ps.forM FormatM.part) := by
    intro ps
    induction ps with
    | nil => exact FormatM.within_pure hR ()
    | cons p ps ih => exact (FormatM.within_part hR p).bind hR fun _ => ih
  refine (hparts _ _).bind hR fun p => ?_
  obtain ⟨-, s⟩ := p
  dsimp only
  split
  · exact within_throw hR _
  · split
    · exact (within_warn hR _).bind hR fun _ => within_pure hR _
    · exact within_pure hR _

end Exec

end OpTree
