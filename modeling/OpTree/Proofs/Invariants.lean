import OpTree.Proofs.DataSteps

/-!
# What a step may change

All that a step does to a machine is composed of a few kinds of change: to the stack, to the notes
a run leaves, to the heap, to a pad slot and to the loops. A relation between machines that admits
these changes therefore holds across every step, also across one that fails.
-/

namespace OpTree

set_option autoImplicit false

namespace Exec

variable {names? : Option Pad} {R : Machine → Machine → Prop} (hR : Machine.Spares R)

include hR

section Control

theorem within_statement (o : Node) : Within R (statement o) :=
  Within.bind hR (fun m => hR.notes m _ _ _ _ _) fun _ => (within_base hR).bind hR fun _ =>
    within_resetStack hR _

theorem within_shortCircuit (o : Node) (keeps : Value → Bool) : Within R (shortCircuit o keeps) := by
  refine (within_top hR).bind hR fun c => (within_valueOf hR c).bind hR fun v => ?_
  split
  · exact within_pure hR _
  · exact (within_pop hR).bind hR fun _ => within_pure hR _

theorem within_condition (o : Node) : Within R (condition o) := by
  refine (within_popScalar hR).bind hR fun c => (within_valueOf hR c).bind hR fun v => ?_
  split <;> exact within_pure hR _

/-- The slot of the loop variable is read in the state in which the loop is entered. -/
theorem within_enterLoop (hN : Machine.Nests R) (o : Node) : Within R (enterLoop o) := by
  refine (within_popScalar hR).bind hR fun _ => (within_popScalar hR).bind hR fun _ => ?_
  refine (within_toInt hR _ _).bind hR fun cur => (within_toInt hR _ _).bind hR fun hi => fun m => ?_
  simp only [after, padSlot, bind, EStateM.bind, get, getThe, MonadStateOf.get, get_run]
  by_cases ht : o.targ < 0
  · simp only [ht, if_true]
    exact hR.refl m
  · simp only [ht, if_false]
    cases hp : m.pad[o.targ.toNat]? with
    | none => exact hR.refl m
    | some s => exact hN.enter m ⟨m.height, o.targ, s, cur, hi⟩ hp

theorem within_iterate (hA : Machine.Assigns names? R) : Within R iterate := by
  intro m
  cases hl : m.loops with
  | nil =>
    simp only [after, iterate, bind, EStateM.bind, get, getThe, MonadStateOf.get, get_run, hl]
    exact hR.refl m
  | cons l rest =>
    have hround : R m (Exec.after (do
        setPadSlot l.targ (.scalar (← temp (.int l.cur)))
        modify fun m => { m with loops := { l with cur := l.cur + 1 } :: rest }
        pushBool true) m) := by
      simp only [after, bind, EStateM.bind, temp, onHeap, modifyGet, MonadStateOf.modifyGet,
        modifyGet_run, setPadSlot, get, getThe, MonadStateOf.get, get_run]
      generalize hc : m.heap.newCell (.int l.cur) false = p
      have hheap : R m { m with heap := p.2 } :=
        hR.heap m _ (hc ▸ m.heap.newCell_advances (.int l.cur) false)
      by_cases ht : l.targ < 0 ∨ (m.pad.size : Int) ≤ l.targ
      · simp only [ht, decide_eq_true_eq, if_true, Bool.or_eq_true]
        exact hheap
      · simp only [ht, decide_eq_true_eq, if_false, Bool.or_eq_true]
        have hlt : p.1 < p.2.cells.size := by
          rw [← hc]
          simp [Heap.newCell]
        refine hR.trans hheap (hR.trans (hA.scalar _ l.targ.toNat p.1 hlt) ?_)
        refine hR.trans (hA.advance _ l rest (l.cur + 1) hl) ?_
        exact within_pushBool hR true _
    have heq : iterate.after m = Exec.after (if l.cur > l.hi then pushBool false else do
        setPadSlot l.targ (.scalar (← temp (.int l.cur)))
        modify fun m => { m with loops := { l with cur := l.cur + 1 } :: rest }
        pushBool true) m := by
      simp only [iterate, after, bind, EStateM.bind, get, getThe, MonadStateOf.get, get_run, hl]
    rw [heq]
    split
    · exact within_pushBool hR false m
    · exact hround

theorem within_leaveLoop (hN : Machine.Nests R) : Within R leaveLoop := by
  intro m
  cases hl : m.loops with
  | nil =>
    simp only [after, leaveLoop, bind, EStateM.bind, get, getThe, MonadStateOf.get, get_run, hl]
    exact hR.refl m
  | cons l rest =>
    have heq : leaveLoop.after m = Exec.after (do setPadSlot l.targ l.saved; resetStack l.height)
        { m with loops := rest } := by
      simp only [after, leaveLoop, bind, EStateM.bind, get, getThe, MonadStateOf.get, get_run,
        modify, modifyGet, MonadStateOf.modifyGet, modifyGet_run, hl]
    rw [heq]
    by_cases ht : l.targ < 0 ∨ (m.pad.size : Int) ≤ l.targ
    · have hfail : Exec.after (do setPadSlot l.targ l.saved; resetStack l.height)
          { m with loops := rest } = { m with loops := rest } := by
        simp only [after, setPadSlot, bind, EStateM.bind, get, getThe, MonadStateOf.get, get_run,
          ht, decide_eq_true_eq, if_true, Bool.or_eq_true]
        rfl
      rw [hfail]
      exact hN.close m l rest hl
    · have hset : Exec.after (do setPadSlot l.targ l.saved; resetStack l.height)
          { m with loops := rest } = (resetStack l.height).after
            { m with loops := rest, pad := m.pad.setIfInBounds l.targ.toNat l.saved } := by
        simp only [after, setPadSlot, bind, EStateM.bind, get, getThe, MonadStateOf.get, get_run,
          ht, decide_eq_true_eq, if_false, Bool.or_eq_true]
        rfl
      rw [hset]
      exact hR.trans (hN.restore m l rest hl) (within_resetStack hR l.height _)

theorem within_leaveLoops (hN : Machine.Nests R) (n : Nat) : Within R (leaveLoops n) := by
  induction n with
  | zero => exact within_pure hR _
  | succ n ih => exact (within_leaveLoop hR hN).bind hR fun _ => ih

theorem within_resultOf (x : Item) : Within R (resultOf x) := by
  unfold resultOf
  split
  · exact within_valueOf hR _
  · exact within_pure hR _

theorem within_leaveSub : Within R leaveSub := by
  refine (within_base hR).bind hR fun floor => (within_itemsFrom hR floor).bind hR fun xs => ?_
  refine (within_get hR).bind hR fun m => ?_
  have hend : ∀ vs : List Value, Within R (do
      modify fun m => { m with result := vs }
      resetStack floor) := fun vs =>
    Within.bind hR (fun m => hR.notes m _ _ _ _ _) fun _ => within_resetStack hR floor
  dsimp only
  split
  · exact hend _
  · exact (within_resultOf hR _).bind hR fun v => hend [v]
  · exact (within_mapM hR fun x => within_resultOf hR x).bind hR fun vs => hend vs

theorem within_returnSub (hN : Machine.Nests R) : Within R returnSub := by
  refine (within_popMark hR).bind hR fun mark => (within_itemsFrom hR mark).bind hR fun xs => ?_
  refine (within_get hR).bind hR fun m => (within_leaveLoops hR hN _).bind hR fun _ => ?_
  refine (within_resetStack hR 0).bind hR fun _ => ?_
  refine (within_forM hR fun x => within_push hR x).bind hR fun _ => ?_
  refine (within_get hR).bind hR fun m => ?_
  split
  · exact within_pure hR _
  · exact (within_leaveSub hR).bind hR fun _ => within_pure hR _

theorem within_listItems (o : Node) : Within R (listItems o) := by
  refine (within_popMark hR).bind hR fun mark => (within_wantOf hR o).bind hR fun w => ?_
  split
  · exact within_resetStack hR mark
  · refine (within_itemsFrom hR mark).bind hR fun xs => ?_
    have hend : ∀ x : Item, Within R (do resetStack mark; push x) := fun x =>
      (within_resetStack hR mark).bind hR fun _ => within_push hR x
    dsimp only
    split
    · exact hend _
    · exact (within_temp hR _).bind hR fun _ => hend _
  · exact within_pure hR _

theorem within_write (text : Bytes) : Within R (write text) := by
  refine (within_get hR).bind hR fun m => Within.bind hR (fun m => hR.notes m _ _ _ _ _) fun _ => ?_
  split
  · exact within_throwAt hR _
  · exact within_pure hR _

theorem within_say (t : Opcode) : Within R (say t) :=
  (within_items hR).bind hR fun _ => (within_mapM hR fun c => within_toText hR c t).bind hR fun _ =>
    (within_write hR _).bind hR fun _ => within_pushBool hR _

theorem within_die {α : Type} : Within R (die : Exec α) := by
  refine (within_items hR).bind hR fun cs => ?_
  refine (within_mapM hR fun c => (within_valueOf hR c).bind hR fun _ => within_pure hR _).bind hR
    fun texts => ?_
  exact Within.ite (within_throw hR _) (within_throwAt hR _)

theorem within_stub (o : Node) : Within R (stub o) :=
  (within_wantOf hR o).bind hR fun _ => Within.ite (within_pushValue hR _) (within_pure hR _)

theorem within_cellFor (o : Node) : Within R (cellFor o) := by
  refine (within_get hR).bind hR fun m => ?_
  split
  · exact within_pure hR _
  · exact within_onHeap hR fun h => h.newCell_advances _ _

theorem within_constant (o : Node) : Within R (constant o) :=
  (within_cellFor hR o).bind hR fun _ => within_pushCell hR _

theorem within_step_of_flat (hA : Machine.Assigns names? R) (o : Node)
    (hflat : o.code ≠ .enteriter ∧ o.code ≠ .leaveloop ∧ o.code ≠ .ret) : Within R (step names? o) := by
  have go : ∀ {x : Exec Unit}, Within R x → Within R (do x; return o.next : Exec (Option RecId)) :=
    fun hx => hx.bind hR fun _ => within_pure hR _
  unfold step
  dsimp only
  split
  case h_1 | h_2 | h_3 | h_4 => exact within_pure hR _
  case h_5 => exact within_broken hR _
  case h_6 => exact go (within_stub hR o)
  case h_7 => exact go (within_pushMark hR)
  case h_8 => exact go (within_constant hR o)
  case h_9 => exact go (within_listItems hR o)
  case h_10 => exact go (within_padScalar hR hA o)
  case h_11 => exact go (within_padArray hR hA o)
  case h_12 => exact go (within_padHash hR hA o)
  case h_13 => exact go (within_padRange hR hA o)
  case h_14 => exact go ((within_global hR _).bind hR fun _ => within_push hR _)
  case h_15 => exact go (within_derefScalar hR)
  case h_16 => exact go (within_rv2av hR o)
  case h_17 => exact go (within_rv2hv hR o)
  case h_18 | h_19 => exact go (within_aelem hR o _)
  case h_20 => exact go (within_helem hR o)
  case h_21 => exact go (within_existsElem hR o)
  case h_22 => exact go (within_deleteElem hR o)
  case h_23 => exact go (within_arrayLast hR)
  case h_24 => exact go (within_assign hR)
  case h_25 => exact go (within_multideref hR o)
  case h_26 | h_27 | h_28 | h_29 | h_30 => exact go (within_arith hR _ _)
  case h_31 | h_32 | h_33 | h_34 | h_35 | h_36 => exact go (within_compareNumbers hR _)
  case h_37 | h_38 => exact go (within_compareTexts hR _)
  case h_39 => exact go (within_concat hR _)
  case h_40 => exact go (within_negate hR _)
  case h_41 => exact go (within_logicalNot hR)
  case h_42 => exact go (within_length hR o)
  case h_43 | h_44 => exact go (within_changeCase hR _)
  case h_45 => exact go (within_formatItems hR _)
  case h_46 | h_47 | h_48 => exact within_shortCircuit hR o _
  case h_49 => exact within_condition hR o
  case h_50 => exact go (within_statement hR o)
  case h_51 hc => exact absurd hc hflat.1
  case h_52 => exact go (within_iterate hR hA)
  case h_53 => exact go ((within_base hR).bind hR fun _ => within_resetStack hR _)
  case h_54 hc => exact absurd hc hflat.2.1
  case h_55 hc => exact absurd hc hflat.2.2
  case h_56 => exact go (within_leaveSub hR)
  case h_57 => exact go (within_say hR _)
  case h_58 => exact within_die hR

end Control

omit hR

theorem within_step (h : Machine.Admits names? R) (o : Node) : Within R (step names? o) := by
  have go : ∀ {x : Exec Unit}, Within R x → Within R (do x; return o.next : Exec (Option RecId)) :=
    fun hx => hx.bind h.toSpares fun _ => within_pure h.toSpares _
  by_cases he : o.code = .enteriter
  · simp only [step, he]
    exact go (within_enterLoop h.toSpares h.toNests o)
  by_cases hl : o.code = .leaveloop
  · simp only [step, hl]
    exact go (within_leaveLoop h.toSpares h.toNests)
  by_cases hr : o.code = .ret
  · simp only [step, hr]
    exact within_returnSub h.toSpares h.toNests
  exact within_step_of_flat h.toSpares h.toAssigns o ⟨he, hl, hr⟩

end Exec

end OpTree
