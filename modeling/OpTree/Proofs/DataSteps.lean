import OpTree.Proofs.Changes

/-!
# Ops on data within a relation

The steps of operators, variables, elements and fused accesses.
-/

namespace OpTree

set_option autoImplicit false

namespace Exec

variable {names? : Option Pad} {R : Machine → Machine → Prop} (hR : Machine.Spares R)

include hR

section Operators

theorem within_popPair : Within R popPair :=
  (within_popScalar hR).bind hR fun _ => (within_popScalar hR).bind hR fun _ => within_pure hR _

theorem within_arith (op : ArithOp) (t : Opcode) : Within R (arith op t) := by
  refine (within_popPair hR).bind hR fun p => ?_
  refine (within_toNumber hR _ _).bind hR fun a => (within_toNumber hR _ _).bind hR fun b => ?_
  split
  · exact within_pushValue hR _
  · exact within_throwAt hR _

theorem within_compareNumbers (t : Opcode) : Within R (compareNumbers t) :=
  (within_popPair hR).bind hR fun _ => (within_toNumber hR _ _).bind hR fun _ =>
    (within_toNumber hR _ _).bind hR fun _ => within_pushBool hR _

theorem within_compareTexts (t : Opcode) : Within R (compareTexts t) :=
  (within_popPair hR).bind hR fun _ => (within_toText hR _ _).bind hR fun _ =>
    (within_toText hR _ _).bind hR fun _ => within_pushBool hR _

theorem within_concat (t : Opcode) : Within R (concat t) :=
  (within_popPair hR).bind hR fun _ => (within_toText hR _ _).bind hR fun _ =>
    (within_toText hR _ _).bind hR fun _ => within_pushValue hR _

theorem within_negate (t : Opcode) : Within R (negate t) := by
  refine (within_popScalar hR).bind hR fun c => (within_cellOf hR c).bind hR fun p => ?_
  dsimp only
  split
  · exact within_pushValue hR _
  · exact (within_toNumber hR _ _).bind hR fun _ => within_pushValue hR _

theorem within_logicalNot : Within R logicalNot :=
  (within_popScalar hR).bind hR fun _ => (within_valueOf hR _).bind hR fun _ => within_pushBool hR _

theorem within_onlyTruth (o : Node) : Within R (onlyTruth o) :=
  (within_get hR).bind hR fun _ => within_pure hR _

theorem within_length (o : Node) : Within R (length o) := by
  refine (within_popScalar hR).bind hR fun c => (within_valueOf hR c).bind hR fun v => ?_
  split
  · exact within_pushValue hR _
  · refine (within_onlyTruth hR o).bind hR fun _ => ?_
    split
    · exact within_pushBool hR _
    · exact within_pushValue hR _

theorem within_changeCase (t : Opcode) : Within R (changeCase t) :=
  (within_popScalar hR).bind hR fun _ => (within_toText hR _ _).bind hR fun _ =>
    within_pushValue hR _

theorem within_formatItems (t : Opcode) : Within R (formatItems t) := by
  refine (within_items hR).bind hR fun cs => ?_
  split
  · exact within_pushValue hR _
  · exact (within_toText hR _ _).bind hR fun _ => (within_sprintf hR _ _).bind hR fun _ =>
      within_pushValue hR _

end Operators

section Variables

theorem within_readOnlyError {α : Type} : Within R (readOnlyError : Exec α) := within_throwAt hR _

/-- The new container is made before the cell is written, which leaves all cells as they are. -/
theorem within_vivify (c : Option CellId) (p : Priv) : Within R (vivify c p) := by
  refine (within_valueOf hR c).bind hR fun v => ?_
  split
  · exact within_pure hR _
  · refine within_cellOf_bind hR fun m id => ?_
    dsimp only
    split
    · exact within_readOnlyError hR m
    · rename_i hro
      have hro : (m.heap.cell id).readOnly = false := by simpa using hro
      split
      · refine hR.trans (hR.heap m _ (m.heap.newArray_advances (x := {}) (by simp))) ?_
        exact store_within hR (m := { m with heap := (m.heap.newArray {}).2 }) _ hro
      · refine hR.trans (hR.heap m _ m.heap.newTable_advances) ?_
        exact store_within hR (m := { m with heap := m.heap.newTable.2 }) _ hro

theorem within_introduce (hA : Machine.Assigns names? R) (targ : Int) : Within R (introduce names? targ) := by
  have hfill : Within R (do
      let s ← onHeap fun h => Machine.fresh names? h targ
      setPadSlot targ s) := by
    intro m
    simp only [after, onHeap, setPadSlot, bind, EStateM.bind, modifyGet, MonadStateOf.modifyGet,
      modifyGet_run, get, getThe, MonadStateOf.get, get_run]
    by_cases ht : targ < 0 ∨ (m.pad.size : Int) ≤ targ
    · simp only [ht, decide_eq_true_eq, if_true, Bool.or_eq_true]
      exact hR.heap m _ (Machine.fresh_advances names? m.heap targ)
    · simp only [ht, decide_eq_true_eq, if_false, Bool.or_eq_true]
      exact hA.fresh m targ (by omega)
  unfold introduce
  dsimp only
  split
  · exact (within_fatal hR).bind hR fun _ => hfill
  · exact hfill

theorem within_present (c : Option CellId) : Within R (present c) := by
  cases c with
  | none => exact within_temp hR _
  | some c => exact within_pure hR _

theorem within_arrayOf (a : Option ArrayId) : Within R (match a with | some a => array a | none => fatal) := by
  split
  · exact within_array hR _
  · exact within_fatal hR

theorem within_tableOf (t : Option TableId) : Within R (match t with | some t => table t | none => fatal) := by
  split
  · exact within_table hR _
  · exact within_fatal hR

theorem within_pushArray (o : Node) (a : Option ArrayId) : Within R (pushArray o a) := by
  unfold pushArray
  split
  · exact within_push hR _
  · have harr := within_arrayOf hR a
    refine (within_onlyTruth hR o).bind hR fun _ => ?_
    split
    · exact harr.bind hR fun _ => within_pushBool hR _
    · refine (within_wantOf hR o).bind hR fun w => ?_
      split
      · exact harr.bind hR fun _ => within_forM hR fun _ =>
          (within_present hR _).bind hR fun _ => within_pushCell hR _
      · exact harr.bind hR fun _ => within_pushValue hR _
      · exact within_pure hR _

theorem within_pushHash (o : Node) (t : Option TableId) : Within R (pushHash o t) := by
  unfold pushHash
  split
  · exact within_push hR _
  · have htab := within_tableOf hR t
    refine (within_onlyTruth hR o).bind hR fun _ => ?_
    split
    · exact htab.bind hR fun _ => within_pushBool hR _
    · refine (within_wantOf hR o).bind hR fun w => ?_
      split
      · exact htab.bind hR fun _ => within_forM hR fun _ =>
          (within_pushValue hR _).bind hR fun _ => within_pushCell hR _
      · exact htab.bind hR fun _ => within_pushValue hR _
      · exact within_pure hR _

theorem within_padScalar (hA : Machine.Assigns names? R) (o : Node) : Within R (padScalar o) := by
  have hread : Within R (do
      let c := (← padSlot o.targ).scalar?
      vivify c o.priv
      push (.scalar c)) :=
    (within_padSlot hR _).bind hR fun _ => (within_vivify hR _ _).bind hR fun _ => within_push hR _
  unfold padScalar
  dsimp only
  split
  · have hset := (within_setScalar hR hA o.targ .undefined).bind hR fun _ => hread
    rwa [bind_assoc] at hset
  · exact hread

theorem within_padArray (hA : Machine.Assigns names? R) (o : Node) : Within R (padArray names? o) := by
  have hread := (within_padSlot hR o.targ).bind hR fun s => within_pushArray hR o s.array?
  unfold padArray
  dsimp only
  split
  · exact (within_introduce hR hA _).bind hR fun _ => hread
  · exact hread

theorem within_padHash (hA : Machine.Assigns names? R) (o : Node) : Within R (padHash names? o) := by
  have hread := (within_padSlot hR o.targ).bind hR fun s => within_pushHash hR o s.hash?
  unfold padHash
  dsimp only
  split
  · exact (within_introduce hR hA _).bind hR fun _ => hread
  · exact hread

theorem within_padSlots (hA : Machine.Assigns names? R) (o : Node) (n : Nat) (targ : Int) :
    Within R (padSlots names? o n targ) := by
  induction n generalizing targ with
  | zero => exact within_pure hR _
  | succ n ih =>
    have hread : Within R (do
        if (← wantOf o) != .void then push (← padSlot targ).toItem
        padSlots names? o n (targ + 1)) := by
      refine (within_wantOf hR o).bind hR fun w => ?_
      dsimp only
      split
      · exact (within_padSlot hR _).bind hR fun _ => (within_push hR _).bind hR fun _ => ih _
      · exact ih _
    unfold padSlots
    dsimp only
    split
    · exact (within_introduce hR hA _).bind hR fun _ => hread
    · exact hread

theorem within_padRange (hA : Machine.Assigns names? R) (o : Node) : Within R (padRange names? o) :=
  (within_pushMark hR).bind hR fun _ => within_padSlots hR hA o _ _

theorem within_global (name : Bytes) : Within R (global name) :=
  within_onHeap hR fun h => h.globNamed_advances name

theorem within_derefScalar : Within R derefScalar := by
  refine (within_pop hR).bind hR fun x => ?_
  split
  · exact (within_onHeap hR fun h => h.globScalar_advances _).bind hR fun _ => within_pushCell hR _
  · refine (within_valueOf hR _).bind hR fun _ => ?_
    split
    · exact within_throwAt hR _
    · exact within_throwAt hR _
  · exact within_broken hR _

theorem within_arrayIn (c : Option CellId) : Within R (do
    match (← cellOf c).2.value with
    | .array a => return some a
    | .undefined => throwAt (utf8 "Can't use an undefined value as an ARRAY reference")
    | _ => throwAt (utf8 "Not an ARRAY reference")) := by
  refine (within_cellOf hR c).bind hR fun p => ?_
  split
  · exact within_pure hR _
  · exact within_throwAt hR _
  · exact within_throwAt hR _

theorem within_derefArray (x : Item) (lval : Bool) : Within R (derefArray x lval) := by
  unfold derefArray
  split
  · exact (within_onHeap hR fun h => h.globArray_advances _).bind hR fun _ => within_pure hR _
  · exact within_pure hR _
  · rename_i c
    dsimp only
    split
    · exact (within_vivify hR _ _).bind hR fun _ => within_arrayIn hR c
    · exact within_arrayIn hR c
  · exact within_broken hR _

theorem within_hashIn (c : Option CellId) : Within R (do
    match (← cellOf c).2.value with
    | .hash t => return some t
    | .undefined => throwAt (utf8 "Can't use an undefined value as a HASH reference")
    | _ => throwAt (utf8 "Not a HASH reference")) := by
  refine (within_cellOf hR c).bind hR fun p => ?_
  split
  · exact within_pure hR _
  · exact within_throwAt hR _
  · exact within_throwAt hR _

theorem within_derefHash (x : Item) (lval : Bool) : Within R (derefHash x lval) := by
  unfold derefHash
  split
  · exact (within_onHeap hR fun h => h.globTable_advances _).bind hR fun _ => within_pure hR _
  · exact within_pure hR _
  · rename_i c
    dsimp only
    split
    · exact (within_vivify hR _ _).bind hR fun _ => within_hashIn hR c
    · exact within_hashIn hR c
  · exact within_broken hR _

theorem within_rv2av (o : Node) : Within R (rv2av o) :=
  (within_pop hR).bind hR fun _ => (within_derefArray hR _ _).bind hR fun _ => within_pushArray hR _ _

theorem within_rv2hv (o : Node) : Within R (rv2hv o) :=
  (within_pop hR).bind hR fun _ => (within_derefHash hR _ _).bind hR fun _ => within_pushHash hR _ _

theorem within_needed {α : Type} (x : Option α) : Within R (needed x) := by
  cases x with
  | none => exact within_fatal hR
  | some x => exact within_pure hR _

theorem within_fetchElem (a : Option ArrayId) (i : Int64) (lval checked : Bool) :
    Within R (fetchElem a i lval checked) := by
  refine (within_needed hR a).bind hR fun a => (within_array hR a).bind hR fun arr => ?_
  refine Within.ite (within_throwAt hR _) ?_
  refine (within_onHeap hR fun h => h.fetchElem_advances a i lval).bind hR fun p => ?_
  exact Within.ite (within_throwAt hR _) (within_pure hR _)

theorem within_fetchKey (t : TableId) (k : Bytes) (lval : Bool) :
    Within R (onHeap fun h => h.fetchKey t k lval) := within_onHeap hR fun h => h.fetchKey_advances t k lval

theorem within_pushElem (c : Option CellId) (p : Priv) : Within R (pushElem c p) :=
  (within_present hR c).bind hR fun _ => (within_vivify hR _ p).bind hR fun _ => within_pushCell hR _

theorem within_aelem (o : Node) (checked : Bool) : Within R (aelem o checked) := by
  refine (within_popScalar hR).bind hR fun ix => (within_pop hR).bind hR fun x => ?_
  split
  · exact (within_toInt hR _ _).bind hR fun _ => (within_fetchElem hR _ _ _ _).bind hR fun _ =>
      within_pushElem hR _ _
  · exact within_broken hR _

theorem within_helem (o : Node) : Within R (helem o) := by
  refine (within_popScalar hR).bind hR fun ks => (within_pop hR).bind hR fun x => ?_
  split
  · exact (within_toText hR _ _).bind hR fun _ => (within_needed hR _).bind hR fun _ =>
      (within_fetchKey hR _ _ _).bind hR fun _ => within_pushElem hR _ _
  · exact within_broken hR _

theorem within_existsIn (c : Item) (key : Option CellId) (arrayOp hashOp : Opcode) :
    Within R (existsIn c key arrayOp hashOp) := by
  unfold existsIn
  split
  · exact (within_toInt hR _ _).bind hR fun _ => (within_needed hR _).bind hR fun _ =>
      (within_array hR _).bind hR fun _ => within_pure hR _
  · exact (within_toText hR _ _).bind hR fun _ => (within_needed hR _).bind hR fun _ =>
      (within_table hR _).bind hR fun _ => within_pure hR _
  · exact within_broken hR _

theorem within_deleteFrom (c : Item) (key : Option CellId) (arrayOp hashOp : Opcode) :
    Within R (deleteFrom c key arrayOp hashOp) := by
  unfold deleteFrom
  split
  · exact (within_toInt hR _ _).bind hR fun _ => (within_needed hR _).bind hR fun a =>
      within_onHeap hR fun h => h.takeElem_advances a _
  · exact (within_toText hR _ _).bind hR fun _ => (within_needed hR _).bind hR fun t =>
      within_onHeap hR fun h => h.takeKey_advances t _
  · exact within_broken hR _

theorem within_existsElem (o : Node) : Within R (existsElem o) :=
  (within_popScalar hR).bind hR fun _ => (within_pop hR).bind hR fun _ =>
    (within_existsIn hR _ _ _ _).bind hR fun _ => within_pushBool hR _

theorem within_deleteElem (o : Node) : Within R (deleteElem o) :=
  (within_popScalar hR).bind hR fun _ => (within_pop hR).bind hR fun _ =>
    (within_deleteFrom hR _ _ _ _).bind hR fun _ => (within_present hR _).bind hR fun _ =>
      within_pushCell hR _

theorem within_arrayLast : Within R arrayLast := by
  refine (within_pop hR).bind hR fun x => ?_
  split
  · exact (within_needed hR _).bind hR fun _ => (within_array hR _).bind hR fun _ =>
      within_pushValue hR _
  · exact within_broken hR _

/-- Reading the source comes between the test of the cell and the write, and changes nothing. -/
theorem within_assign : Within R assign := by
  refine (within_popScalar hR).bind hR fun dst => (within_popScalar hR).bind hR fun src => ?_
  refine within_cellOf_bind hR fun m id => ?_
  dsimp only
  split
  · exact within_readOnlyError hR m
  · rename_i hro
    have hro : (m.heap.cell id).readOnly = false := by simpa using hro
    obtain ⟨v, hv⟩ : ∃ v, valueOf src m = .ok v m := by
      cases src with
      | none => exact ⟨_, rfl⟩
      | some c => exact ⟨_, rfl⟩
    have hwrite : Exec.after (do store id (← valueOf src); pushCell id) m =
        (pushCell id).after ((store id v).after m) := by
      rw [after, bind_of_ok hv]
      rfl
    exact hwrite ▸ hR.trans (store_within hR v hro) (within_pushCell hR id _)

end Variables

section Paths

theorem within_pathContainer (it : PathItem) (cur : Option CellId) :
    Within R (pathContainer it cur) := by
  unfold pathContainer
  split
  · exact (within_padSlot hR _).bind hR fun _ => within_pure hR _
  · exact (within_padSlot hR _).bind hR fun _ => within_pure hR _
  · exact (within_global hR _).bind hR fun g =>
      (within_onHeap hR fun h => h.globArray_advances g).bind hR fun _ => within_pure hR _
  · exact (within_global hR _).bind hR fun g =>
      (within_onHeap hR fun h => h.globTable_advances g).bind hR fun _ => within_pure hR _
  · exact (within_padSlot hR _).bind hR fun _ => (within_vivify hR _ _).bind hR fun _ =>
      (within_derefArray hR _ _).bind hR fun _ => within_pure hR _
  · exact (within_padSlot hR _).bind hR fun _ => (within_vivify hR _ _).bind hR fun _ =>
      (within_derefHash hR _ _).bind hR fun _ => within_pure hR _
  · exact (within_derefArray hR _ _).bind hR fun _ => within_pure hR _
  · exact (within_derefHash hR _ _).bind hR fun _ => within_pure hR _
  · exact within_broken hR _

theorem within_pathKey (p : Path) (it : PathItem) : Within R (pathKey p it) := by
  unfold pathKey
  split
  · split
    · exact (within_temp hR _).bind hR fun _ => within_pure hR _
    · exact (within_temp hR _).bind hR fun _ => within_pure hR _
  · exact (within_padSlot hR _).bind hR fun _ => within_pure hR _
  · exact within_broken hR _

theorem within_pathElem (p : Path) (it : PathItem) (c : Item) (lval : Bool) :
    Within R (pathElem p it c lval) := by
  refine (within_pathKey hR p it).bind hR fun key => ?_
  split
  · exact (within_toInt hR _ _).bind hR fun _ => (within_fetchElem hR _ _ _ _).bind hR fun _ =>
      within_present hR _
  · exact (within_toText hR _ _).bind hR fun _ => (within_needed hR _).bind hR fun _ =>
      (within_fetchKey hR _ _ _).bind hR fun _ => within_present hR _
  · exact within_broken hR _

theorem within_pathLast (o : Node) (p : Path) (it : PathItem) (c : Item) :
    Within R (pathLast o p it c) := by
  unfold pathLast
  split
  · exact (within_pathKey hR p it).bind hR fun _ => (within_existsIn hR _ _ _ _).bind hR fun _ =>
      within_pushBool hR _
  · split
    · exact (within_pathKey hR p it).bind hR fun _ => (within_deleteFrom hR _ _ _ _).bind hR fun _ =>
        (within_present hR _).bind hR fun _ => within_pushCell hR _
    · exact (within_pathElem hR p it c _).bind hR fun _ => (within_vivify hR _ _).bind hR fun _ =>
        within_pushCell hR _

theorem within_walkPath (o : Node) (p : Path) (cur : Option CellId) (its : List PathItem) :
    Within R (walkPath o p cur its) := by
  induction its generalizing cur with
  | nil => exact within_broken hR _
  | cons it rest ih =>
    cases rest with
    | nil => exact (within_pathContainer hR it cur).bind hR fun _ => within_pathLast hR _ _ _ _
    | cons next rest =>
      exact (within_pathContainer hR it cur).bind hR fun _ => (within_pathElem hR p it _ _).bind hR
        fun _ => (within_vivify hR _ _).bind hR fun _ => ih _

theorem within_multideref (o : Node) : Within R (multideref o) := by
  unfold multideref
  split
  · exact within_walkPath hR _ _ _ _
  · exact within_broken hR _

end Paths

end Exec

end OpTree
