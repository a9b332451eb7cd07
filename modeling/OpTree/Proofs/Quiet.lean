import OpTree.Proofs.Rewrites

/-!
# What rules leave alone

The counts of ops and branches are the business of the walk: no rule touches them. No rule forgets a failure,
and none leads the unit to another start unless it works at the head of the main chain.
-/

namespace OpTree

set_option autoImplicit false

namespace Peep

/-- The counts of ops and branches stay, failures are kept, and the start stays if `still` holds. -/
structure Quiet (still : Prop) (ps ps' : PeepState) : Prop where
  visited : ps'.stats.visited = ps.stats.visited
  deferred : ps'.stats.deferred = ps.stats.deferred
  failure : ps'.failure? = none → ps.failure? = none
  start : still → ps'.start = ps.start

variable {α β : Type} {still : Prop}

theorem Quiet.refl (ps : PeepState) : Quiet still ps ps := ⟨rfl, rfl, fun h => h, fun _ => rfl⟩

theorem Quiet.trans {ps ps' ps'' : PeepState} (h : Quiet still ps ps') (h' : Quiet still ps' ps'') :
    Quiet still ps ps'' where
  visited := h'.visited.trans h.visited
  deferred := h'.deferred.trans h.deferred
  failure hf := h.failure (h'.failure hf)
  start hs := (h'.start hs).trans (h.start hs)

def Quietly (still : Prop) (x : Peep α) : Prop :=
  ∀ ps a, Gives (fun _ => True) x ps a fun _ ps' _ => Quiet still ps ps'

theorem quietly_pure (v : α) : Quietly still (pure v : Peep α) := fun ps _ => gives_pure (.refl ps)

theorem Quietly.bind {x : Peep α} {f : α → Peep β} (hx : Quietly still x) (hf : ∀ v, Quietly still (f v)) :
    Quietly still (x >>= f) := fun ps a =>
  (hx ps a).bind fun v ps' b h => (hf v ps' b).mono fun _ _ _ h' => h.trans h'

theorem quietly_lift (x : TreeM α) : Quietly still (liftM x : Peep α) := by
  intro ps a
  cases hx : x a with
  | ok v b => exact gives_lift hx (.refl ps)
  | error e b =>
    have hlift : (liftM x : Peep α) ps a = .error e b := by
      change EStateM.bind x (fun u => pure (u, ps)) a = _
      rw [EStateM.bind, hx]
    rw [Gives, hlift]
    trivial

theorem quietly_get : Quietly still (get : Peep PeepState) := fun ps _ => Quiet.refl ps

theorem quietly_ite {p : Prop} [Decidable p] {x y : Peep α} (hx : Quietly still x) (hy : Quietly still y) :
    Quietly still (if p then x else y) := by
  split
  · exact hx
  · exact hy

theorem quietly_noteChange (kind : String) : Quietly still (noteChange kind) :=
  fun _ _ => gives_modify ⟨rfl, rfl, fun h => h, fun _ => rfl⟩

theorem Looks.quietly {x : Peep α} (h : Looks x) : Quietly still x := by
  intro ps a
  obtain ⟨v, hv⟩ := h ps a
  rw [Gives, hv]
  exact .refl ps

theorem quietly_fail (why : Failure) : Quietly still (fail why) := by
  refine fun ps _ => gives_modify ⟨rfl, rfl, fun h => ?_, fun _ => rfl⟩
  exact (Option.or_eq_none_iff.mp h).1

theorem quietly_forM {f : α → Peep Unit} (hf : ∀ x, Quietly still (f x)) (xs : List α) :
    Quietly still (xs.forM f) := by
  induction xs with
  | nil => exact quietly_pure _
  | cons x xs ih => exact (hf x).bind fun _ => ih

section Slots

variable {prev : Option RecId} {s : PeepSlot}

theorem quietly_writeSlot (h : still → s ≠ .start) (dest : Option RecId) : Quietly still (writeSlot s dest) := by
  cases s with
  | start => exact fun _ _ => gives_modify ⟨rfl, rfl, fun hf => hf, fun hs => absurd rfl (h hs)⟩
  | other r => exact quietly_lift _

theorem quietly_relink (h : still → prev ≠ none ∨ s ≠ .start) (dest : Option RecId) :
    Quietly still (relink prev s dest) := by
  cases prev with
  | none => exact quietly_writeSlot (fun hs => (h hs).resolve_left fun hne => hne rfl) dest
  | some p => exact quietly_lift _

theorem quietly_readSlot : Quietly still (readSlot s) := by
  cases s with
  | start => exact quietly_get.bind fun _ => quietly_pure _
  | other r => exact (quietly_lift _).bind fun _ => quietly_pure _

theorem quietly_skipNulls (h : still → s ≠ .start) : Quietly still (skipNulls s) :=
  (quietly_lift _).bind fun _ => quietly_readSlot.bind fun _ =>
    quietly_ite (quietly_writeSlot h _) (quietly_pure _)

end Slots

theorem quietly_threadFrom (o : RecId) (t : Opcode) (fuel : Nat) : Quietly still (threadFrom o t fuel) := by
  induction fuel with
  | zero => exact quietly_pure _
  | succ fuel ih =>
    refine (quietly_lift _).bind fun n => ?_
    cases n.next with
    | none => exact quietly_pure _
    | some r =>
      refine (quietly_lift _).bind fun n => quietly_ite ((quietly_lift _).bind fun _ => ?_) (quietly_pure _)
      exact quietly_ite ((quietly_noteChange _).bind fun _ => ih) ih

theorem quietly_threadBranch (o : RecId) : Quietly still (threadBranch o) := by
  refine (quietly_skipNulls (s := .other o) fun _ => nofun).bind fun _ => (quietly_lift _).bind fun n => ?_
  refine (quietly_lift _).bind fun a => (quietly_threadFrom o _ _).bind fun _ => (quietly_lift _).bind fun m => ?_
  cases m.next with
  | none => exact quietly_pure _
  | some r =>
    refine (quietly_lift _).bind fun n => quietly_ite ((quietly_lift _).bind fun _ => ?_) (quietly_pure _)
    exact quietly_noteChange _

theorem quietly_tagTruth (o : RecId) : Quietly still (tagTruth o) := by
  refine (quietly_lift _).bind fun a => ?_
  cases a.truthUse a.bound o with
  | no => exact quietly_pure _
  | always => exact (quietly_lift _).bind fun _ => quietly_noteChange _
  | inVoid => exact (quietly_lift _).bind fun _ => quietly_noteChange _

theorem quietly_constIndex (e : RecId) : Quietly still (constIndex e) := by
  refine (quietly_lift _).bind fun a => ?_
  split
  · split
    · exact quietly_pure _
    · refine quietly_ite (quietly_pure _) ((looks_inShape _ _).quietly.bind fun v => ?_)
      match v with
      | .error why => exact quietly_fail why
      | .ok false => exact quietly_pure _
      | .ok true => exact (quietly_lift _).bind fun _ => quietly_noteChange _
  · exact quietly_pure _

theorem quietly_uncheckItems (range : LoopRange) (m : RecId) : Quietly still (uncheckItems range m) := by
  refine (quietly_lift _).bind fun a => ?_
  cases (a.node m).path with
  | none => exact quietly_lift _
  | some path => exact (quietly_lift _).bind fun _ => quietly_forM (fun _ => quietly_noteChange _) _

theorem quietly_loopBounds (ent : RecId) : Quietly still (loopBounds ent) := by
  refine (quietly_lift _).bind fun a => ?_
  split
  · split
    · exact quietly_pure _
    · refine (quietly_forM (fun e => ?_) _).bind fun _ => quietly_forM (quietly_uncheckItems _) _
      exact (quietly_lift _).bind fun _ => quietly_noteChange _
  · exact quietly_pure _

theorem quietly_mergeRuns (pm list : RecId) (fuel : Nat) : Quietly still (mergeRuns pm list fuel) := by
  induction fuel with
  | zero => exact quietly_pure _
  | succ fuel ih =>
    refine (quietly_lift _).bind fun a => ?_
    cases nextRun? a list with
    | none => exact quietly_pure _
    | some p =>
      refine quietly_ite (quietly_pure _) ((quietly_forM (fun k => quietly_lift _) _).bind fun _ => ?_)
      refine (quietly_lift _).bind fun _ => (quietly_lift _).bind fun _ => ?_
      exact (quietly_noteChange _).bind fun _ => ih

theorem quietly_padrange (pm : RecId) : Quietly still (padrange pm) := by
  refine (quietly_lift _).bind fun a => ?_
  cases introRun? a pm with
  | none => exact quietly_pure _
  | some run =>
    refine quietly_ite (quietly_pure _) ((quietly_forM (fun k => quietly_lift _) _).bind fun _ => ?_)
    refine (quietly_lift _).bind fun _ => (quietly_lift _).bind fun _ => (quietly_lift _).bind fun _ => ?_
    exact (quietly_noteChange _).bind fun _ => quietly_mergeRuns pm _ _

section Visit

variable {o : RecId} {prev : Option RecId} {s : PeepSlot} (h : still → prev ≠ none ∨ s ≠ .start)

include h

theorem quietly_constBranch : Quietly still (constBranch? o prev s) := by
  refine (quietly_lift _).bind fun n => ?_
  cases n.next with
  | none => exact quietly_pure _
  | some l =>
    refine (quietly_lift _).bind fun b => quietly_ite (quietly_pure _) ?_
    cases answers b.code n.val.value with
    | none => exact quietly_pure _
    | some stays =>
      refine (quietly_lift _).bind fun _ => (quietly_noteChange _).bind fun _ => ?_
      refine quietly_ite ((quietly_lift _).bind fun _ => quietly_pure _) ((quietly_lift _).bind fun _ => ?_)
      exact (quietly_relink h _).bind fun _ => quietly_pure _

theorem quietly_notBranch : Quietly still (notBranch? o prev s) := by
  refine (quietly_lift _).bind fun n => ?_
  cases n.next with
  | none => exact quietly_pure _
  | some l =>
    refine (quietly_lift _).bind fun b => quietly_ite (quietly_pure _) ?_
    dsimp only
    split
    · exact quietly_pure _
    · refine (quietly_lift _).bind fun _ => (quietly_lift _).bind fun _ => (quietly_relink h _).bind fun _ => ?_
      exact (quietly_noteChange _).bind fun _ => quietly_pure _

theorem quietly_tailReturn : Quietly still (tailReturn? o prev s) := by
  refine (quietly_lift _).bind fun a => ?_
  cases tailReturnOf? a o with
  | none => exact quietly_pure _
  | some ret =>
    have hrest : ∀ next, Quietly still (do
        TreeM.neutralize o
        TreeM.neutralize ret
        relink prev s next
        noteChange "tail_return"
        return some next : Peep (Option (Option RecId))) := fun next =>
      (quietly_lift _).bind fun _ => (quietly_lift _).bind fun _ => (quietly_relink h _).bind fun _ =>
        (quietly_noteChange _).bind fun _ => quietly_pure _
    dsimp only
    cases a.last? ret with
    | none => exact (quietly_lift _).bind fun _ => hrest _
    | some l => exact quietly_ite ((quietly_lift _).bind fun _ => hrest _) (hrest _)

theorem quietly_multideref : Quietly still (multideref? o prev s) := by
  refine (looks_scanPath o).quietly.bind fun v => ?_
  match v with
  | .error why => exact (quietly_fail why).bind fun _ => quietly_pure _
  | .ok none => exact quietly_pure _
  | .ok (some m) =>
    refine (quietly_lift _).bind fun _ => (quietly_relink h _).bind fun _ => ?_
    exact (quietly_noteChange _).bind fun _ => quietly_pure _

theorem quietly_visitRest : Quietly still (visitRest o prev s) := by
  have hend : Quietly still (do
      return .goOn (← (TreeM.node o : TreeM Node)).next true : Peep Visit) :=
    (quietly_lift _).bind fun _ => quietly_pure _
  unfold visitRest
  refine (quietly_lift _).bind fun n => ?_
  extract_lets -underBinder jp
  have hjp : Quietly still (jp ()) := by
    refine (quietly_lift _).bind fun a => quietly_ite ((quietly_multideref h).bind fun v => ?_) hend
    cases v with
    | none => exact hend
    | some top => exact quietly_pure _
  have htag : Quietly still (do
      let r ← tagTruth o
      jp r) := (quietly_tagTruth o).bind fun _ => hjp
  clear_value jp
  split
  case h_5 => exact hjp
  all_goals exact quietly_ite htag hjp

theorem quietly_visit : Quietly still (visit o prev s) := by
  unfold visit
  refine (quietly_lift _).bind fun n => ?_
  extract_lets -underBinder jp
  have hjp : Quietly still (jp ()) := quietly_visitRest h
  have helide : Quietly still (do
      relink prev s n.next
      noteChange "elide"
      return .goOn n.next false : Peep Visit) :=
    (quietly_relink h _).bind fun _ => (quietly_noteChange _).bind fun _ => quietly_pure _
  have hbranch : ∀ {x : Peep Unit}, Quietly still x → Quietly still (do
      x
      return .branch : Peep Visit) := fun hx => hx.bind fun _ => quietly_pure _
  have hstep : ∀ {x : Peep Unit}, Quietly still x → Quietly still (do
      let r ← x
      jp r) := fun hx => hx.bind fun _ => hjp
  clear_value jp
  split
  case h_1 | h_2 | h_3 | h_4 => exact helide
  case h_5 => exact hstep fun _ _ => gives_modify ⟨rfl, rfl, fun h => h, fun _ => rfl⟩
  case h_6 =>
    refine (quietly_constBranch h).bind fun v => ?_
    cases v with
    | none => exact hjp
    | some p => exact quietly_pure _
  case h_7 =>
    refine (quietly_notBranch h).bind fun v => ?_
    cases v with
    | none => exact hjp
    | some l => exact quietly_pure _
  case h_8 =>
    refine (quietly_tailReturn h).bind fun v => ?_
    cases v with
    | none => exact hstep (quietly_padrange o)
    | some next => exact quietly_pure _
  case h_9 | h_10 | h_11 => exact hbranch (quietly_threadBranch o)
  case h_12 => exact hbranch (quietly_skipNulls (s := .other o) fun _ => nofun)
  case h_13 => exact hstep (quietly_loopBounds o)
  case h_14 => exact hstep (quietly_constIndex o)
  case h_15 => exact hstep (quietly_tagTruth o)
  case h_16 => exact hjp

end Visit

end Peep

end OpTree
