import OpTree.Proofs.Mirrors

/-!
# Formatted printing in a trial

What is printed in a trial without a failure is printed by every other machine, too. A directive whose
conversion fails is never printed well, as a failure that is kept stays.
-/

namespace OpTree

set_option autoImplicit false

namespace FormatM

open Exec Machine

variable {α β γ δ : Type} {m n : Machine}

/-- Formattings that have come to the same place, with arguments of the same values. -/
structure Alike (m n : Machine) (s s' : Formatting) : Prop where
  args : List.Forall₂ (fun c d => n.value d = m.value c) s.args s'.args
  left : s.failure? = none
  right : s'.failure? = none
  pieces : s'.pieces = s.pieces

/-- A failure that is kept stays. -/
def Keeps (x : FormatM α) : Prop :=
  ∀ ⦃s k u s' k'⦄, x s k = .ok (u, s') k' → s'.failure? = none → s.failure? = none

/-- A part of a formatting that keeps no failure on the left goes the same way on the right. -/
def Copies (m n : Machine) (R : α → β → Prop) (x : FormatM α) (y : FormatM β) : Prop :=
  ∀ s s', Alike m n s s' → ∀ u s₁ m₁, x s m = .ok (u, s₁) m₁ → s₁.failure? = none →
    m₁ = m ∧ ∃ v s₁', y s' n = .ok (v, s₁') n ∧ R u v ∧ Alike m n s₁ s₁'

theorem keeps_pure (v : α) : Keeps (pure v : FormatM α) := by
  intro s k u s' k' hok hn
  cases hok
  exact hn

theorem Keeps.bind {x : FormatM α} {f : α → FormatM β} (hx : Keeps x) (hf : ∀ v, Keeps (f v)) :
    Keeps (x >>= f) := by
  intro s k u s' k' hok hn
  obtain ⟨⟨v, s₁⟩, k₁, hv, hok⟩ := bind_eq_ok.mp hok
  exact hx hv (hf v hok hn)

theorem keeps_lift (x : Exec α) : Keeps (liftM x : FormatM α) := by
  intro s k u s' k' hok hn
  obtain ⟨v, k₁, -, hok⟩ := bind_eq_ok.mp hok
  cases hok
  exact hn

theorem keeps_get : Keeps (get : FormatM Formatting) := by
  intro s k u s' k' hok hn
  cases hok
  exact hn

theorem keeps_modify {f : Formatting → Formatting} (hf : ∀ s, (f s).failure? = none → s.failure? = none) :
    Keeps (modify f : FormatM Unit) := by
  intro s k u s' k' hok hn
  cases hok
  exact hf s hn

theorem keeps_emit (b : Bytes) : Keeps (emit b) := keeps_modify fun _ h => h

theorem keeps_keep (e : Failure) : Keeps (keep e) := keeps_modify fun s h => by
  cases hs : s.failure? with
  | none => rfl
  | some w =>
    rw [hs] at h
    cases h

theorem keeps_attempt (x : Exec α) : Keeps (attempt x) := by
  refine (keeps_lift _).bind fun r => ?_
  split
  · exact keeps_pure _
  · exact (keeps_keep _).bind fun _ => keeps_pure _

theorem keeps_next : Keeps next := by
  refine keeps_get.bind fun s => ?_
  split
  · have hdrop : ∀ rest, Keeps (modify fun s => { s with args := rest } : FormatM Unit) := fun _ =>
      keeps_modify fun _ h => h
    exact (hdrop _).bind fun _ => keeps_pure _
  · exact (keeps_attempt _).bind fun _ => keeps_pure _

theorem keeps_resolveStar (spec : Bytes) : Keeps (resolveStar spec) := by
  unfold resolveStar
  split
  · exact keeps_next.bind fun _ => (keeps_attempt _).bind fun _ => keeps_pure _
  · exact keeps_pure _

theorem keeps_intArg : Keeps intArg := keeps_next.bind fun _ => (keeps_attempt _).bind fun _ => keeps_pure _

theorem keeps_vector (spec : Bytes) : Keeps (vector spec) :=
  keeps_next.bind fun _ => (keeps_lift _).bind fun _ => keeps_emit _

def printWith (d : Directive) (width prec : Bytes) : FormatM Unit := do
  let (flags, width) := match width with
    | 45 :: w => (d.flags ++ [45], w)
    | w => (d.flags, w)
  let spec := flags ++ width ++ prec
  match d.verb.toNat with
  | 37 => emit [37]
  | 99 =>
    let v ← intArg
    emit (Field.print (spec ++ [99]) (.rune (low32 v)))
  | 115 =>
    let s ← attempt (Exec.toText (← next) .sprintf)
    emit (Field.print (spec ++ [115]) (.text (s.getD [])))
  | 100 | 105 | 117 =>
    if d.vector then vector spec
    else
      let v ← intArg
      emit (Field.print (spec ++ [100]) (.int v.toInt))
  | 120 | 88 | 111 | 98 | 66 =>
    let v ← intArg
    let verb := if d.verb == 66 then 98 else d.verb
    emit (Field.print (spec ++ [verb]) (.word v.toUInt64.toNat))
  | 101 | 69 | 102 | 70 | 103 | 71 =>
    match ← attempt (Exec.toNumber (← next) .sprintf) with
    | some n => emit (Field.print (spec ++ [d.verb]) (.float n.toFloat))
    | none => (Exec.fatal : Exec Unit)
  | 110 => return
  | _ =>
    let _ ← attempt (Exec.warn (utf8 "Invalid conversion in sprintf: \"" ++ d.raw ++ [34]))
    emit d.raw

theorem directive_eq (d : Directive) : directive d = (do
    if (← get).failure?.isSome then return
    printWith d (← resolveStar d.width) (← resolveStar d.prec)) := rfl

theorem keeps_printWith (d : Directive) (width prec : Bytes) : Keeps (printWith d width prec) := by
  have hint : ∀ f : Int64 → Bytes, Keeps (intArg >>= fun v => emit (f v)) := fun _ =>
    keeps_intArg.bind fun _ => keeps_emit _
  unfold printWith
  dsimp only
  split
  case h_1 => exact keeps_emit _
  case h_2 => exact hint _
  case h_3 => exact keeps_next.bind fun _ => (keeps_attempt _).bind fun _ => keeps_emit _
  case h_18 => exact keeps_pure _
  case h_19 => exact (keeps_attempt _).bind fun _ => keeps_emit _
  case h_4 | h_5 | h_6 =>
    split
    · exact keeps_vector _
    · exact hint _
  case h_7 | h_8 | h_9 | h_10 | h_11 => exact hint _
  all_goals
    refine keeps_next.bind fun _ => (keeps_attempt _).bind fun _ => ?_
    split
    · exact keeps_emit _
    · exact keeps_lift _

theorem keeps_directive (d : Directive) : Keeps (directive d) := by
  rw [directive_eq]
  refine keeps_get.bind fun s => ?_
  split
  · exact keeps_pure _
  · exact (keeps_resolveStar _).bind fun _ => (keeps_resolveStar _).bind fun _ => keeps_printWith d _ _

theorem keeps_part (p : FormatPart) : Keeps (part p) := by
  cases p with
  | text s => exact keeps_emit s
  | directive d => exact keeps_directive d

section Copies

variable {R : α → β → Prop} {S : γ → δ → Prop}

theorem copies_pure {u : α} {v : β} (h : R u v) : Copies m n R (pure u) (pure v) := by
  intro s s' hs w s₁ m₁ hok _
  cases hok
  exact ⟨rfl, v, s', rfl, h, hs⟩

theorem Copies.bind {x : FormatM α} {y : FormatM β} {f : α → FormatM γ} {g : β → FormatM δ}
    (hx : Copies m n R x y) (hk : ∀ u, Keeps (f u)) (hf : ∀ u v, R u v → Copies m n S (f u) (g v)) :
    Copies m n S (x >>= f) (y >>= g) := by
  intro s s' hs w s₂ m₂ hok hn
  obtain ⟨⟨u, s₁⟩, m₁, hu, hrest⟩ := bind_eq_ok.mp hok
  obtain ⟨rfl, v, s₁', hv, hr, hs₁⟩ := hx s s' hs u s₁ m₁ hu (hk u hrest hn)
  obtain ⟨hm, z, s₂', hz, hsz, hs₂⟩ := hf u v hr s₁ s₁' hs₁ w s₂ m₂ hrest hn
  refine ⟨hm, z, s₂', ?_, hsz, hs₂⟩
  change (y s' >>= fun p => g p.1 p.2) n = _
  rw [bind_of_ok hv]
  exact hz

theorem copies_emit (b : Bytes) : Copies m n (fun _ _ => True) (emit b) (emit b) := by
  intro s s' hs u s₁ m₁ hok _
  cases hok
  exact ⟨rfl, (), _, rfl, trivial, hs.args, hs.left, hs.right, congrArg (b :: ·) hs.pieces⟩

theorem pure_run (v : α) (s : Formatting) : (StateT.pure v : FormatM α) s = pure (v, s) := rfl

theorem attempt_of_ok {x : Exec α} {u : α} {m' : Machine} (h : x m = .ok u m') (s : Formatting) :
    attempt x s m = .ok (some u, s) m' := by
  simp [attempt, liftM, monadLift, MonadLift.monadLift, StateT.lift, bind, StateT.bind, EStateM.bind, tryCatch,
    tryCatchThe, MonadExceptOf.tryCatch, EStateM.tryCatch, h, pure, EStateM.pure, pure_run]

theorem attempt_of_error {x : Exec α} {e : Failure} {m' : Machine} (h : x m = .error e m') (s : Formatting) :
    attempt x s m = .ok (none, { s with failure? := s.failure?.or (some e) }) m' := by
  simp [attempt, keep, liftM, monadLift, MonadLift.monadLift, StateT.lift, bind, StateT.bind, EStateM.bind, tryCatch,
    tryCatchThe, MonadExceptOf.tryCatch, EStateM.tryCatch, h, pure, EStateM.pure, pure_run, modify, modifyGet,
    MonadStateOf.modifyGet, StateT.modifyGet, EStateM.Backtrackable.restore, EStateM.dummyRestore]

theorem copies_attempt {x y : Exec α} (h : ∀ u m', x m = .ok u m' → m' = m ∧ y n = .ok u n) :
    Copies m n (fun u v => v = u) (attempt x) (attempt y) := by
  intro s s' hs u s₁ m₁ hok hn
  cases hx : x m with
  | ok w m' =>
    obtain ⟨rfl, hy⟩ := h w m' hx
    rw [attempt_of_ok hx] at hok
    cases hok
    exact ⟨rfl, some w, s', attempt_of_ok hy s', rfl, hs⟩
  | error e m' =>
    rw [attempt_of_error hx] at hok
    cases hok
    rw [hs.left] at hn
    cases hn

theorem next_of_cons {s : Formatting} {c : Option CellId} {rest : List (Option CellId)} (h : s.args = c :: rest)
    (k : Machine) : next s k = .ok (c, { s with args := rest }) k := by
  simp [next, h, bind, StateT.bind, EStateM.bind, get, getThe, MonadStateOf.get, StateT.get, pure, EStateM.pure,
    pure_run, modify, modifyGet, MonadStateOf.modifyGet, StateT.modifyGet]

theorem next_of_nil {s : Formatting} (h : s.args = []) (k : Machine) :
    next s k = (attempt (Exec.warn (utf8 "Missing argument in sprintf")) >>= fun _ => pure none) s k := by
  simp [next, h, bind, StateT.bind, EStateM.bind, get, getThe, MonadStateOf.get, StateT.get, pure, EStateM.pure,
    pure_run]

variable (hst : Strict m n)
include hst

theorem copies_next : Copies m n (fun c d => n.value d = m.value c) next next := by
  intro s s' hs u s₁ m₁ hok hn
  cases hxs : s.args with
  | nil =>
    have hys : s'.args = [] := by
      have hargs := hs.args
      rw [hxs] at hargs
      exact List.forall₂_nil_left_iff.mp hargs
    rw [next_of_nil hxs] at hok
    rw [next_of_nil hys]
    have hw := copies_attempt (x := Exec.warn (utf8 "Missing argument in sprintf")) fun u m' h => warn_strict hst h
    exact (hw.bind (fun _ => keeps_pure _) fun _ _ _ => copies_pure (R := fun c d => n.value d = m.value c) rfl)
      s s' hs u s₁ m₁ hok hn
  | cons c rest =>
    obtain ⟨d, rest', hv, hrest, hys⟩ : ∃ d rest', n.value d = m.value c ∧
        List.Forall₂ (fun c d => n.value d = m.value c) rest rest' ∧ s'.args = d :: rest' := by
      have hargs := hs.args
      rw [hxs] at hargs
      exact List.forall₂_cons_left_iff.mp hargs
    rw [next_of_cons hxs] at hok
    cases hok
    exact ⟨rfl, d, _, next_of_cons hys n, hv, hrest, hs.left, hs.right, hs.pieces⟩

theorem copies_intOf {c d : Option CellId} (hv : n.value d = m.value c) :
    Copies m n (fun u v => v = u) (attempt (Exec.toInt c .sprintf)) (attempt (Exec.toInt d .sprintf)) :=
  copies_attempt fun _ _ h => toInt_strict hst hv h

theorem copies_resolveStar (spec : Bytes) : Copies m n (fun u v => v = u) (resolveStar spec) (resolveStar spec) := by
  unfold resolveStar
  split
  · refine (copies_next hst).bind (fun _ => (keeps_attempt _).bind fun _ => keeps_pure _) fun c d hv => ?_
    refine (copies_intOf hst hv).bind (fun _ => keeps_pure _) fun u v huv => copies_pure ?_
    rw [huv]
  · exact copies_pure rfl

theorem copies_intArg : Copies m n (fun u v => v = u) intArg intArg := by
  refine (copies_next hst).bind (fun _ => (keeps_attempt _).bind fun _ => keeps_pure _) fun c d hv => ?_
  refine (copies_intOf hst hv).bind (fun _ => keeps_pure _) fun u v huv => copies_pure ?_
  rw [huv]

theorem copies_vector (spec : Bytes) : Copies m n (fun _ _ => True) (vector spec) (vector spec) := by
  have hread : ∀ c d, n.value d = m.value c →
      Copies m n (fun u v => v = u) (liftM (Exec.valueOf c) : FormatM Value) (liftM (Exec.valueOf d)) := by
    intro c d hv s s' hs u s₁ m₁ hok _
    obtain ⟨w, m₂, hw, hend⟩ := bind_eq_ok.mp hok
    cases hend
    have hw : Exec.valueOf c m = .ok u m₁ := hw
    rw [valueOf_apply] at hw
    cases hw
    exact ⟨rfl, n.value d, s', bind_of_ok (valueOf_apply d n), hv, hs⟩
  refine (copies_next hst).bind (fun _ => (keeps_lift _).bind fun _ => keeps_emit _) fun c d hv => ?_
  refine (hread c d hv).bind (fun _ => keeps_emit _) fun u v huv => ?_
  rw [huv]
  exact copies_emit _

omit hst in
theorem copies_get {f : Formatting → FormatM γ} {g : Formatting → FormatM δ}
    (hf : ∀ s s', Alike m n s s' → Copies m n S (f s) (g s')) : Copies m n S (get >>= f) (get >>= g) :=
  fun s s' hs => hf s s' hs s s' hs

theorem copies_printWith (d : Directive) (width prec : Bytes) :
    Copies m n (fun _ _ => True) (printWith d width prec) (printWith d width prec) := by
  have hint : ∀ f : Int64 → Bytes,
      Copies m n (fun _ _ => True) (intArg >>= fun v => emit (f v)) (intArg >>= fun v => emit (f v)) := fun f =>
    (copies_intArg hst).bind (fun _ => keeps_emit _) fun u v huv => by
      rw [huv]
      exact copies_emit _
  unfold printWith
  dsimp only
  split
  case h_1 => exact copies_emit _
  case h_2 => exact hint _
  case h_3 =>
    refine (copies_next hst).bind (fun _ => (keeps_attempt _).bind fun _ => keeps_emit _) fun c d hv => ?_
    refine (copies_attempt fun _ _ h => toText_strict hst hv h).bind (fun _ => keeps_emit _) fun u v huv => ?_
    rw [huv]
    exact copies_emit _
  case h_18 => exact copies_pure trivial
  case h_19 =>
    exact (copies_attempt fun _ _ h => warn_strict hst h).bind (fun _ => keeps_emit _) fun _ _ _ => copies_emit _
  case h_4 | h_5 | h_6 =>
    split
    · exact copies_vector hst _
    · exact hint _
  case h_7 | h_8 | h_9 | h_10 | h_11 => exact hint _
  all_goals
    refine (copies_next hst).bind (fun _ => (keeps_attempt _).bind fun _ => ?_) fun c d hv => ?_
    · split
      · exact keeps_emit _
      · exact keeps_lift _
    · refine (copies_attempt fun _ _ h => toNumber_strict hst hv h).bind (fun _ => ?_) fun u v huv => ?_
      · split
        · exact keeps_emit _
        · exact keeps_lift _
      · rw [huv]
        cases u with
        | some k => exact copies_emit _
        | none =>
          intro s s' hs w s₁ m₁ hok
          cases hok

theorem copies_directive (d : Directive) : Copies m n (fun _ _ => True) (directive d) (directive d) := by
  rw [directive_eq]
  refine copies_get fun s s' hs => ?_
  rw [hs.left, hs.right]
  have hkeep : ∀ width, Keeps (do printWith d width (← resolveStar d.prec)) := fun _ =>
    (keeps_resolveStar _).bind fun _ => keeps_printWith d _ _
  refine (copies_resolveStar hst _).bind hkeep fun u v huv => ?_
  refine (copies_resolveStar hst _).bind (fun _ => keeps_printWith d _ _) fun w z hwz => ?_
  rw [huv, hwz]
  exact copies_printWith hst d u w

theorem copies_parts (ps : List FormatPart) :
    Copies m n (fun _ _ => True) (ps.forM part) (ps.forM part) ∧ Keeps (ps.forM part) := by
  induction ps with
  | nil => exact ⟨copies_pure trivial, keeps_pure ()⟩
  | cons p ps ih =>
    have hp : Copies m n (fun _ _ => True) (part p) (part p) := by
      cases p with
      | text s => exact copies_emit s
      | directive d => exact copies_directive hst d
    exact ⟨hp.bind (fun _ => ih.2) fun _ _ _ => ih.1, (keeps_part p).bind fun _ => ih.2⟩

end Copies

end FormatM

namespace Exec

open Machine

theorem sprintf_strict {m n : Machine} (hs : Strict m n) {format : Bytes} {cs ds : List (Option CellId)}
    (hv : List.Forall₂ (fun c d => n.value d = m.value c) cs ds) {u : Bytes} {m' : Machine}
    (hok : sprintf format cs m = .ok u m') : m' = m ∧ sprintf format ds n = .ok u n := by
  obtain ⟨⟨v, s⟩, m₁, hparts, hend⟩ := bind_eq_ok.mp hok
  cases hf : s.failure? with
  | some why =>
    simp only [hf] at hend
    cases hend
  | none =>
    obtain ⟨rfl, w, s', hparts', -, hs'⟩ := (FormatM.copies_parts hs (FormatPart.parse format)).1
      { args := cs } { args := ds } ⟨hv, rfl, rfl, rfl⟩ v s m₁ hparts hf
    have hempty : s'.args.isEmpty = s.args.isEmpty := by
      have hargs := hs'.args
      cases hxs : s.args with
      | nil =>
        rw [hxs, List.forall₂_nil_left_iff] at hargs
        rw [hargs]
      | cons c rest =>
        rw [hxs, List.forall₂_cons_left_iff] at hargs
        obtain ⟨d, rest', -, -, hys⟩ := hargs
        rw [hys]
        rfl
    have hrun : ((FormatPart.parse format).forM FormatM.part).run { args := ds } n = .ok (w, s') n := hparts'
    unfold sprintf
    rw [bind_of_ok hrun]
    simp only [hf] at hend
    simp only [hs'.right, hempty, hs'.pieces]
    split at hend
    · rename_i hmore
      rw [if_pos hmore]
      obtain ⟨w, m₂, hw, hpure⟩ := bind_eq_ok.mp hend
      obtain ⟨rfl, hw'⟩ := warn_strict hs hw
      rw [bind_of_ok hw']
      cases hpure
      exact ⟨rfl, rfl⟩
    · rename_i hmore
      rw [if_neg hmore]
      cases hend
      exact ⟨rfl, rfl⟩

end Exec

end OpTree
