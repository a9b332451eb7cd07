import OpTree.Proofs.Trials

/-!
# What conversions raise

A conversion fails only where it warns. Formatted printing keeps such a failure for its end, but a directive for
floats has no number to print then, and that is fatal. Where warnings do not fail, no conversion does, and
formatted printing always gives a text.
-/

namespace OpTree

set_option autoImplicit false

namespace Failure

/-- A broken invariant and a fatal operation end a trial and the fold. Any other failure ends the trial alone. -/
def raised : Failure → Bool
  | broken _ | fatal _ => true
  | _ => false

end Failure

namespace Directive

def isFloat (d : Directive) : Bool := [101, 69, 102, 70, 103, 71].contains d.verb.toNat

end Directive

def WarnHook.Raises (G : Failure → Prop) : WarnHook → Prop
  | record => True
  | handle answer => ∀ texts text why, answer texts text = some why → G why

def Machine.Raises (G : Failure → Prop) (m : Machine) : Prop := m.noWarn = true ∨ m.hook.Raises G

namespace Exec

variable {α β : Type} {P : Machine → Prop} {G : Failure → Prop}

/-- A computation comes from states of `P` to states of `P`, and fails at most with a failure of `G`. -/
def Ends (P : Machine → Prop) (G : Failure → Prop) (x : Exec α) : Prop :=
  ∀ m, P m → match x m with
    | .ok _ m' => P m'
    | .error e m' => P m' ∧ G e

theorem ends_pure (v : α) : Ends P G (pure v : Exec α) := fun _ hm => hm

theorem Ends.bind {x : Exec α} {f : α → Exec β} (hx : Ends P G x) (hf : ∀ v, Ends P G (f v)) : Ends P G (x >>= f) := by
  intro m hm
  have h := hx m hm
  cases hok : x m with
  | ok v m' =>
    rw [hok] at h
    rw [bind_of_ok hok]
    exact hf v m' h
  | error e m' =>
    rw [hok] at h
    rw [bind_of_error hok]
    exact h

theorem Ends.ite {p : Prop} [Decidable p] {x y : Exec α} (hx : Ends P G x) (hy : Ends P G y) :
    Ends P G (if p then x else y) := by
  split
  · exact hx
  · exact hy

theorem ends_valueOf (c : Option CellId) : Ends P G (valueOf c) := by
  intro m hm
  rw [valueOf_apply]
  exact hm

theorem ends_warn (msg : Bytes) : Ends (Machine.Raises G) G (warn msg) := by
  intro m hm
  cases hoff : m.noWarn with
  | true =>
    rw [warn_off hoff]
    exact hm
  | false =>
    cases hhook : m.hook with
    | record =>
      rw [warn_recorded hoff hhook]
      exact hm
    | handle answer =>
      cases ha : answer m.heard (msg ++ placeText m.place?) with
      | none =>
        rw [warn_heard hoff hhook ha]
        exact hm
      | some why =>
        have hraises := hm.resolve_left (by simp [hoff])
        rw [hhook] at hraises
        rw [warn_refused hoff hhook ha]
        exact ⟨hm, hraises _ _ _ ha⟩

section Conversions

variable (hwarn : ∀ msg, Ends P G (warn msg))
include hwarn

theorem ends_toNumber (c : Option CellId) (t : Opcode) : Ends P G (toNumber c t) := by
  refine (ends_valueOf c).bind fun v => Ends.ite ?_ ?_
  · refine Ends.ite ((hwarn _).bind fun _ => ends_pure _) (ends_pure _)
  · exact (hwarn _).bind fun _ => ends_pure _

theorem ends_toInt (c : Option CellId) (t : Opcode) : Ends P G (toInt c t) :=
  (ends_toNumber hwarn c t).bind fun _ => ends_pure _

theorem ends_toText (c : Option CellId) (t : Opcode) : Ends P G (toText c t) := by
  refine (ends_valueOf c).bind fun v => ?_
  exact Ends.ite ((hwarn _).bind fun _ => ends_pure _) (ends_pure _)

end Conversions

end Exec

namespace FormatM

variable {α β : Type} {P : Machine → Prop} {G F : Failure → Prop}

def Fine (G : Failure → Prop) (s : Formatting) : Prop := ∀ why, s.failure? = some why → G why

/-- A part of a formatting raises at most a failure of `F`, and keeps at most one of `G`. -/
def Goes (P : Machine → Prop) (G F : Failure → Prop) (x : FormatM α) (Q : α → Prop) : Prop :=
  ∀ s m, Fine G s → P m → match x s m with
    | .ok (v, s') m' => Q v ∧ Fine G s' ∧ P m'
    | .error e _ => F e

theorem goes_pure {Q : α → Prop} {v : α} (hv : Q v) : Goes P G F (pure v) Q := fun _ _ hs hm => ⟨hv, hs, hm⟩

theorem Goes.bind {Q : α → Prop} {R : β → Prop} {x : FormatM α} {f : α → FormatM β} (hx : Goes P G F x Q)
    (hf : ∀ v, Q v → Goes P G F (f v) R) : Goes P G F (x >>= f) R := by
  intro s m hs hm
  have h := hx s m hs hm
  change match (x s >>= fun p => f p.1 p.2 : Exec _) m with
    | .ok (v, s') m' => R v ∧ Fine G s' ∧ P m'
    | .error e _ => F e
  cases hok : x s m with
  | ok p m' =>
    rw [hok] at h
    rw [bind_of_ok hok]
    exact hf p.1 h.1 p.2 m' h.2.1 h.2.2
  | error e m' =>
    rw [hok] at h
    rw [bind_of_error hok]
    exact h

theorem Goes.mono {F' : Failure → Prop} {Q : α → Prop} {x : FormatM α} (hx : Goes P G F x Q) (h : ∀ e, F e → F' e) :
    Goes P G F' x Q := by
  intro s m hs hm
  have hxs := hx s m hs hm
  cases hok : x s m with
  | ok p m' =>
    rw [hok] at hxs
    exact hxs
  | error e m' =>
    rw [hok] at hxs
    exact h e hxs

theorem goes_forM {f : β → FormatM Unit} {xs : List β} (h : ∀ x ∈ xs, Goes P G F (f x) fun _ => True) :
    Goes P G F (xs.forM f) fun _ => True := by
  induction xs with
  | nil => exact goes_pure trivial
  | cons x xs ih =>
    change Goes P G F (f x >>= fun _ => xs.forM f) _
    exact (h x (by simp)).bind fun _ _ => ih fun y hy => h y (by simp [hy])

theorem goes_modify {f : Formatting → Formatting} (hf : ∀ s, Fine G s → Fine G (f s)) :
    Goes P G F (modify f) fun _ => True := fun s _ hs hm => ⟨trivial, hf s hs, hm⟩

theorem goes_get : Goes P G F get fun s => Fine G s := fun _ _ hs hm => ⟨hs, hs, hm⟩

theorem goes_emit (b : Bytes) : Goes P G F (emit b) fun _ => True := goes_modify fun _ hs => hs

theorem Fine.keep {s : Formatting} {why : Failure} (hs : Fine G s) (hg : G why) :
    Fine G { s with failure? := s.failure?.or (some why) } := by
  intro why' h
  cases hf : s.failure? with
  | none =>
    simp only [hf] at h
    obtain rfl := Option.some.inj h
    exact hg
  | some w =>
    simp only [hf] at h
    exact hs why' (hf.trans h)

theorem goes_attempt {x : Exec α} (hx : Exec.Ends P G x) :
    Goes P G F (attempt x) fun v? => v? = none → ∃ why, G why := by
  intro s m hs hm
  have h := hx m hm
  cases hok : x m with
  | ok v m' =>
    rw [hok] at h
    rw [attempt_of_ok hok]
    exact ⟨nofun, hs, h⟩
  | error e m' =>
    rw [hok] at h
    rw [attempt_of_error hok]
    exact ⟨fun _ => ⟨e, h.2⟩, hs.keep h.2, h.1⟩

theorem goes_lift {x : Exec α} (hx : Exec.Ends P (fun _ => False) x) :
    Goes P G F (liftM x) fun _ => True := by
  intro s m hs hm
  have h := hx m hm
  change match (x >>= fun v => pure (v, s) : Exec _) m with
    | .ok (v, s') m' => True ∧ Fine G s' ∧ P m'
    | .error e _ => F e
  cases hok : x m with
  | ok v m' =>
    rw [hok] at h
    rw [bind_of_ok hok]
    exact ⟨trivial, hs, h⟩
  | error e m' =>
    rw [hok] at h
    exact h.2.elim

section Conversions

variable (hwarn : ∀ msg, Exec.Ends P G (Exec.warn msg))
include hwarn

theorem goes_next : Goes P G F next fun _ => True := by
  refine goes_get.bind fun s _ => ?_
  split
  · have hdrop : ∀ rest, Goes P G F (modify fun s => { s with args := rest } : FormatM Unit) fun _ => True :=
      fun _ => goes_modify fun _ hs => hs
    exact (hdrop _).bind fun _ _ => goes_pure trivial
  · exact (goes_attempt (hwarn _)).bind fun _ _ => goes_pure trivial

theorem goes_resolveStar (spec : Bytes) : Goes P G F (resolveStar spec) fun _ => True := by
  unfold resolveStar
  split
  · exact (goes_next hwarn).bind fun c _ => (goes_attempt (Exec.ends_toInt hwarn c _)).bind fun _ _ => goes_pure trivial
  · exact goes_pure trivial

theorem goes_intArg : Goes P G F intArg fun _ => True :=
  (goes_next hwarn).bind fun c _ => (goes_attempt (Exec.ends_toInt hwarn c _)).bind fun _ _ => goes_pure trivial

theorem goes_vector (spec : Bytes) : Goes P G F (vector spec) fun _ => True := by
  exact (goes_next hwarn).bind fun c _ => (goes_lift (Exec.ends_valueOf c)).bind fun _ _ => goes_emit _

theorem goes_printWith (d : Directive) (width prec : Bytes) :
    Goes P G (fun e => e = .fatal none ∧ d.isFloat = true ∧ ∃ why, G why) (printWith d width prec) fun _ => True := by
  have hint : ∀ f : Int64 → Bytes, Goes P G (fun e => e = .fatal none ∧ d.isFloat = true ∧ ∃ why, G why)
      (intArg >>= fun v => emit (f v)) fun _ => True := fun _ =>
    (goes_intArg hwarn).bind fun _ _ => goes_emit _
  unfold printWith
  dsimp only
  split
  case h_1 => exact goes_emit _
  case h_2 => exact hint _
  case h_3 =>
    exact (goes_next hwarn).bind fun c _ => (goes_attempt (Exec.ends_toText hwarn c _)).bind fun _ _ => goes_emit _
  case h_18 => exact goes_pure trivial
  case h_19 => exact (goes_attempt (hwarn _)).bind fun _ _ => goes_emit _
  case h_4 | h_5 | h_6 =>
    split
    · exact goes_vector hwarn _
    · exact hint _
  case h_7 | h_8 | h_9 | h_10 | h_11 => exact hint _
  all_goals
    rename_i hverb
    refine (goes_next hwarn).bind fun c _ => (goes_attempt (Exec.ends_toNumber hwarn c _)).bind fun n? hn => ?_
    split
    · exact goes_emit _
    · intro s m _ _
      exact ⟨rfl, by simp [Directive.isFloat, hverb], hn rfl⟩

theorem goes_directive (d : Directive) :
    Goes P G (fun e => e = .fatal none ∧ d.isFloat = true ∧ ∃ why, G why) (directive d) fun _ => True := by
  rw [directive_eq]
  refine goes_get.bind fun s _ => ?_
  split
  · exact goes_pure trivial
  · exact (goes_resolveStar hwarn _).bind fun width _ => (goes_resolveStar hwarn _).bind fun prec _ =>
      goes_printWith hwarn d width prec

end Conversions

end FormatM

namespace Exec

open FormatM

variable {P : Machine → Prop} {G : Failure → Prop} {m m' : Machine} {format : Bytes} {args : List (Option CellId)}
  {e : Failure}

/-- What is left to do when all parts of a format are printed. -/
def finish (s : Formatting) : Exec Bytes :=
  match s.failure? with
  | some why => throw why
  | none => do
    if !s.args.isEmpty then warn (utf8 "Redundant argument in sprintf")
    return s.pieces.reverse.flatten

theorem sprintf_eq : sprintf format args =
    (FormatPart.parse format).forM part { args := args } >>= fun p => finish p.2 := rfl

theorem ends_finish {s : Formatting} (hwarn : ∀ msg, Ends P G (warn msg)) (hs : Fine G s) : Ends P G (finish s) := by
  unfold finish
  cases hf : s.failure? with
  | some why => exact fun m hm => ⟨hm, hs why hf⟩
  | none => exact Ends.ite ((hwarn _).bind fun _ => ends_pure _) (ends_pure _)

/-- Formatted printing fails as its conversions do, or at a directive for floats whose conversion has failed. -/
theorem sprintf_fails (hwarn : ∀ msg, Ends P G (warn msg)) (hm : P m) (h : sprintf format args m = .error e m') :
    G e ∨ e = .fatal none ∧ (∃ d, .directive d ∈ FormatPart.parse format ∧ d.isFloat = true) ∧ ∃ why, G why := by
  have hparts : Goes P G (fun e => e = .fatal none ∧
      (∃ d, .directive d ∈ FormatPart.parse format ∧ d.isFloat = true) ∧ ∃ why, G why)
      ((FormatPart.parse format).forM part) fun _ => True := by
    refine goes_forM fun p hp => ?_
    cases p with
    | text s => exact goes_emit s
    | directive d =>
      refine (goes_directive hwarn d).mono ?_
      rintro e ⟨he, hd, hwhy⟩
      exact ⟨he, ⟨d, hp, hd⟩, hwhy⟩
  have hgoes := hparts { args := args } m (by simp [Fine]) hm
  rw [sprintf_eq] at h
  cases hrun : (FormatPart.parse format).forM part { args := args } m with
  | error e' m₁ =>
    rw [hrun] at hgoes
    obtain ⟨rfl, -⟩ := EStateM.Result.error.inj ((bind_of_error hrun).symm.trans h)
    exact Or.inr hgoes
  | ok p m₁ =>
    rw [hrun] at hgoes
    have hlast := ends_finish hwarn hgoes.2.1 m₁ hgoes.2.2
    have hfinish : finish p.2 m₁ = .error e m' := (bind_of_ok hrun).symm.trans h
    rw [hfinish] at hlast
    exact Or.inl hlast.2

theorem sprintf_raises (hm : m.Raises G) (h : sprintf format args m = .error e m') :
    G e ∨ e = .fatal none ∧ ∃ d, .directive d ∈ FormatPart.parse format ∧ d.isFloat = true := by
  rcases sprintf_fails ends_warn hm h with he | ⟨he, hd, -⟩
  · exact Or.inl he
  · exact Or.inr ⟨he, hd⟩

/-- Where no warning becomes a failure, formatted printing gives a text for every format and all arguments. -/
theorem sprintf_returns (hm : m.Raises fun _ => False) : ∃ text m', sprintf format args m = .ok text m' := by
  cases h : sprintf format args m with
  | ok text m' => exact ⟨text, m', rfl⟩
  | error e m' =>
    rcases sprintf_fails ends_warn hm h with he | ⟨-, -, why, hwhy⟩
    · exact he.elim
    · exact hwhy.elim

end Exec

end OpTree
