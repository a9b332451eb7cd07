/-!
# Computations in sequence

How a computation with a state that may fail goes on where the first of its two parts has come to.
-/

namespace OpTree

set_option autoImplicit false

section Sequencing

variable {ε σ α β : Type} {x : EStateM ε σ α} {f : α → EStateM ε σ β} {s s' : σ}

theorem bind_of_ok {v : α} (h : x s = .ok v s') : (x >>= f) s = f v s' := by
  change EStateM.bind x f s = _
  rw [EStateM.bind, h]

theorem bind_of_error {e : ε} (h : x s = .error e s') : (x >>= f) s = .error e s' := by
  change EStateM.bind x f s = _
  rw [EStateM.bind, h]

theorem bind_eq_ok {v : β} : (x >>= f) s = .ok v s' ↔ ∃ w s₁, x s = .ok w s₁ ∧ f w s₁ = .ok v s' := by
  constructor
  · intro h
    cases hx : x s with
    | ok w s₁ => exact ⟨w, s₁, rfl, (bind_of_ok hx).symm.trans h⟩
    | error e s₁ =>
      rw [bind_of_error hx] at h
      cases h
  · rintro ⟨w, s₁, hx, hf⟩
    exact (bind_of_ok hx).trans hf

def yields (x : EStateM ε σ α) (s : σ) (test : α → σ → Bool) : Bool :=
  match x s with
  | .ok v s' => test v s'
  | .error _ _ => false

theorem ok_of_yields {test : α → σ → Bool} (h : yields x s test = true) :
    ∃ v s', x s = .ok v s' ∧ test v s' = true := by
  unfold yields at h
  split at h
  · exact ⟨_, _, ‹_›, h⟩
  · cases h

def fails [DecidableEq ε] (x : EStateM ε σ α) (s : σ) (why : ε) : Bool :=
  match x s with
  | .ok _ _ => false
  | .error e _ => decide (e = why)

theorem error_of_fails [DecidableEq ε] {why : ε} (h : fails x s why = true) : ∃ s', x s = .error why s' := by
  unfold fails at h
  split at h
  · cases h
  · obtain rfl := of_decide_eq_true h
    exact ⟨_, ‹_›⟩

theorem ok_of_toOption {r : Except ε α} {v : α} (h : r.toOption = some v) : r = .ok v := by
  cases r with
  | ok w => exact congrArg Except.ok (Option.some.inj h)
  | error e => cases h

end Sequencing

end OpTree
