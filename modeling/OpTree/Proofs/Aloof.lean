import OpTree.Proofs.Ranges

/-!
# Computations apart from the stack

Computations that neither look at the stack nor at the count of steps, and computations that go
together on two machines.
-/

namespace OpTree

set_option autoImplicit false

namespace Opcode

/-- The unary ops on scalars whose value is that of their operand alone. -/
def unary : List Opcode := [.negate, .not, .lc, .uc]

def binary : List Opcode :=
  [.add, .subtract, .multiply, .divide, .modulo, .concat, .lt, .gt, .le, .ge, .eq, .ne, .seq, .sne, .sassign]

end Opcode

namespace Machine

/-- The machine with another stack and another count of steps. -/
def restack (s : Array Item) (k : Nat) (ms : List Nat) (t : Nat) (m : Machine) : Machine :=
  { m with slots := s, height := k, marks := ms, steps := t }

theorem restack_of_offStack {m m' : Machine} (h : m'.offStack = m.offStack) :
    m' = m.restack m'.slots m'.height m'.marks m'.steps := by
  have hwith := congrArg (restack m'.slots m'.height m'.marks m'.steps) h
  exact hwith

theorem value_of_offStack {m n : Machine} (h : n.offStack = m.offStack) (c : Option CellId) : n.value c = m.value c := by
  rw [Machine.value, Machine.value, heap_of_offStack h]

end Machine

namespace Exec

open Machine

variable {α β : Type}

section Aloof

def restacked (s : Array Item) (k : Nat) (ms : List Nat) (t : Nat) :
    EStateM.Result Failure Machine α → EStateM.Result Failure Machine α
  | .ok v m => .ok v (m.restack s k ms t)
  | .error e m => .error e (m.restack s k ms t)

/-- A computation that neither looks at the stack nor at the count of steps, nor changes them. -/
def Aloof (x : Exec α) : Prop := ∀ m s k ms t, x (m.restack s k ms t) = restacked s k ms t (x m)

theorem aloof_pure (v : α) : Aloof (pure v : Exec α) := fun _ _ _ _ _ => rfl

theorem aloof_throw (e : Failure) : Aloof (throw e : Exec α) := fun _ _ _ _ _ => rfl

theorem Aloof.bind {x : Exec α} {f : α → Exec β} (hx : Aloof x) (hf : ∀ v, Aloof (f v)) : Aloof (x >>= f) := by
  intro m s k ms t
  have h := hx m s k ms t
  change EStateM.bind x f _ = restacked s k ms t (EStateM.bind x f m)
  unfold EStateM.bind
  rw [h]
  cases x m with
  | ok v n => exact hf v n s k ms t
  | error e n => rfl

theorem aloof_ite {p : Prop} [Decidable p] {x y : Exec α} (hx : Aloof x) (hy : Aloof y) :
    Aloof (if p then x else y) := by
  split
  · exact hx
  · exact hy

theorem aloof_get {f : Machine → Exec α} (hf : ∀ m s k ms t, f (m.restack s k ms t) = f m)
    (hx : ∀ m, Aloof (f m)) : Aloof (get >>= f) := by
  intro m s k ms t
  change f (m.restack s k ms t) (m.restack s k ms t) = restacked s k ms t (f m m)
  rw [hf]
  exact hx m m s k ms t

theorem aloof_modify {f : Machine → Machine} (hf : ∀ m s k ms t, f (m.restack s k ms t) = (f m).restack s k ms t) :
    Aloof (modify f : Exec Unit) := by
  intro m s k ms t
  change EStateM.Result.ok () (f (m.restack s k ms t)) = _
  rw [hf]
  rfl

theorem aloof_onHeap (f : Heap → α × Heap) : Aloof (onHeap f) := fun _ _ _ _ _ => rfl

theorem aloof_temp (v : Value) : Aloof (temp v) := aloof_onHeap _

theorem aloof_store (c : CellId) (v : Value) : Aloof (store c v) := aloof_modify fun _ _ _ _ _ => rfl

theorem aloof_valueOf (c : Option CellId) : Aloof (valueOf c) := by
  cases c with
  | none => exact aloof_pure _
  | some c => exact aloof_get (fun _ _ _ _ _ => rfl) fun _ => aloof_pure _

theorem aloof_cellOf (c : Option CellId) : Aloof (cellOf c) := by
  cases c with
  | none => exact aloof_throw _
  | some c => exact aloof_get (fun _ _ _ _ _ => rfl) fun _ => aloof_pure _

theorem aloof_padSlot (targ : Int) : Aloof (padSlot targ) := by
  refine aloof_get (fun _ _ _ _ _ => rfl) fun m => aloof_ite (aloof_throw _) ?_
  split
  · exact aloof_pure _
  · exact aloof_throw _

theorem aloof_setPadSlot (targ : Int) (x : PadSlot) : Aloof (setPadSlot targ x) := by
  refine aloof_get (fun _ _ _ _ _ => rfl) fun m => aloof_ite (aloof_throw _) ?_
  exact aloof_modify fun _ _ _ _ _ => rfl

theorem aloof_throwAt (msg : Bytes) : Aloof (throwAt msg : Exec α) :=
  aloof_get (fun _ _ _ _ _ => rfl) fun _ => aloof_throw _

theorem aloof_report (text : Bytes) (hook : WarnHook) : Aloof (report text hook) := by
  cases hook with
  | record => exact aloof_modify fun _ _ _ _ _ => rfl
  | handle answer =>
    refine aloof_get (fun _ _ _ _ _ => rfl) fun m => (aloof_modify fun _ _ _ _ _ => rfl).bind fun _ => ?_
    split
    · exact aloof_throw _
    · exact aloof_pure _

theorem aloof_warn (msg : Bytes) : Aloof (warn msg) :=
  aloof_get (fun _ _ _ _ _ => rfl) fun _ => aloof_ite (aloof_pure _) (aloof_report _ _)

theorem aloof_cellFor (o : Node) : Aloof (cellFor o) := by
  refine aloof_get (fun _ _ _ _ _ => rfl) fun m => ?_
  split
  · exact aloof_pure _
  · exact aloof_onHeap _

theorem aloof_write (text : Bytes) : Aloof (write text) := by
  refine aloof_get (fun _ _ _ _ _ => rfl) fun m => (aloof_modify fun _ _ _ _ _ => rfl).bind fun _ => ?_
  split
  · exact aloof_throwAt _
  · exact aloof_pure _

theorem aloof_toNumber (c : Option CellId) (t : Opcode) : Aloof (toNumber c t) := by
  refine (aloof_valueOf c).bind fun v => aloof_ite ?_ ((aloof_warn _).bind fun _ => aloof_pure _)
  dsimp only
  split
  · exact (aloof_warn _).bind fun _ => aloof_pure _
  · exact aloof_pure _

theorem aloof_toInt (c : Option CellId) (t : Opcode) : Aloof (toInt c t) :=
  (aloof_toNumber c t).bind fun _ => aloof_pure _

theorem aloof_toText (c : Option CellId) (t : Opcode) : Aloof (toText c t) := by
  refine (aloof_valueOf c).bind fun v => ?_
  dsimp only
  split
  · exact (aloof_warn _).bind fun _ => aloof_pure _
  · exact aloof_pure _

theorem aloof_mapM {γ : Type} {f : γ → Exec α} (hf : ∀ x, Aloof (f x)) (xs : List γ) : Aloof (xs.mapM f) := by
  induction xs with
  | nil => exact aloof_pure _
  | cons x xs ih =>
    rw [List.mapM_cons]
    exact (hf x).bind fun _ => ih.bind fun _ => aloof_pure _

theorem aloof_vivify (c : Option CellId) (p : Priv) : Aloof (vivify c p) := by
  refine (aloof_valueOf c).bind fun v => aloof_ite (aloof_pure _) ?_
  refine (aloof_cellOf c).bind fun q => aloof_ite (aloof_throwAt _) (aloof_ite ?_ ?_)
  · exact (aloof_onHeap _).bind fun _ => aloof_store _ _
  · exact (aloof_onHeap _).bind fun _ => aloof_store _ _

end Aloof

/-- How two computations end: both with the same answer, or both with the same failure. -/
def Agree (Q : α → Machine → Machine → Prop) :
    EStateM.Result Failure Machine α → EStateM.Result Failure Machine α → Prop
  | .ok u m, .ok v m' => v = u ∧ Q u m m'
  | .error e m, .error e' m' => e' = e ∧ m'.offStack = m.offStack
  | _, _ => False

/-- One computation on two machines. -/
def Tandem (P : Machine → Machine → Prop) (x : Exec α) (Q : α → Machine → Machine → Prop) : Prop :=
  ∀ m m', P m m' → Agree Q (x m) (x m')

section Tandem

variable {P : Machine → Machine → Prop} {x : Exec α}

theorem Tandem.bind {f : α → Exec β} {Q : α → Machine → Machine → Prop} {S : β → Machine → Machine → Prop}
    (hx : Tandem P x Q) (hf : ∀ v, Tandem (Q v) (f v) S) : Tandem P (x >>= f) S := by
  intro m m' hm
  have h := hx m m' hm
  change Agree S (EStateM.bind x f m) (EStateM.bind x f m')
  unfold EStateM.bind
  revert h
  cases x m with
  | ok u n =>
    cases x m' with
    | ok v n' =>
      rintro ⟨rfl, hq⟩
      exact hf v n n' hq
    | error e n' => exact False.elim
  | error e n =>
    cases x m' with
    | ok v n' => exact False.elim
    | error e' n' => exact id

theorem Tandem.post {Q S : α → Machine → Machine → Prop} (hx : Tandem P x Q)
    (h : ∀ v m m', Q v m m' → S v m m') : Tandem P x S := by
  intro m m' hm
  have hend := hx m m' hm
  revert hend
  cases x m <;> cases x m'
  · exact fun hend => ⟨hend.1, h _ _ _ hend.2⟩
  · exact id
  · exact id
  · exact id

theorem tandem_pure {v : α} {Q : α → Machine → Machine → Prop} (h : ∀ m m', P m m' → Q v m m') :
    Tandem P (pure v) Q := fun m m' hm => ⟨rfl, h m m' hm⟩

theorem tandem_throw {e : Failure} {Q : α → Machine → Machine → Prop}
    (h : ∀ m m', P m m' → m'.offStack = m.offStack) : Tandem P (throw e : Exec α) Q :=
  fun m m' hm => ⟨rfl, h m m' hm⟩

theorem Tandem.within {Q : α → Machine → Machine → Prop} {R : Machine → Machine → Prop} {S : Machine → Prop}
    (hx : Tandem P x Q) (hw : Within R x) (hR : ∀ m n, R m n → S m → S n) :
    Tandem (fun m m' => P m m' ∧ S m) x fun v m m' => Q v m m' ∧ S m := by
  rintro m m' ⟨hm, hs⟩
  have hend := hx m m' hm
  have hkept := hw m
  revert hend hkept
  unfold after
  cases x m <;> cases x m'
  · exact fun hend hkept => ⟨hend.1, hend.2, hR _ _ hkept hs⟩
  · exact fun hend _ => hend
  · exact fun hend _ => hend
  · exact fun hend _ => hend

end Tandem

end Exec

end OpTree
