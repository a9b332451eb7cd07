import OpTree.Proofs.Tandem
import OpTree.Proofs.Rerouting

/-!
# Runs in lockstep

A unit and what the optimizer has made of it, run on two machines. Where the links of one are traced in the other,
every op that the second run executes is matched by an op of the first one or by several.
-/

namespace OpTree

set_option autoImplicit false

namespace Exec

open Machine

/-- Executes up to so many ops. The answer tells whether the run is over. -/
def upTo (C : Code) : Nat → Option RecId → Exec Bool
  | _, none => pure true
  | 0, some _ => pure false
  | fuel + 1, some r => do
    modify fun m => { m with steps := m.steps + 1 }
    let next ← step C.names? (C.node r)
    upTo C fuel next

/-- The second unit has come as far with `s` ops as the first one with some more, or with one less. -/
def Twin (A B : Code) (s : Nat) (y? : Option RecId) (m : Machine) (z? : Option RecId) (m' : Machine) : Prop :=
  ∃ n, s ≤ n + 1 ∧ Agree (fun _ m m' => m'.offStack = m.offStack) (upTo A n y? m) (upTo B s z? m')

abbrev Spot := RecId → Machine → RecId → Machine → Prop

/-- Runs of up to `s` ops from such spots on are alike. -/
def Safe (A B : Code) (Q : Spot) (s : Nat) : Prop :=
  ∀ y m z m', Q y m z m' → Twin A B s (some y) m (some z) m'

/-- Runs from the first spots on come to the second ones. -/
def Carries (A B : Code) (P Q : Spot) : Prop := ∀ s, (∀ s' ≤ s, Safe A B Q s') → Safe A B P s

/-- The same, with an op or more of the second run on the way. -/
def Paces (A B : Code) (P Q : Spot) : Prop := ∀ s, (∀ s' < s, Safe A B Q s') → Safe A B P s

def Either (P Q : Spot) : Spot := fun y m z m' => P y m z m' ∨ Q y m z m'

section Carries

variable {A B : Code} {P Q R : Spot}

theorem Carries.refl (P : Spot) : Carries A B P P := fun s h => h s (Nat.le_refl s)

theorem Carries.trans (h : Carries A B P Q) (h' : Carries A B Q R) : Carries A B P R := by
  intro s hs
  apply h s
  intro s' hle
  exact h' s' fun s'' hle' => hs s'' (Nat.le_trans hle' hle)

theorem Carries.mono {P' Q' : Spot} (h : Carries A B P Q) (hP : ∀ y m z m', P' y m z m' → P y m z m')
    (hQ : ∀ y m z m', Q y m z m' → Q' y m z m') : Carries A B P' Q' := by
  intro s hs y m z m' hp
  refine h s (fun s' hle y m z m' hq => ?_) y m z m' (hP y m z m' hp)
  exact hs s' hle y m z m' (hQ y m z m' hq)

theorem Carries.pre {P' : Spot} (h : Carries A B P Q) (hP : ∀ y m z m', P' y m z m' → P y m z m') : Carries A B P' Q :=
  h.mono hP fun _ _ _ _ hq => hq

theorem Carries.post {Q' : Spot} (h : Carries A B P Q) (hQ : ∀ y m z m', Q y m z m' → Q' y m z m') : Carries A B P Q' :=
  h.mono (fun _ _ _ _ hp => hp) hQ

theorem carries_exists {ι : Sort _} {P : ι → Spot} (h : ∀ i, Carries A B (P i) Q) :
    Carries A B (fun y m z m' => ∃ i, P i y m z m') Q := by
  rintro s hs y m z m' ⟨i, hp⟩
  exact h i s hs y m z m' hp

theorem Carries.either {Q' : Spot} (h : Carries A B P (Either Q Q')) (hq : Carries A B Q R)
    (hq' : Carries A B Q' R) : Carries A B P R := by
  intro s hs
  apply h s
  rintro s' hle y m z m' (hp | hp)
  · exact hq s' (fun s'' hle' => hs s'' (Nat.le_trans hle' hle)) y m z m' hp
  · exact hq' s' (fun s'' hle' => hs s'' (Nat.le_trans hle' hle)) y m z m' hp

theorem Paces.carries (h : Paces A B P Q) : Carries A B P Q := by
  intro s hs
  apply h s
  intro s' hlt
  exact hs s' (Nat.le_of_lt hlt)

/-- Rounds of a test and a body. The second run takes an op for each of them, so they come to an end. -/
theorem carries_rounds {Q' : Spot} (htest : Paces A B P Q) (hbranch : Carries A B Q (Either R Q')) (hbody : Carries A B Q' P) :
    Carries A B P R := by
  intro s
  induction s using Nat.strong_induction_on with
  | h s ih =>
    intro hs
    apply htest s
    intro s₁ hlt
    apply hbranch s₁
    rintro s₂ hle y m z m' (hr | hq)
    · exact hs s₂ (by omega) y m z m' hr
    · refine hbody s₂ (fun s₃ hle' => ?_) y m z m' hq
      exact ih s₃ (by omega) fun s₄ hle'' => hs s₄ (by omega)

end Carries

def ticked (m : Machine) : Machine := { m with steps := m.steps + 1 }

section Steps

variable {A B : Code} {s : Nat} {y z : RecId} {m m' n : Machine} {r : Option RecId}

theorem upTo_tick (C : Code) (s : Nat) (y : RecId) (m : Machine) :
    upTo C (s + 1) (some y) m = (step C.names? (C.node y) >>= upTo C s) (ticked m) := rfl

theorem twin_zero (h : m'.offStack = m.offStack) : Twin A B 0 (some y) m (some z) m' := ⟨0, Nat.zero_le _, rfl, h⟩

theorem twin_left (hok : step A.names? (A.node y) (ticked m) = .ok r n) {z? : Option RecId} (h : Twin A B s r n z? m') :
    Twin A B s (some y) m z? m' := by
  obtain ⟨k, hk, hagree⟩ := h
  refine ⟨k + 1, by omega, ?_⟩
  rw [upTo_tick, bind_of_ok hok]
  exact hagree

theorem twin_ok {r r' : Option RecId} {n' : Machine} (hok : step A.names? (A.node y) (ticked m) = .ok r n)
    (hok' : step B.names? (B.node z) (ticked m') = .ok r' n') (h : Twin A B s r n r' n') :
    Twin A B (s + 1) (some y) m (some z) m' := by
  obtain ⟨k, hk, hagree⟩ := h
  refine ⟨k + 1, by omega, ?_⟩
  rw [upTo_tick, upTo_tick, bind_of_ok hok, bind_of_ok hok']
  exact hagree

theorem twin_error {e : Failure} {n' : Machine} (hfail : step A.names? (A.node y) (ticked m) = .error e n)
    (hfail' : step B.names? (B.node z) (ticked m') = .error e n') (h : n'.offStack = n.offStack) :
    Twin A B (s + 1) (some y) m (some z) m' := by
  refine ⟨s + 1, by omega, ?_⟩
  rw [upTo_tick, upTo_tick, bind_of_error hfail, bind_of_error hfail']
  exact ⟨rfl, h⟩

theorem map_apply {α β : Type} (v : β) (x : Exec α) (m : Machine) : ((fun _ => v) <$> x) m = match x m with
    | .ok _ n => .ok v n
    | .error e n => .error e n := by
  change EStateM.map _ x m = _
  unfold EStateM.map
  cases x m <;> rfl

section Same

variable {α : Type} {x : Exec α} {r' : Option RecId} {P Q : Machine → Machine → Prop}

theorem steps_same (ha : step A.names? (A.node y) = (fun _ => r) <$> x) (hb : step B.names? (B.node z) = (fun _ => r') <$> x)
    (hx : Tandem P x fun _ => Q) (hp : P m m') :
    (∃ n n', step A.names? (A.node y) m = .ok r n ∧ step B.names? (B.node z) m' = .ok r' n' ∧ Q n n') ∨
      ∃ e n n', step A.names? (A.node y) m = .error e n ∧ step B.names? (B.node z) m' = .error e n' ∧
        n'.offStack = n.offStack := by
  have hend := hx _ _ hp
  have hleft : step A.names? (A.node y) m = _ := (congrFun ha _).trans (map_apply r x _)
  have hright : step B.names? (B.node z) m' = _ := (congrFun hb _).trans (map_apply r' x _)
  revert hend hleft hright
  cases x m with
  | ok u n =>
    cases x m' with
    | ok v n' => exact fun hend hleft hright => Or.inl ⟨n, n', hleft, hright, hend.2⟩
    | error e n' => exact fun hend => hend.elim
  | error e n =>
    cases x m' with
    | ok v n' => exact fun hend => hend.elim
    | error e' n' =>
      rintro ⟨rfl, hoff⟩ hleft hright
      exact Or.inr ⟨e', n, n', hleft, hright, hoff⟩

theorem twin_same (ha : step A.names? (A.node y) = (fun _ => r) <$> x) (hb : step B.names? (B.node z) = (fun _ => r') <$> x)
    (hx : Tandem P x fun _ => Q) (hp : P (ticked m) (ticked m'))
    (h : ∀ n n', Q n n' → Twin A B s r n r' n') : Twin A B (s + 1) (some y) m (some z) m' := by
  rcases steps_same ha hb hx hp with ⟨n, n', hleft, hright, hq⟩ | ⟨e, n, n', hleft, hright, hoff⟩
  · exact twin_ok hleft hright (h n n' hq)
  · exact twin_error hleft hright hoff

theorem agree_same {R : Bool → Machine → Machine → Prop} (ha : step A.names? (A.node y) = (fun _ => r) <$> x)
    (hb : step B.names? (B.node z) = (fun _ => r') <$> x)
    (hx : Tandem P x fun _ => Q) (hp : P (ticked m) (ticked m'))
    (h : ∀ n n', Q n n' → Agree R (upTo A s r n) (upTo B s r' n')) :
    Agree R (upTo A (s + 1) (some y) m) (upTo B (s + 1) (some z) m') := by
  rw [upTo_tick, upTo_tick]
  rcases steps_same ha hb hx hp with ⟨n, n', hleft, hright, hq⟩ | ⟨e, n, n', hleft, hright, hoff⟩
  · rw [bind_of_ok hleft, bind_of_ok hright]
    exact h n n' hq
  · rw [bind_of_error hleft, bind_of_error hright]
    exact ⟨rfl, hoff⟩

end Same

end Steps

end Exec

namespace Peep

open Arena Opcode Machine Exec

variable {S : Course} {root start : RecId} {a b : Arena} {ps : PeepState} {k : Option Opcode} {y z : RecId}
  {P Q : Machine → Machine → Prop} {names? : Option Pad}

/-- The first run is at `y`, and the second one at an op that control may come to instead. -/
def At (a b : Arena) (k : Option Opcode) (y : RecId) (P : Machine → Machine → Prop) : Spot :=
  fun y' m z m' => y' = y ∧ Slide a b k y z ∧ P m m'

def Near (a b : Arena) (y : RecId) (P : Machine → Machine → Prop) : Spot := fun y' m z m' => ∃ k, At a b k y P y' m z m'

theorem At.near {y' z' : RecId} {m m' : Machine} (h : At a b k y P y' m z' m') : Near a b y P y' m z' m' := ⟨k, h⟩

theorem Near.mono {y' z' : RecId} {m m' : Machine} (h : Near a b y P y' m z' m') (hP : ∀ m m', P m m' → Q m m') :
    Near a b y Q y' m z' m' :=
  h.imp fun _ hk => ⟨hk.1, hk.2.1, hP _ _ hk.2.2⟩

/-- The machines differ in their stacks only, and the count of steps does not matter. -/
structure Timeless (P : Machine → Machine → Prop) : Prop where
  off : ∀ m m', P m m' → m'.offStack = m.offStack
  tick : ∀ m m', P m m' → P (ticked m) (ticked m')
  left : ∀ m m', P m m' → P (ticked m) m'

/-- An op that is as it was, and that control is not led past. -/
structure Stays (a b : Arena) (y : RecId) : Prop where
  plain : (b.node y).plain = (a.node y).plain
  stays : ∀ k z, Slide a b k y z → z = y
  short : (b.node y).code ∉ short
  absorbed : ∀ l, ¬ Absorbs a b y l

theorem Traced.stays (h : Traced S a root start ps b) (hidle : ¬ Idle a b y) (habs : ∀ l, ¬ Absorbs a b y l)
    (hs : (a.node y).code ∉ Opcode.short) : Stays a b y := by
  have hplain : (b.node y).plain = (a.node y).plain := by
    cases h.fate y with
    | plain hp => exact hp
    | turned q hq => exact absurd hq.opposite.short hs
    | absorbed l hl => exact absurd hl (habs l)
    | fallen pm ret hf hr => exact absurd (Or.inr ⟨pm, ret, hf, hr⟩) hidle
  have hshort : (b.node y).code ∉ Opcode.short := by
    rw [← Node.plain_code, hplain, Node.plain_code]
    exact hs
  have hgate : ∀ l, Gate a b y l → l = y := by
    intro l hg
    cases hg with
    | self => rfl
    | taken hl => exact absurd hl (habs l)
  refine ⟨hplain, fun k z hslide => ?_, hshort, habs⟩
  cases hslide with
  | stop hg => exact hgate z hg
  | pass hx => exact absurd hx hidle
  | keep hg _ hl =>
    obtain rfl := hgate _ hg
    exact absurd hl hshort
  | drop hg _ ho =>
    obtain rfl := hgate _ hg
    exact absurd ho.symm.short hshort

theorem Stays.step (hk : Stays a b y) (hb : (a.node y).code.branches = false) (hr : (a.node y).code ≠ .ret) :
    step names? (b.node y) = (fun _ => (b.node y).next) <$> step names? (a.node y).plain := by
  have hcode : (b.node y).code = (a.node y).code := by rw [← Node.plain_code, hk.plain, Node.plain_code]
  rw [← hk.plain]
  exact step_of_not_branches names? _ (hcode ▸ hb) (hcode ▸ hr)

theorem step_transparent {o : Node} (ho : o.transparent = true) (m : Machine) : step names? o m = .ok o.next m := by
  have hstep : step names? o = pure o.next := by
    unfold Node.transparent at ho
    unfold step
    split at ho <;> simp_all
  rw [hstep]
  rfl

section Ops

variable (h : Traced S a root start ps b)

include h

theorem Traced.next_stays {y' : RecId} (hy : Road S a root y) (hk : Stays a b y) (hn : (a.node y).next = some y') :
    ∃ z', (b.node y).next = some z' ∧ Slide a b none y' z' := by
  have hrel := h.next y hy hk.absorbed
  rw [hn, node_known_none hk.short] at hrel
  generalize (b.node y).next = z at hrel
  cases hrel with
  | some hslide => exact ⟨_, rfl, hslide⟩

theorem Traced.paces_stays {y' : RecId} (hy : Road S a root y) (hk : Stays a b y)
    (hb : (a.node y).code.branches = false) (hr : (a.node y).code ≠ .ret) (hn : (a.node y).next = some y') (hP : Timeless P)
    (hx : Tandem P (step names? (a.node y).plain) fun _ => Q) :
    Paces (a.code names?) (b.code names?) (Near a b y P) (At a b none y' Q) := by
  rintro s hs y₀ m z m' ⟨k, rfl, hslide, hp⟩
  cases s with
  | zero => exact twin_zero (hP.off m m' hp)
  | succ s =>
    obtain rfl := hk.stays k z hslide
    obtain ⟨z', hz', hslide'⟩ := h.next_stays hy hk hn
    refine twin_same (step_of_not_branches names? _ hb hr) (hk.step hb hr) hx (hP.tick m m' hp) fun n n' hq => ?_
    rw [node_code, hn, hz']
    exact hs s (Nat.lt_succ_self s) y' n z' n' ⟨rfl, hslide', hq⟩

theorem Traced.carries_stays {y' : RecId} (hy : Road S a root y) (hk : Stays a b y)
    (hb : (a.node y).code.branches = false) (hr : (a.node y).code ≠ .ret) (hn : (a.node y).next = some y') (hP : Timeless P)
    (hx : Tandem P (step names? (a.node y).plain) fun _ => Q) :
    Carries (a.code names?) (b.code names?) (Near a b y P) (At a b none y' Q) :=
  (h.paces_stays hy hk hb hr hn hP hx).carries

theorem Traced.transparent_of (ht : (a.node y).transparent = true) :
    (b.node y).transparent = true ∧ (b.node y).code ∉ Opcode.short ∧ ∀ l, ¬ Absorbs a b y l := by
  have hcode : ∀ {t : Opcode}, (a.node y).code = t → Node.transparent { code := t } = true := fun hc => by
    rwa [Node.transparent, hc] at ht
  have hsame : (b.node y).code = (a.node y).code ∧ ∀ l, ¬ Absorbs a b y l := by
    have habs : ∀ l, ¬ Absorbs a b y l := fun l hl => by
      have hno := hcode hl.code
      cases hno
    refine ⟨?_, habs⟩
    cases h.fate y with
    | plain hp => rw [← Node.plain_code, hp, Node.plain_code]
    | turned q hq =>
      have hs := hq.opposite.short
      simp only [Opcode.short, List.mem_cons, List.not_mem_nil, or_false] at hs
      rcases hs with hs | hs | hs <;> exact absurd (hcode hs) (by decide)
    | absorbed l hl => exact absurd hl (habs l)
    | fallen pm ret hf hr =>
      rcases hr with rfl | rfl
      · exact absurd (hcode (hf.code)) (by decide)
      · exact absurd (hcode (tailReturnOf_some hf.tail).1) (by decide)
  refine ⟨by rwa [Node.transparent, hsame.1], fun hs => ?_, hsame.2⟩
  simp only [Opcode.short, List.mem_cons, List.not_mem_nil, or_false] at hs
  rcases hs with hs | hs | hs <;> exact absurd (hcode (hsame.1.symm.trans hs)) (by decide)

/-- Control that has come to an op that does nothing now is still there or is past it. -/
theorem Traced.slide_idle {y' : RecId} (hy : Road S a root y) (hidle : Idle a b y) (hn : (a.node y).next = some y')
    (hslide : Slide a b k y z) :
    z = y ∧ (b.node y).transparent = true ∧ (∃ z', (b.node y).next = some z' ∧ Slide a b none y' z') ∨ Slide a b k y' z := by
  have hb : (b.node y).transparent = true ∧ (b.node y).code ∉ Opcode.short ∧ ∀ l, ¬ Absorbs a b y l := by
    rcases hidle with ht | ⟨pm, ret, hf, hr⟩
    · exact h.transparent_of ht
    · have hnull : (b.node y).code = .null ∧ (a.node y).code ≠ .not := by
        rcases hr with rfl | rfl
        · exact ⟨hf.mark, hf.code ▸ by decide⟩
        · exact ⟨hf.null, (tailReturnOf_some hf.tail).1 ▸ by decide⟩
      refine ⟨by rw [Node.transparent, hnull.1], by rw [hnull.1]; decide, fun l hl => hnull.2 hl.code⟩
  obtain ⟨htb, hshort, habs⟩ := hb
  have hgate : ∀ l, Gate a b y l → l = y := by
    intro l hg
    cases hg with
    | self => rfl
    | taken hl => exact absurd hl (habs l)
  cases hslide with
  | stop hg =>
    obtain rfl := hgate z hg
    have hrel := h.next z hy habs
    rw [hn, node_known_none hshort] at hrel
    generalize hz : (b.node z).next = z' at hrel
    cases hrel with
    | @some _ z' hslide' => exact Or.inl ⟨rfl, htb, z', rfl, hslide'⟩
  | pass _ hn' hslide' =>
    obtain rfl := Option.some.inj (hn.symm.trans hn')
    exact Or.inr hslide'
  | keep hg _ hl =>
    obtain rfl := hgate _ hg
    exact absurd hl hshort
  | drop hg _ ho =>
    obtain rfl := hgate _ hg
    exact absurd ho.symm.short hshort

/-- The first run executes an op that does nothing now, and the second one executes it or is past it. -/
theorem Traced.twin_idle {y' : RecId} {r : Option RecId} {s : Nat} {m m' n : Machine} (hy : Road S a root y)
    (hidle : Idle a b y) (hn : (a.node y).next = some y') (hslide : Slide a b k y z) (hoff : m'.offStack = m.offStack)
    (hleft : step names? (a.node y) (ticked m) = .ok r n)
    (hrest : ∀ s' ≤ s, ∀ z' n', Slide a b k y' z' → n' = m' ∨ n' = ticked m' →
      Twin (a.code names?) (b.code names?) s' r n (some z') n') :
    Twin (a.code names?) (b.code names?) s (some y) m (some z) m' := by
  rcases h.slide_idle hy hidle hn hslide with ⟨rfl, htb, z', hz', hslide'⟩ | hslide'
  · cases s with
    | zero => exact twin_zero hoff
    | succ s =>
      have hright : step names? (b.node z) (ticked m') = _ := step_transparent htb (ticked m')
      rw [hz'] at hright
      exact twin_ok (A := a.code names?) (B := b.code names?) hleft hright
        (hrest s (Nat.le_succ s) z' _ hslide'.weaken (Or.inr rfl))
  · exact twin_left hleft (hrest s (Nat.le_refl s) z _ hslide' (Or.inl rfl))

theorem Traced.carries_transparent {y' : RecId} (hy : Road S a root y)
    (ht : (a.node y).transparent = true) (hn : (a.node y).next = some y') (hP : Timeless P) :
    Carries (a.code names?) (b.code names?) (At a b k y P) (At a b k y' P) := by
  rintro s hs y₀ m z m' ⟨rfl, hslide, hp⟩
  have hleft : step names? (a.node y₀) (ticked m) = .ok (some y') (ticked m) := by
    rw [← hn]
    exact step_transparent ht _
  refine h.twin_idle hy (Or.inl ht) hn hslide (hP.off m m' hp) hleft fun s' hle z' n' hslide' hn' => ?_
  refine hs s' hle y' _ z' n' ⟨rfl, hslide', ?_⟩
  rcases hn' with rfl | rfl
  · exact hP.left m n' hp
  · exact hP.tick m m' hp

end Ops

end Peep

/-- Does a short-circuit op of the code keep a value, and go on. -/
def Opcode.keeps : Opcode → Value → Bool
  | .and => fun v => !v.truth
  | .or => Value.truth
  | .dor => Value.defined
  | _ => fun _ => false

theorem Opcode.Opposite.keeps {t t' : Opcode} (h : Opposite t t') (v : Value) : t'.keeps v = !t.keeps v := by
  rcases h with ⟨rfl, rfl⟩ | ⟨rfl, rfl⟩ <;> simp [Opcode.keeps]

theorem Opcode.Opposite.keeps_not {t t' : Opcode} (h : Opposite t t') (v : Value) :
    t.keeps (.bool !v.truth) = t'.keeps v := by
  rcases h with ⟨rfl, rfl⟩ | ⟨rfl, rfl⟩ <;> simp [Opcode.keeps, Value.truth]

namespace Machine

/-- The machines differ in their stacks only, with a frame that is steady. -/
def Pose (root : RecId) (F : Floor) (d : Nat) (xs : List Item) (m m' : Machine) : Prop :=
  Abreast F xs m m' ∧ m.Steady root d

/-- Nothing is marked, and whatever lies on the stacks is not needed any more. -/
def Loose (root : RecId) (d : Nat) (m m' : Machine) : Prop :=
  ∃ F xs, F.marks = [] ∧ F.marks' = [] ∧ Pose root F d xs m m'

/-- The second stack has an item more above what lies below both of them. -/
def Floor.above (F : Floor) (xs : List Item) (x : Item) : Floor :=
  { F with items := F.items ++ xs, items' := F.items' ++ (xs ++ [x]) }

end Machine

namespace Exec

open Machine

variable {root : RecId} {F : Floor} {d : Nat} {xs : List Item} {m m' n n' : Machine} {names? : Option Pad} {o : Node}

theorem step_short (ho : o.code ∈ Opcode.short) : step names? o = shortCircuit o o.code.keeps := by
  simp only [Opcode.short, List.mem_cons, List.not_mem_nil, or_false] at ho
  unfold step
  rcases ho with h | h | h <;> simp only [h, Opcode.keeps]

end Exec

namespace Machine

variable {root : RecId} {F : Floor} {d : Nat} {xs : List Item} {m m' n n' : Machine} {c : Option CellId}

theorem Abreast.value_eq (h : Abreast F xs m m') : m'.value c = m.value c := value_of_offStack h.off c

theorem Steady.of_offStack (h : m.Steady root d) (ho : n.offStack = m.offStack) : n.Steady root d := by
  have hn := heap_of_offStack ho
  have hloops : n.loops = m.loops := (congrArg Machine.loops ho :)
  exact ⟨fun l hl => h.level l (hloops ▸ hl), (congrArg List.length hloops).trans h.depth,
    (congrArg Machine.leave ho :).trans h.leave, by rw [hn]; exact h.yes, by rw [hn]; exact h.no⟩

theorem Steady.value_ofBool (h : m.Steady root d) (b : Bool) : m.value (some (ofBool b)) = .bool b := by
  cases b with
  | true => exact congrArg Cell.value h.yes
  | false => exact congrArg Cell.value h.no

theorem Pose.move {G : Floor} {ys : List Item} (h : Pose root F d xs m m') (hm : n.offStack = m.offStack)
    (hm' : n'.offStack = m'.offStack) (hl : n.Has ⟨G.items ++ ys, G.marks⟩) (hr : n'.Has ⟨G.items' ++ ys, G.marks'⟩) :
    Pose root G d ys n n' :=
  ⟨⟨hl, hr, hm'.trans (h.1.off.trans hm.symm)⟩, h.2.of_offStack hm⟩

theorem Has.ticked {l : Layout} (h : m.Has l) : (Exec.ticked m).Has l := ⟨h.room, h.stack, h.marks⟩

end Machine

namespace Peep

open Machine Exec

variable {root : RecId} {F : Floor} {d : Nat} {xs : List Item}

theorem timeless_pose : Timeless (Pose root F d xs) where
  off _ _ h := h.1.off
  tick _ _ h := h.move rfl rfl h.1.left.ticked h.1.right.ticked
  left _ _ h := h.move rfl rfl h.1.left.ticked h.1.right

theorem timeless_loose : Timeless (Loose root d) where
  off _ _ := by
    rintro ⟨F, xs, -, -, h⟩
    exact h.1.off
  tick _ _ := by
    rintro ⟨F, xs, hm, hm', h⟩
    exact ⟨F, xs, hm, hm', timeless_pose.tick _ _ h⟩
  left _ _ := by
    rintro ⟨F, xs, hm, hm', h⟩
    exact ⟨F, xs, hm, hm', timeless_pose.left _ _ h⟩

end Peep

end OpTree
