import OpTree.Proofs.Lockstep

/-!
# Branching in lockstep

What a short-circuit op knows of the value on top tells which way the next one goes. So where the second run has been
led past ops that decide again, the first one comes to the same place.
-/

namespace OpTree

set_option autoImplicit false

namespace Peep

open Arena Opcode Machine Exec

theorem step_not {o : Node} {m : Machine} {ys : List Item} {ks : List Nat} {c : Option CellId} {names? : Option Pad}
    (ho : o.code = .not) (h : m.Has ⟨ys ++ [.scalar c], ks⟩) : ∃ n, step names? o m = .ok o.next n ∧
      n.offStack = m.offStack ∧ n.Has ⟨ys ++ [.scalar (some (ofBool !(m.value c).truth))], ks⟩ := by
  obtain ⟨n, hok, hoff, hhas⟩ := logicalNot_has h
  refine ⟨n, ?_, hoff, hhas⟩
  unfold step
  simp only [ho]
  rw [bind_of_ok hok]
  rfl

variable {S : Course} {root start : RecId} {a b : Arena} {ps : PeepState} {k : Option Opcode} {names? : Option Pad}
  {F : Floor} {d : Nat} {xs : List Item} {l n w r : RecId}

/-- The first run is at `y` with a scalar on top that all ops of the code keep which the second run has been led past. -/
def Known (root : RecId) (a b : Arena) (y : RecId) (F : Floor) (d : Nat) (xs : List Item) : Spot := fun y' m z m' =>
  ∃ k c, At a b k y (fun m m' => Pose root F d (xs ++ [.scalar c]) m m' ∧ ∀ t, k = some t → t.keeps (m.value c) = true)
    y' m z m'

theorem known_of_topped {y z : RecId} {m m' : Machine} (hs : Slide a b none y z) (h : Topped F xs m m')
    (hd : m.Steady root d) : Known root a b y F d xs y m z m' := by
  obtain ⟨c, hc⟩ := h
  refine ⟨none, c, rfl, hs, ⟨hc, hd⟩, ?_⟩
  rintro _ ⟨⟩

theorem Known.near {y y' z : RecId} {m m' : Machine} (h : Known root a b y F d xs y' m z m') :
    Near a b y (fun m m' => ∃ c, Pose root F d (xs ++ [.scalar c]) m m') y' m z m' := by
  obtain ⟨k, c, hy, hs, hp, -⟩ := h
  exact ⟨k, hy, hs, c, hp⟩

/-- The branch is taken with the value dropped, or with the value left where it is not looked for any more. -/
def Dropped (root : RecId) (a : Arena) (l : RecId) (F : Floor) (d : Nat) (xs : List Item) (m m' : Machine) : Prop :=
  Pose root F d xs m m' ∨ (a.node l).want = .void ∧ ∃ c, Pose root (F.above xs (.scalar c)) d [] m m'

section Short

variable (h : Traced S a root start ps b) (hl : Road S a root l)
  (hs : (a.node l).code ∈ short) (hn : (a.node l).next = some n) (ho : (a.node l).other = some w)

include h hl hs hn ho

omit hs in
theorem Traced.links_short (hb : (b.node l).code ∈ short) : ∃ n' w', (b.node l).next = some n' ∧ (b.node l).other = some w' ∧
    Slide a b (some (b.node l).code) n n' ∧ Slide a b none w w' := by
  have hnull : (b.node l).code ≠ .null := fun hc => absurd (hc ▸ hb) (by decide)
  have hnext := h.next l hl fun _ => not_absorbed hnull
  have hother := h.other l hl
  rw [hn] at hnext
  rw [ho] at hother
  generalize (b.node l).next = n' at hnext
  generalize (b.node l).other = w' at hother
  cases hnext with
  | @some _ n' hslide =>
    cases hother with
    | @some _ w' hslide' =>
      refine ⟨n', w', rfl, rfl, ?_, hslide'⟩
      unfold Node.known at hslide
      split at hslide
      · exact hslide
      · exact hslide.weaken

theorem Traced.carries_short (hb : (b.node l).plain = (a.node l).plain) :
    Carries (a.code names?) (b.code names?) (Known root a b l F d xs)
      (Either (Known root a b n F d xs) (Near a b w (Dropped root a l F d xs))) := by
  have hcode : (b.node l).code = (a.node l).code := by rw [← Node.plain_code, hb, Node.plain_code]
  have hbs : (b.node l).code ∈ short := hcode ▸ hs
  obtain ⟨n', w', hn', ho', hsn, hsw⟩ := h.links_short hl hn ho hbs
  have habs : ∀ q, ¬ Absorbs a b l q := fun q hq => absurd (hq.null ▸ hbs) (by decide)
  have htaken : ∀ q, ¬ Absorbs a b q l := fun q hq => hq.opposite.ne hcode.symm
  have hgate : ∀ q, Gate a b l q → l = q := by
    intro q hg
    cases hg with
    | self => rfl
    | taken hq => exact absurd hq (habs q)
  have hidle : ¬ Idle a b l := by
    rintro (ht | ⟨pm, ret, hf, rfl | rfl⟩)
    · have hno := (h.transparent_of ht).2.1
      exact hno hbs
    · exact absurd (hf.mark ▸ hbs) (by decide)
    · exact absurd (hf.null ▸ hbs) (by decide)
  have hstep : ∀ {m m' : Machine} {c : Option CellId}, Pose root F d (xs ++ [.scalar c]) m m' → ∃ n₁,
      step names? (a.node l) (ticked m) = .ok (if (a.node l).code.keeps (m.value c) then some n else some w) n₁ ∧
      n₁.offStack = m.offStack ∧
      n₁.Has ⟨F.items ++ (if (a.node l).code.keeps (m.value c) then xs ++ [.scalar c] else xs), F.marks⟩ := by
    intro m m' c hp
    have hleft := hp.1.left.ticked
    rw [← List.append_assoc] at hleft
    obtain ⟨n₁, hok, hoff, hhas⟩ := shortCircuit_has (o := a.node l) (a.node l).code.keeps hleft
    refine ⟨n₁, ?_, hoff, ?_⟩
    · rw [step_short hs, hok, hn, ho]
      rfl
    · change n₁.Has ⟨if (a.node l).code.keeps (m.value c) then F.items ++ xs ++ [.scalar c] else F.items ++ xs, F.marks⟩ at hhas
      split
      · rename_i hk
        rw [if_pos hk, List.append_assoc] at hhas
        exact hhas
      · rename_i hk
        rwa [if_neg hk] at hhas
  rintro s hsafe y m z m' ⟨k, c, hy, hslide, hp, hk⟩
  obtain rfl := hy.symm
  obtain ⟨n₁, hok, hoff, hhas⟩ := hstep hp
  cases hslide with
  | stop hg =>
    obtain rfl := hgate z hg
    cases s with
    | zero => exact twin_zero hp.1.off
    | succ s =>
      have hright := hp.1.right.ticked
      rw [← List.append_assoc] at hright
      obtain ⟨n₂, hok', hoff', hhas'⟩ := shortCircuit_has (o := b.node l) (b.node l).code.keeps hright
      have hval : (ticked m').value c = m.value c := hp.1.value_eq
      rw [hval, hn', ho', hcode] at hok'
      rw [hval, hcode] at hhas'
      have hstep' : step names? (b.node l) (ticked m') =
          .ok (if (a.node l).code.keeps (m.value c) then some n' else some w') n₂ := by
        rw [step_short hbs, hcode]
        exact hok'
      refine twin_ok (A := a.code names?) (B := b.code names?) hok hstep' ?_
      split at hhas
      · rename_i hkeep
        rw [if_pos hkeep, List.append_assoc] at hhas'
        rw [if_pos hkeep, if_pos hkeep]
        have hpose : Pose root F d (xs ++ [.scalar c]) n₁ n₂ := hp.move hoff hoff' hhas hhas'
        refine hsafe s (Nat.le_succ s) _ _ _ _ (Or.inl ⟨_, c, rfl, hcode ▸ hsn, hpose, ?_⟩)
        rintro t ⟨⟩
        rw [value_of_offStack hoff]
        exact hkeep
      · rename_i hkeep
        rw [if_neg hkeep] at hhas'
        rw [if_neg hkeep, if_neg hkeep]
        exact hsafe s (Nat.le_succ s) _ _ _ _ (Or.inr ⟨none, rfl, hsw, Or.inl (hp.move hoff hoff' hhas hhas')⟩)
  | pass hx => exact absurd hx hidle
  | keep hg hkl _ hn₂ hslide =>
    obtain rfl := hgate _ hg
    have hkeep := hk _ hkl
    rw [hcode] at hkeep
    rw [if_pos hkeep] at hok hhas
    obtain rfl := Option.some.inj (hn.symm.trans hn₂)
    refine twin_left hok (hsafe s (Nat.le_refl s) _ _ _ _ (Or.inl ⟨k, c, rfl, hslide, ?_, ?_⟩))
    · exact hp.move hoff rfl hhas hp.1.right
    · intro t ht
      rw [value_of_offStack hoff]
      exact hk t ht
  | drop hg hkt hop hw ho₂ hsolid =>
    obtain rfl := hgate _ hg
    have hkeep := hk _ hkt
    have hno : ¬ (a.node l).code.keeps (m.value c) = true := by
      rw [← hcode, hop.keeps, hkeep]
      decide
    rw [if_neg hno] at hok hhas
    obtain rfl := Option.some.inj (ho.symm.trans ho₂)
    refine twin_left hok (hsafe s (Nat.le_refl s) _ _ _ _ (Or.inr ⟨none, rfl, ?_, Or.inr ⟨hw, c, ?_⟩⟩))
    · exact .stop (.self fun q hq => hsolid.not_takes hq)
    · refine hp.move hoff rfl ?_ ?_
      · simpa [Floor.above] using hhas
      · simpa [Floor.above, List.append_assoc] using hp.1.right

end Short

section Absorbed

variable (h : Traced S a root start ps b) (hl : Road S a root l) (hab : Absorbs a b r l)
  (hn : (a.node l).next = some n) (ho : (a.node l).other = some w)

include h hl hab hn ho

/-- Both runs are at the short-circuit op, the first one with the negation of what the second one has on top. -/
theorem Traced.twin_absorbed {s : Nat} {c : Option CellId} {m m' : Machine} (hm : F.marks = []) (hm' : F.marks' = [])
    (hleft : m.Has ⟨F.items ++ (xs ++ [.scalar (some (ofBool !(m.value c).truth))]), F.marks⟩)
    (hright : m'.Has ⟨F.items' ++ (xs ++ [.scalar c]), F.marks'⟩) (hoff : m'.offStack = m.offStack) (hd : m.Steady root d)
    (hs : ∀ s' ≤ s, Safe (a.code names?) (b.code names?) (Either (Near a b n (Loose root d)) (Near a b w (Loose root d))) s') :
    Twin (a.code names?) (b.code names?) s (some l) m (some l) m' := by
  have hsa : (a.node l).code ∈ short := hab.opposite.short
  have hsb : (b.node l).code ∈ short := hab.opposite.symm.short
  obtain ⟨n', w', hn', ho', hsn, hsw⟩ := h.links_short hl hn ho hsb
  cases s with
  | zero => exact twin_zero hoff
  | succ s =>
    have hl₁ := hleft.ticked
    have hr₁ := hright.ticked
    rw [← List.append_assoc] at hl₁ hr₁
    obtain ⟨n₁, hok, hoff₁, hhas⟩ := shortCircuit_has (o := a.node l) (a.node l).code.keeps hl₁
    obtain ⟨n₂, hok', hoff₂, hhas'⟩ := shortCircuit_has (o := b.node l) (b.node l).code.keeps hr₁
    have hval : (ticked m').value c = m.value c := value_of_offStack hoff c
    rw [show (ticked m).value _ = .bool !(m.value c).truth from hd.value_ofBool _, hab.opposite.keeps_not] at hok hhas
    rw [hval] at hok' hhas'
    have hshort : step names? (a.node l) = _ := step_short hsa
    have hshort' : step names? (b.node l) = _ := step_short hsb
    rw [hn, ho, ← hshort] at hok
    rw [hn', ho', ← hshort'] at hok'
    refine twin_ok (A := a.code names?) (B := b.code names?) hok hok' ?_
    have hloose : ∀ {ys ys' : List Item}, n₁.Has ⟨ys, F.marks⟩ → n₂.Has ⟨ys', F.marks'⟩ → Loose root d n₁ n₂ := by
      intro ys ys' hys hys'
      refine ⟨⟨ys, ys', F.marks, F.marks'⟩, [], hm, hm', ⟨?_, ?_, hoff₂.trans (hoff.trans hoff₁.symm)⟩, hd.of_offStack hoff₁⟩
      · rwa [List.append_nil]
      · rwa [List.append_nil]
    split
    · exact hs s (Nat.le_succ s) _ _ _ _ (Or.inl ⟨_, rfl, hsn, hloose hhas hhas'⟩)
    · exact hs s (Nat.le_succ s) _ _ _ _ (Or.inr ⟨_, rfl, hsw, hloose hhas hhas'⟩)

theorem Traced.carries_absorbed (hm : F.marks = []) (hm' : F.marks' = []) :
    Carries (a.code names?) (b.code names?) (Known root a b r F d xs)
      (Either (Near a b n (Loose root d)) (Near a b w (Loose root d))) := by
  have hsa : (a.node l).code ∈ short := hab.opposite.short
  have hidle : ¬ Idle a b r := by
    rintro (ht | ⟨pm, ret, hf, rfl | rfl⟩)
    · exact (h.transparent_of ht).2.2 l hab
    · exact absurd ((hf.code).symm.trans hab.code) (by decide)
    · exact absurd ((tailReturnOf_some hf.tail).1.symm.trans hab.code) (by decide)
  have hgate : ∀ q, Gate a b r q → r = q ∨ l = q := by
    intro q hg
    cases hg with
    | self => exact Or.inl rfl
    | taken hq => exact Or.inr (Option.some.inj (hab.next.symm.trans hq.next))
  rintro s hsafe y m z m' ⟨k, c, hy, hslide, hp, hk⟩
  obtain rfl := hy.symm
  have hleft := hp.1.left.ticked
  rw [← List.append_assoc] at hleft
  obtain ⟨n₁, hok, hoff, hhas⟩ := @step_not _ _ _ _ _ names? hab.code hleft
  rw [hab.next] at hok
  rw [List.append_assoc] at hhas
  have hd₁ : n₁.Steady root d := hp.2.of_offStack hoff
  have hsame : m'.offStack = n₁.offStack := hp.1.off.trans hoff.symm
  have hval : n₁.value c = m.value c := value_of_offStack hoff c
  have htop : n₁.value (some (ofBool !(m.value c).truth)) = .bool !(m.value c).truth := hd₁.value_ofBool _
  rw [show (ticked m).value c = m.value c from rfl] at hhas
  -- The first run executes the short-circuit op, too, where it is the only one to do so.
  have hnext : ∃ n₂, step names? (a.node l) (ticked n₁) =
      .ok (if (b.node l).code.keeps (m.value c) = true then some n else some w) n₂ ∧ n₂.offStack = m.offStack ∧
        ∃ ys, n₂.Has ⟨F.items ++ ys, F.marks⟩ := by
    have hhas₁ := hhas.ticked
    rw [← List.append_assoc] at hhas₁
    obtain ⟨n₂, hok₂, hoff₂, hhas₂⟩ := shortCircuit_has (o := a.node l) (a.node l).code.keeps hhas₁
    rw [show (ticked n₁).value _ = .bool !(m.value c).truth from htop, hab.opposite.keeps_not, hn, ho] at hok₂
    refine ⟨n₂, (congrFun (step_short hsa) _).trans hok₂, hoff₂.trans hoff, ?_⟩
    split at hhas₂
    · exact ⟨_, by rwa [List.append_assoc] at hhas₂⟩
    · exact ⟨_, hhas₂⟩
  have hloose : ∀ {n₂ : Machine}, n₂.offStack = m.offStack → (∃ ys, n₂.Has ⟨F.items ++ ys, F.marks⟩) →
      Loose root d n₂ m' := by
    rintro n₂ hoff₂ ⟨ys, hys⟩
    have hright := hp.1.right
    refine ⟨⟨F.items ++ ys, F.items' ++ (xs ++ [.scalar c]), F.marks, F.marks'⟩, [], hm, hm', ?_⟩
    refine hp.move hoff₂ rfl ?_ ?_
    · rwa [List.append_nil]
    · rwa [List.append_nil]
  have hboth : ∀ {n' : Machine} {s' : Nat}, s' ≤ s → n'.offStack = m'.offStack →
      n'.Has ⟨F.items' ++ (xs ++ [.scalar c]), F.marks'⟩ → Twin (a.code names?) (b.code names?) s' (some l) n₁ (some l) n' := by
    intro n' s' hle hoff' hright
    refine h.twin_absorbed hl hab hn ho hm hm' ?_ hright (hoff'.trans hsame) hd₁ fun s'' hle' => hsafe s'' (hle'.trans hle)
    rwa [hval]
  cases hslide with
  | stop hg =>
    rcases hgate z hg with rfl | rfl
    · cases s with
      | zero => exact twin_zero hp.1.off
      | succ s =>
        have hnull : (b.node r).transparent = true := by rw [Node.transparent, hab.null]
        have hstep : step names? (b.node r) (ticked m') = _ := step_transparent hnull (ticked m')
        rw [(h.absorbed _ _ hab).1] at hstep
        exact twin_ok (A := a.code names?) (B := b.code names?) hok hstep (hboth (Nat.le_succ s) rfl hp.1.right.ticked)
    · exact twin_left hok (hboth (Nat.le_refl s) rfl hp.1.right)
  | pass hx => exact absurd hx hidle
  | keep hg hkl hsl hn₂ hslide =>
    rcases hgate _ hg with rfl | rfl
    · rw [hab.null] at hsl
      exact absurd hsl (by decide)
    · obtain ⟨n₂, hok₂, hoff₂, hys⟩ := hnext
      obtain rfl := Option.some.inj (hn.symm.trans hn₂)
      rw [if_pos (hk _ hkl)] at hok₂
      refine twin_left hok (twin_left hok₂ (hsafe s (Nat.le_refl s) _ _ _ _ (Or.inl ⟨_, rfl, hslide, hloose hoff₂ hys⟩)))
  | drop hg hkt hop _ ho₂ hsolid =>
    rcases hgate _ hg with rfl | rfl
    · rw [hab.null] at hop
      exact absurd hop.symm.short (by decide)
    · obtain ⟨n₂, hok₂, hoff₂, hys⟩ := hnext
      have hno : ¬ (b.node l).code.keeps (m.value c) = true := by
        rw [hop.keeps, hk _ hkt]
        decide
      obtain rfl := Option.some.inj (ho.symm.trans ho₂)
      rw [if_neg hno] at hok₂
      have hstop : Slide a b none w w := .stop (.self fun q hq => hsolid.not_takes hq)
      exact twin_left hok (twin_left hok₂ (hsafe s (Nat.le_refl s) _ _ _ _ (Or.inr ⟨_, rfl, hstop, hloose hoff₂ hys⟩)))

end Absorbed

theorem Traced.carries_cond (h : Traced S a root start ps b) (hl : Road S a root l) (hk : Stays a b l)
    (hc : (a.node l).code = .condExpr) (hn : (a.node l).next = some n) (ho : (a.node l).other = some w) :
    Carries (a.code names?) (b.code names?) (Near a b l fun m m' => ∃ c, Pose root F d (xs ++ [.scalar c]) m m')
      (Either (Near a b n (Pose root F d xs)) (Near a b w (Pose root F d xs))) := by
  have hcode : (b.node l).code = .condExpr := by rw [← Node.plain_code, hk.plain, Node.plain_code, hc]
  obtain ⟨n', hn', hsn⟩ := h.next_stays hl hk hn
  have hother := h.other l hl
  rw [ho] at hother
  obtain ⟨w', ho', hsw⟩ : ∃ w', (b.node l).other = some w' ∧ Slide a b none w w' := by
    generalize (b.node l).other = w' at hother
    cases hother with
    | some hslide => exact ⟨_, rfl, hslide⟩
  have hstep : ∀ o : Node, o.code = .condExpr → step names? o = condition o := by
    intro o ho
    unfold step
    simp only [ho]
  rintro s hsafe y m z m' ⟨k, hy, hslide, c, hp⟩
  obtain rfl := hy.symm
  obtain rfl := hk.stays k z hslide
  cases s with
  | zero => exact twin_zero hp.1.off
  | succ s =>
    have hleft := hp.1.left.ticked
    have hright := hp.1.right.ticked
    rw [← List.append_assoc] at hleft hright
    obtain ⟨n₁, hok, hoff, hhas⟩ := condition_has (o := a.node z) hleft
    obtain ⟨n₂, hok', hoff', hhas'⟩ := condition_has (o := b.node z) hright
    have hval : (ticked m').value c = (ticked m).value c := hp.1.value_eq
    rw [hn, ho, ← hstep _ hc] at hok
    rw [hval, hn', ho', ← hstep _ hcode] at hok'
    refine twin_ok (A := a.code names?) (B := b.code names?) hok hok' ?_
    have hpose : Pose root F d xs n₁ n₂ := hp.move hoff hoff' hhas hhas'
    split
    · exact hsafe s (Nat.le_succ s) _ _ _ _ (Or.inr ⟨none, rfl, hsw, hpose⟩)
    · exact hsafe s (Nat.le_succ s) _ _ _ _ (Or.inl ⟨none, rfl, hsn, hpose⟩)

end Peep

end OpTree
