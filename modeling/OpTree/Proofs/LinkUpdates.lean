import OpTree.Proofs.Detours

/-!
# Links that are led on

The rules that lead links past ops that do nothing keep a unit traced.
-/

namespace OpTree

set_option autoImplicit false

namespace Peep

open Arena Opcode

variable {S : Course} {root start : RecId} {a b c : Arena} {ps ps' : PeepState} {k : Option Opcode} {E : Failure → Prop}
  {prev : Option RecId} {s : PeepSlot}

section Updates

variable (hT : Terrain S a root start) (h : Traced S a root start ps b)

include hT h

theorem Traced.lt {r : RecId} (hr : r ∈ (a.tree root).recs) : r < b.recs.size := h.size ▸ hT.wired.lt hr

theorem Traced.setNext {p z : RecId} (hp : Road S a root p) (ha : ∀ l, ¬ Absorbs a b p l)
    (hz : Option.Rel (Slide a b (b.node p).known) (a.node p).next (some z)) :
    Traced S a root start ps (b.update p fun n => { n with next := some z, real := true }) := by
  have hself := node_update_self (h.lt hT hp.1) fun n => { n with next := some z, real := true }
  have hother := fun q (hq : q ≠ p) => node_update_of_ne (a := b) hq fun n => { n with next := some z, real := true }
  have hc : Linkwise b (b.update p fun n => { n with next := some z, real := true }) :=
    linkwise_update (fun _ => rfl) fun _ hm => hm
  generalize b.update p _ = c at hself hother hc
  have hsame : ∀ q, (c.node q).processed = (b.node q).processed ∧ (c.node q).other = (b.node q).other := by
    intro q
    by_cases hq : q = p
    · rw [hq, hself]
      exact ⟨rfl, rfl⟩
    · rw [hother q hq]
      exact ⟨rfl, rfl⟩
  refine h.linkwise hc (fun q hq hqa => ?_) (fun r l hl => ?_) (fun q hq => ?_) h.head h.failure ?_
  · by_cases hqp : q = p
    · rw [hqp, hself]
      exact hz
    · rw [hother q hqp]
      exact h.next q hq hqa
  · rw [hother r]
    rintro rfl
    exact ha l hl
  · rw [(hsame q).2]
    exact h.other q hq
  · intro l hl hs r hf hr hm
    rw [(hsame l).1] at hm
    rw [(hsame r).1]
    exact h.before l hl hs r hf hr hm

theorem Traced.setOther {p z : RecId} (hp : Road S a root p) (hz : Option.Rel (Slide a b none) (a.node p).other (some z)) :
    Traced S a root start ps (b.update p fun n => { n with other := some z }) := by
  have hself := node_update_self (h.lt hT hp.1) fun n => { n with other := some z }
  have hother := fun q (hq : q ≠ p) => node_update_of_ne (a := b) hq fun n => { n with other := some z }
  have hc : Linkwise b (b.update p fun n => { n with other := some z }) :=
    linkwise_update (fun _ => rfl) fun _ hm => hm
  generalize b.update p _ = c at hself hother hc
  have hsame : ∀ q, (c.node q).processed = (b.node q).processed ∧ (c.node q).next = (b.node q).next ∧
      (c.node q).known = (b.node q).known := by
    intro q
    by_cases hq : q = p
    · rw [hq, hself]
      exact ⟨rfl, rfl, rfl⟩
    · rw [hother q hq]
      exact ⟨rfl, rfl, rfl⟩
  refine h.linkwise hc (fun q hq hqa => ?_) (fun r l _ => (hsame r).2.1) (fun q hq => ?_) h.head h.failure ?_
  · rw [(hsame q).2.1, (hsame q).2.2]
    exact h.next q hq hqa
  · by_cases hqp : q = p
    · rw [hqp, hself]
      exact hz
    · rw [hother q hqp]
      exact h.other q hq
  · intro l hl hs r hf hr hm
    rw [(hsame l).1] at hm
    rw [(hsame r).1]
    exact h.before l hl hs r hf hr hm

theorem Traced.mark {o : RecId} (ho : Road S a root o)
    (hb : ∀ r, (a.node o).code ∈ short → (a.node o).first = some r → (a.node r).code = .not → (b.node r).processed = true) :
    Traced S a root start ps (b.mark o) := by
  have hself := node_update_self (h.lt hT ho.1) fun n => { n with processed := true }
  have hother := fun q (hq : q ≠ o) => node_update_of_ne (a := b) hq fun n => { n with processed := true }
  have hc : Linkwise b (b.mark o) := linkwise_update (fun _ => rfl) fun _ _ => rfl
  have hdef : b.update o (fun n => { n with processed := true }) = b.mark o := rfl
  rw [hdef] at hself hother
  generalize b.mark o = c at hself hother hc
  have hsame : ∀ q, (c.node q).next = (b.node q).next ∧ (c.node q).other = (b.node q).other := by
    intro q
    by_cases hq : q = o
    · rw [hq, hself]
      exact ⟨rfl, rfl⟩
    · rw [hother q hq]
      exact ⟨rfl, rfl⟩
  refine h.linkwise hc (fun q hq hqa => ?_) (fun r l _ => (hsame r).1) (fun q hq => ?_) h.head h.failure ?_
  · rw [(hsame q).1]
    refine rel_mono (h.next q hq hqa) fun y z hyz => ?_
    by_cases hqo : q = o
    · subst hqo
      -- Nothing is known of the op before, or the same.
      unfold Node.known at hyz
      split at hyz
      · rename_i hk
        rw [hself, Node.known, if_pos ⟨rfl, hk.2⟩]
        exact hyz
      · exact hyz.weaken
    · rw [hother q hqo]
      exact hyz
  · rw [(hsame q).2]
    exact h.other q hq
  · intro l hl hs r hf hr hm
    by_cases hlo : l = o
    · subst hlo
      exact hc.marks r (hb r hs hf hr)
    · rw [hother l hlo] at hm
      exact hc.marks r (h.before l hl hs r hf hr hm)

/-- The op that a short-circuit op may take in has been visited when the walk comes to that op. -/
theorem Traced.operand_visited {o r : RecId} (ho : Onto S a root start b prev s o)
    (hprev : ∀ p, prev = some p → (b.node p).processed = true) (hl : o ∈ (a.tree root).recs)
    (hs : (a.node o).code ∈ short) (hf : (a.node o).first = some r) (hr : (a.node r).code = .not) :
    (b.node r).processed = true := by
  by_contra hnot
  have hcode : (b.node r).code = .not := by
    rw [← hr]
    cases h.fate r with
    | plain hp => rw [← Node.plain_code, hp, Node.plain_code]
    | turned q hq =>
      have hshort := hq.opposite.short
      rw [hr] at hshort
      exact absurd hshort (by decide)
    | absorbed l hl => exact absurd (h.absorbed r l hl).2 hnot
    | fallen pm ret hf hrr =>
      rcases hrr with rfl | rfl
      · rw [hf.code] at hr
        cases hr
      · rw [(tailReturnOf_some hf.tail).1] at hr
        cases hr
  have hentry := (hT.entry o hl hs r hf hr).2
  have hno : ∀ {k y}, Slide a b k y o → Road S a root y → y = o := fun {k y} hy hroad => by
    by_contra hne
    exact h.not_reached hT hl hs hf hcode ⟨hroad, hne⟩ hy rfl
  match prev, s with
  | some p, _ =>
    obtain ⟨hp, hpa, hn⟩ := ho
    have hrel := h.next p hp hpa
    rw [hn] at hrel
    generalize hy : (a.node p).next = y at hrel
    cases hrel with
    | some hslide =>
      obtain rfl := hno hslide (hT.step hp (Or.inl hy))
      obtain rfl := hentry p hp (Or.inl hy)
      exact hnot (hprev p rfl)
  | none, .other q =>
    obtain ⟨hq, hn⟩ := ho
    have hrel := h.other q hq
    rw [hn] at hrel
    generalize hy : (a.node q).other = y at hrel
    cases hrel with
    | some hslide =>
      obtain rfl := hno hslide (hT.step hq (Or.inr hy))
      obtain rfl := hentry q hq (Or.inr hy)
      rcases hT.wired.other q hq.1 with ho | ho
      · rw [ho] at hy
        cases hy
      · rw [Node.opClass, Node.isEx, hr] at ho
        cases ho
  | none, .start =>
    obtain rfl := hno ho hT.road
    exact short_notMem_solid hs hT.solid.code

theorem Traced.onto {y : RecId} (hy : Road S a root y) (hc : (a.node y).code ≠ .leavesub) :
    ∃ z, (b.node y).next = some z ∧ Road S a root z := by
  by_cases ha : ∃ l, Absorbs a b y l
  · obtain ⟨l, hl⟩ := ha
    exact ⟨l, (h.absorbed y l hl).1, hT.step hy (Or.inl hl.next)⟩
  · have hnext : (a.node y).next ≠ none := by
      refine hT.wired.next y hy.1 hy.2 ?_
      rintro rfl
      exact hc hT.wired.code_root
    have hrel := h.next y hy (not_exists.mp ha)
    generalize hu : (a.node y).next = u at hrel hnext
    generalize (b.node y).next = v at hrel
    cases hrel with
    | some hslide => exact ⟨_, rfl, hT.slide (hT.step hy (Or.inl hu)) hslide⟩
    | none => exact absurd rfl hnext

omit hT in
theorem Traced.not_leavesub {y : RecId} (ht : (b.node y).transparent = true) : (a.node y).code ≠ .leavesub := by
  intro hc
  rcases (h.fate y).code_cases with hb | ⟨hb, -⟩ | hb
  · rw [Node.transparent, hb, hc] at ht
    cases ht
  · rw [hc] at hb
    exact absurd hb (by decide)
  · cases h.fate y with
    | plain hp =>
      rw [← Node.plain_code, hp, Node.plain_code, hc] at hb
      cases hb
    | turned q hq =>
      have hshort := hq.opposite.short
      rw [hc] at hshort
      exact absurd hshort (by decide)
    | absorbed l hl =>
      have hnot := hl.code
      rw [hc] at hnot
      cases hnot
    | fallen pm ret hf hr =>
      rcases hr with rfl | rfl
      · rw [hf.code] at hc
        cases hc
      · rw [(tailReturnOf_some hf.tail).1] at hc
        cases hc

theorem Traced.firstSolid (fuel : Nat) {y : RecId} (hy : Road S a root y) :
    ∃ z, Peep.firstSolid b fuel (some y) = some z ∧ Road S a root z ∧
      ∀ {k x}, Slide a b k x y → Slide a b k x z := by
  induction fuel generalizing y with
  | zero => exact ⟨y, rfl, hy, fun hx => hx⟩
  | succ fuel ih =>
    unfold Peep.firstSolid
    split
    · rename_i ht
      obtain ⟨w, hw, hroad⟩ := h.onto hT hy (h.not_leavesub ht)
      rw [hw]
      obtain ⟨z, hz, hzr, hslide⟩ := ih hroad
      exact ⟨z, hz, hzr, fun hx => hslide (h.past hy ht hw hx)⟩
    · exact ⟨y, rfl, hy, fun hx => hx⟩

end Updates

theorem traces_noteChange (h : Traced S a root start ps b) (kind : String) :
    Gives E (noteChange kind) ps b fun _ ps' c => Traced S a root start ps' c ∧ c = b :=
  gives_modify ⟨h.of_start rfl rfl, rfl⟩

theorem Traced.ontoHead {o : RecId} (h : Traced S a root start ps b) (hs : ∀ r, s = .other r → Road S a root r)
    (ho : headOf ps b s = some o) : Onto S a root start b none s o := by
  cases s with
  | start =>
    obtain ⟨z, hz, hslide⟩ := h.head
    obtain rfl := Option.some.inj (hz.symm.trans ho)
    exact hslide
  | other r => exact ⟨hs r rfl, ho⟩

section Rules

variable (hT : Terrain S a root start) (h : Traced S a root start ps b)

include hT h

theorem traces_relink {o z : RecId} (ho : Onto S a root start b prev s o)
    (hz : ∀ {k y}, Road S a root y → Slide a b k y o → Slide a b k y z) :
    Gives E (relink prev s (some z)) ps b fun _ ps' c =>
      Traced S a root start ps' c ∧ Onto S a root start c prev s z := by
  match prev, s with
  | some p, s =>
    obtain ⟨hp, ha, hn⟩ := ho
    have hrel := h.next p hp ha
    rw [hn] at hrel
    refine gives_lift (TreeM.update_apply p _ b) ⟨h.setNext hT hp ha ?_, hp, fun l hl => ha l ?_, ?_⟩
    · generalize hy : (a.node p).next = y at hrel ⊢
      cases hrel with
      | some hslide => exact .some (hz (hT.step hp (Or.inl hy)) hslide)
    · have hc : Linkwise b (b.update p fun n => { n with next := some z, real := true }) :=
        linkwise_update (fun _ => rfl) fun _ hm => hm
      exact (Absorbs.of_codes hc.code).mp hl
    · rw [node_update_self (h.lt hT hp.1)]
  | none, .other r =>
    obtain ⟨hr, hn⟩ := ho
    have hrel := h.other r hr
    rw [hn] at hrel
    refine gives_lift (TreeM.update_apply r _ b) ⟨h.setOther hT hr ?_, hr, ?_⟩
    · generalize hy : (a.node r).other = y at hrel ⊢
      cases hrel with
      | some hslide => exact .some (hz (hT.step hr (Or.inr hy)) hslide)
    · rw [node_update_self (h.lt hT hr.1)]
  | none, .start =>
    have hslide : Slide a b none start z := hz hT.road ho
    exact gives_modify ⟨{ h with head := ⟨z, rfl, hslide⟩ }, hslide⟩

theorem Onto.road {o : RecId} (ho : Onto S a root start b prev s o) : Road S a root o := by
  match prev, s with
  | some p, s =>
    obtain ⟨hp, ha, hn⟩ := ho
    have hrel := h.next p hp ha
    rw [hn] at hrel
    generalize hy : (a.node p).next = y at hrel
    cases hrel with
    | some hslide => exact hT.slide (hT.step hp (Or.inl hy)) hslide
  | none, .other r =>
    obtain ⟨hr, hn⟩ := ho
    have hrel := h.other r hr
    rw [hn] at hrel
    generalize hy : (a.node r).other = y at hrel
    cases hrel with
    | some hslide => exact hT.slide (hT.step hr (Or.inr hy)) hslide
  | none, .start => exact hT.slide hT.road ho

theorem traces_skipNulls (hs : ∀ r, s = .other r → Road S a root r) :
    Gives E (skipNulls s) ps b fun _ ps' c => Traced S a root start ps' c := by
  unfold skipNulls
  refine gives_lift_bind (TreeM.get_apply b) (gives_readSlot_bind ?_)
  cases hhead : headOf ps b s with
  | none =>
    have hsolid : Peep.firstSolid b b.bound none = none := rfl
    rw [hsolid]
    exact gives_ite (fun hne => absurd rfl hne) fun _ => gives_pure h
  | some y =>
    have honto := h.ontoHead hs hhead
    obtain ⟨z, hz, -, hslide⟩ := h.firstSolid hT b.bound (honto.road hT h)
    rw [hz]
    refine gives_ite (fun _ => ?_) fun _ => gives_pure h
    exact (@traces_relink _ _ _ _ _ _ _ none s hT h _ _ honto fun _ hx => hslide hx).mono fun _ _ _ hc => hc.1

theorem traces_threadFrom {o : RecId} {t : Opcode} (ho : Road S a root o) (hc : (b.node o).code = t) (ht : t ∈ short)
    (hm : (b.node o).processed = true) (fuel : Nat) :
    Gives E (threadFrom o t fuel) ps b fun _ ps' c =>
      Traced S a root start ps' c ∧ (c.node o).code = t ∧ (c.node o).processed = true := by
  induction fuel generalizing ps b with
  | zero => exact gives_pure ⟨h, hc, hm⟩
  | succ fuel ih =>
    unfold threadFrom
    refine gives_lift_bind (TreeM.node_apply o b) ?_
    split
    · exact gives_pure ⟨h, hc, hm⟩
    · rename_i r hr
      refine gives_lift_bind (TreeM.node_apply r b) (gives_ite (fun hcond => ?_) fun _ => gives_pure ⟨h, hc, hm⟩)
      rw [Bool.and_eq_true, Bool.or_eq_true, decide_eq_true_iff, decide_eq_true_iff] at hcond
      have hnot : ∀ l, ¬ Absorbs a b o l := fun l => not_absorbed (by
        rw [hc]
        rintro rfl
        exact absurd ht (by decide))
      have hknown : (b.node o).known = some t := by
        rw [Node.known, hc, if_pos ⟨hm, ht⟩]
      have hrel := h.next o ho hnot
      rw [hr, hknown] at hrel
      generalize hy : (a.node o).next = y at hrel
      cases hrel with
      | @some y _ hslide =>
        have hroad := hT.slide (hT.step ho (Or.inl hy)) hslide
        have hleave : (a.node r).code ≠ .leavesub := by
          rcases hcond.2 with hs | hs
          · have hshort := h.short_of (hs ▸ ht)
            intro hl
            rw [hl] at hshort
            exact absurd hshort (by decide)
          · exact h.not_leavesub hs
        obtain ⟨z, hz, -⟩ := h.onto hT hroad hleave
        have hfar : Slide a b (some t) y z := by
          rcases hcond.2 with hs | hs
          · exact h.past_same hroad (hs ▸ ht) hz (by rw [hs]) hslide
          · exact h.past hroad hs hz hslide
        have hc' := h.setNext hT ho hnot (z := z) (by
          rw [hy, hknown]
          exact .some hfar)
        have hself := node_update_self (h.lt hT ho.1) fun n => { n with next := some z, real := true }
        rw [hz]
        refine gives_lift_bind (TreeM.update_apply o _ b) ?_
        generalize b.update o _ = c at hc' hself
        have hrest : ∀ {ps₁ : PeepState}, Traced S a root start ps₁ c → Gives E (threadFrom o t fuel) ps₁ c fun _ ps' d =>
            Traced S a root start ps' d ∧ (d.node o).code = t ∧ (d.node o).processed = true := fun h₁ =>
          ih h₁ (by rw [hself]; exact hc) (by rw [hself]; exact hm)
        split
        · refine (traces_noteChange hc' _).bind ?_
          rintro _ ps₁ d ⟨h₁, rfl⟩
          exact hrest h₁
        · exact hrest hc'

theorem traces_threadBranch {o : RecId} (ho : Road S a root o) (hs : (b.node o).code ∈ short)
    (hm : (b.node o).processed = true) :
    Gives E (threadBranch o) ps b fun _ ps' c => Traced S a root start ps' c := by
  have hsame : Gives E (skipNulls (.other o)) ps b fun _ _ c =>
      (c.node o).code = (b.node o).code ∧ (c.node o).processed = (b.node o).processed := by
    unfold skipNulls
    refine gives_lift_bind (TreeM.get_apply b) (gives_readSlot_bind (gives_ite (fun _ => ?_) fun _ => gives_pure ⟨rfl, rfl⟩))
    refine gives_lift (TreeM.update_apply o _ b) ?_
    rw [node_update_self (h.lt hT ho.1)]
    exact ⟨rfl, rfl⟩
  unfold threadBranch
  refine ((traces_skipNulls hT h (s := .other o) ?_).and hsame).bind ?_
  · rintro r ⟨⟩
    exact ho
  rintro _ ps₁ c ⟨hc, hcode, hproc⟩
  refine gives_lift_bind (TreeM.node_apply o c) (gives_lift_bind (TreeM.get_apply c) ?_)
  refine (traces_threadFrom hT hc ho rfl (hcode ▸ hs) (hproc.trans hm) _).bind ?_
  rintro _ ps₂ d ⟨hd, hdc, hdm⟩
  refine gives_lift_bind (TreeM.node_apply o d) ?_
  rw [hcode] at hdc ⊢
  split
  · exact gives_pure hd
  · rename_i r hr
    refine gives_lift_bind (TreeM.node_apply r d) (gives_ite (fun hcond => ?_) fun _ => gives_pure hd)
    simp only [Bool.and_eq_true, Bool.or_eq_true, decide_eq_true_iff] at hcond
    obtain ⟨⟨hw, hsome⟩, hop⟩ := hcond
    obtain ⟨z, hz⟩ := Option.isSome_iff_exists.mp hsome
    have hnot : ∀ l, ¬ Absorbs a d o l := fun l => not_absorbed (by
      rw [hdc]
      intro hnull
      rw [hnull] at hs
      exact absurd hs (by decide))
    have hknown : (d.node o).known = some (b.node o).code := by
      rw [Node.known, hdc, if_pos ⟨hdm, hs⟩]
    have hrel := hd.next o ho hnot
    rw [hr, hknown] at hrel
    generalize hy : (a.node o).next = y at hrel
    cases hrel with
    | some hslide =>
      have hroad := hT.slide (hT.step ho (Or.inl hy)) hslide
      have hfar := hd.past_opposite hT hroad hop hw hz rfl hslide
      have he := hd.setNext hT ho hnot (z := z) (by
        rw [hy, hknown]
        exact .some hfar)
      rw [hz]
      refine gives_lift_bind (TreeM.update_apply o _ d) ((traces_noteChange he _).mono ?_)
      rintro _ ps₃ e ⟨h₃, -⟩
      exact h₃

end Rules

end Peep

end OpTree
