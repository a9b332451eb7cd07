import OpTree.Proofs.LinkUpdates

/-!
# Negations that are taken in

A branching op takes in the negation of its operand and becomes its opposite. What has been traced of a unit
stays traced.
-/

namespace OpTree

set_option autoImplicit false

namespace Peep

open Arena Opcode

variable {S : Course} {root start : RecId} {a b c : Arena} {ps ps' : PeepState} {k : Option Opcode} {E : Failure → Prop}
  {prev : Option RecId} {s : PeepSlot} {r l : RecId} {t : Opcode}

/-- What is neither a link nor an opcode stays, and so do the marks. -/
structure Recoded (b c : Arena) : Prop where
  size : c.recs.size = b.recs.size
  first : ∀ q, (c.node q).first = (b.node q).first
  sib : ∀ q, (c.node q).sib = (b.node q).sib
  want : ∀ q, (c.node q).want = (b.node q).want
  other : ∀ q, (c.node q).other = (b.node q).other
  processed : ∀ q, (c.node q).processed = (b.node q).processed

/-- The branching op `l` is turned into its opposite, and the negation `r` in front of it becomes a null op. -/
structure Flips (b c : Arena) (r l : RecId) : Prop extends Recoded b c where
  next : ∀ q, (c.node q).next = (b.node q).next
  plain : ∀ q, q ≠ r → q ≠ l → (c.node q).plain = (b.node q).plain
  turned : (c.node l).plain = { (b.node l).plain with code := (c.node l).code }
  opposite : Opposite (b.node l).code (c.node l).code
  null : (c.node r).code = .null

/-- A negation that the walk has come to, and the void branching op behind it. -/
structure Flippable (b : Arena) (r l : RecId) : Prop where
  code : (b.node r).code = .not
  short : (b.node l).code ∈ Opcode.short
  next : (b.node r).next = some l
  first : (b.node l).first = some r
  want : (b.node l).want = .void
  marked : (b.node r).processed = true
  fresh : (b.node l).processed = false

section Flip

variable (hT : Terrain S a root start) (h : Traced S a root start ps b) (hr : Road S a root r) (hb : Flippable b r l)

include hT h hr hb

theorem Flippable.road : Road S a root l := by
  have hrel := h.next r hr fun _ => not_absorbed (by simp [hb.code])
  rw [hb.next] at hrel
  generalize hy : (a.node r).next = y at hrel
  cases hrel with
  | some hslide => exact hT.slide (hT.step hr (Or.inl hy)) hslide

omit hT hr in
theorem Flippable.code_operand : (a.node r).code = .not := by
  rw [← h.code_eq (by simp [hb.code]) (by rw [hb.code]; decide), hb.code]

omit hT hr in
theorem Flippable.code_branch : (a.node l).code = (b.node l).code := by
  have hnull : (b.node l).code ≠ .null := fun hc => absurd (hc ▸ hb.short) (by decide)
  cases h.fate l with
  | plain hp => rw [← Node.plain_code, ← hp, Node.plain_code]
  | turned q hq =>
    have hf := hq.first
    rw [← h.first, hb.first] at hf
    cases hf
    exact absurd hq (not_absorbed (by simp [hb.code]))
  | absorbed m hm => exact absurd hm.null hnull
  | fallen pm ret hf hrl =>
    rcases hrl with rfl | rfl
    · exact absurd hf.mark hnull
    · exact absurd hf.null hnull

theorem Flippable.entry : (a.node r).next = some l ∧ ∀ p, Road S a root p → a.Link p l → p = r :=
  hT.entry l (hb.road hT h hr).1 (h.short_of hb.short) r ((h.first l).symm.trans hb.first) (hb.code_operand h)

variable (hc : Flips b c r l)

include hc

theorem Flips.absorbs : Absorbs a c r l where
  code := hb.code_operand h
  null := hc.null
  next := (hb.entry hT h hr).1
  first := (h.first l).symm.trans hb.first
  opposite := hb.code_branch h ▸ hc.opposite
  want := (h.want l).symm.trans hb.want

omit hT hr hb h in
theorem Flips.code {q : RecId} (hq : q ≠ r) (hl : q ≠ l) : (c.node q).code = (b.node q).code := by
  rw [← Node.plain_code, hc.plain q hq hl, Node.plain_code]

omit hT hr h in
theorem Flips.stays_null {q : RecId} (hq : (b.node q).code = .null) : (c.node q).code = .null := by
  rw [hc.code, hq]
  · rintro rfl
    rw [hb.code] at hq
    cases hq
  · rintro rfl
    have hshort := hb.short
    rw [hq] at hshort
    exact absurd hshort (by decide)

theorem Flips.absorbs_iff {q m : RecId} : Absorbs a c q m ↔ Absorbs a b q m ∨ q = r ∧ m = l := by
  have hcode := hb.code_operand h
  have hshort := h.short_of hb.short
  have hrl : (a.node r).code ≠ (a.node l).code := fun he => by
    rw [← he, hcode] at hshort
    exact absurd hshort (by decide)
  constructor
  · intro hq
    by_cases hm : m = l
    · subst hm
      have hf := hq.first
      rw [← h.first, hb.first] at hf
      exact Or.inr ⟨(Option.some.inj hf).symm, rfl⟩
    · refine Or.inl (hq.congr (hc.code ?_ ?_).symm (hc.code ?_ hm).symm)
      · rintro rfl
        have hn := hq.next
        rw [(hb.entry hT h hr).1] at hn
        exact hm (Option.some.inj hn).symm
      · rintro rfl
        exact hrl (hcode.trans hq.code.symm)
      · rintro rfl
        have hs := hq.opposite.short
        rw [hcode] at hs
        exact absurd hs (by decide)
  · rintro (hq | ⟨rfl, rfl⟩)
    · refine hq.congr (hc.code ?_ ?_) (hc.code ?_ ?_)
      · rintro rfl
        exact absurd hq.null (by simp [hb.code])
      · rintro rfl
        exact hrl (hcode.trans hq.code.symm)
      · rintro rfl
        have hs := hq.opposite.short
        rw [hcode] at hs
        exact absurd hs (by decide)
      · rintro rfl
        have hf := hq.first
        rw [← h.first, hb.first] at hf
        cases hf
        exact absurd hq.null (by simp [hb.code])
    · exact hc.absorbs hT h hr hb

theorem Flips.slide {y z : RecId} (hy : Road S a root y ∧ y ≠ l) (hs : Slide a b k y z) : Slide a c k y z := by
  obtain ⟨hpass, hkeep⟩ := h.fence hT (hb.road hT h hr).1 (h.short_of hb.short) ((h.first l).symm.trans hb.first) hb.code
  have hiff {q m} := @Flips.absorbs_iff _ _ _ _ _ _ _ _ _ hT h hr hb hc q m
  refine hs.congr (V := fun x => Road S a root x ∧ x ≠ l) hy hpass hkeep (fun x m hx hg => ?_) (fun x hx hidle => ?_)
    fun x m hx hg hm => hc.code ?_ ?_
  · cases hg with
    | self hno =>
      refine .self fun q hq => ?_
      rcases hiff.mp hq with hq | ⟨-, hq⟩
      · exact hno q hq
      · exact hx.2 hq
    | taken hq => exact .taken (hiff.mpr (Or.inl hq))
  · refine hidle.imp_right ?_
    rintro ⟨pm, ret, hf, hpr⟩
    exact ⟨pm, ret, ⟨hf.tail, hf.code, hc.stays_null hb hf.mark, hc.stays_null hb hf.null⟩, hpr⟩
  · rintro rfl
    rw [hb.code] at hm
    exact absurd hm (by decide)
  · rintro rfl
    cases hg with
    | self => exact hx.2 rfl
    | taken hq =>
      have hf := hq.first
      rw [← h.first, hb.first] at hf
      cases hf
      exact absurd hq.null (by simp [hb.code])

theorem Flips.fate (q : RecId) : Fate a c q := by
  have habs := hc.absorbs hT h hr hb
  have hiff {q m} := @Flips.absorbs_iff _ _ _ _ _ _ _ _ _ hT h hr hb hc q m
  by_cases hqr : q = r
  · exact .absorbed l (hqr ▸ habs)
  by_cases hql : q = l
  · subst hql
    refine .turned r habs ?_
    have hplain : (b.node q).plain = (a.node q).plain := by
      cases h.fate q with
      | plain hp => exact hp
      | turned p hp hpl => rw [hpl, ← hb.code_branch h, ← Node.plain_code]
      | absorbed m hm =>
        have hs := hb.short
        rw [hm.null] at hs
        exact absurd hs (by decide)
      | fallen pm ret hf hpr =>
        have hs := hb.short
        rcases hpr with rfl | rfl
        · rw [hf.mark] at hs
          exact absurd hs (by decide)
        · rw [hf.null] at hs
          exact absurd hs (by decide)
    rw [hc.turned, hplain]
  have hplain := hc.plain q hqr hql
  have hcode := hc.code hqr hql
  cases h.fate q with
  | plain hp => exact .plain (hplain.trans hp)
  | turned p hp hpl => exact .turned p (hiff.mpr (Or.inl hp)) (by rw [hplain, hpl, hcode])
  | absorbed m hm => exact .absorbed m (hiff.mpr (Or.inl hm))
  | fallen pm ret hf hpr =>
    exact .fallen pm ret ⟨hf.tail, hf.code, hc.stays_null hb hf.mark, hc.stays_null hb hf.null⟩ hpr

theorem Traced.flip : Traced S a root start ps c := by
  have habs := hc.absorbs hT h hr hb
  have hiff {q m} := @Flips.absorbs_iff _ _ _ _ _ _ _ _ _ hT h hr hb hc q m
  have hentry := (hb.entry hT h hr).2
  have hcode := hb.code_operand h
  refine ⟨hc.size.trans h.size, fun q => (hc.first q).trans (h.first q), fun q => (hc.sib q).trans (h.sib q),
    fun q => (hc.want q).trans (h.want q), hc.fate hT h hr hb, fun p hp hpa => ?_, fun q m hq => ?_, fun p hp => ?_, ?_,
    h.failure, fun m hm hs q hf hq hpr => ?_⟩
  · have hpr : p ≠ r := by
      rintro rfl
      exact hpa l habs
    have hrel := h.next p hp fun m hm => hpa m (hiff.mpr (Or.inl hm))
    have hknown : (c.node p).known = (b.node p).known := by
      by_cases hpl : p = l
      · have hno : ¬ ((c.node l).processed = true ∧ (c.node l).code ∈ Opcode.short) := by
          rw [hc.processed, hb.fresh]
          simp
        have hno' : ¬ ((b.node l).processed = true ∧ (b.node l).code ∈ Opcode.short) := by
          rw [hb.fresh]
          simp
        rw [hpl, Node.known, Node.known, if_neg hno, if_neg hno']
      · rw [Node.known, Node.known, hc.processed, hc.code hpr hpl]
    rw [hc.next, hknown]
    generalize hy : (a.node p).next = y at hrel ⊢
    generalize (b.node p).next = z at hrel ⊢
    cases hrel with
    | none => exact .none
    | some hslide =>
      refine .some (hc.slide hT h hr hb ⟨hT.step hp (Or.inl hy), ?_⟩ hslide)
      rintro rfl
      exact hpr (hentry p hp (Or.inl hy))
  · rcases hiff.mp hq with hq | ⟨rfl, rfl⟩
    · rw [hc.next, hc.processed]
      exact h.absorbed q m hq
    · rw [hc.next, hc.processed]
      exact ⟨hb.next, hb.marked⟩
  · have hrel := h.other p hp
    rw [hc.other]
    generalize hy : (a.node p).other = y at hrel ⊢
    generalize (b.node p).other = z at hrel ⊢
    cases hrel with
    | none => exact .none
    | some hslide =>
      refine .some (hc.slide hT h hr hb ⟨hT.step hp (Or.inr hy), ?_⟩ hslide)
      rintro rfl
      obtain rfl := hentry p hp (Or.inr hy)
      rcases hT.wired.other p hp.1 with ho | ho
      · rw [ho] at hy
        cases hy
      · rw [Node.opClass, Node.isEx, hcode] at ho
        cases ho
  · obtain ⟨z, hz, hslide⟩ := h.head
    refine ⟨z, hz, hc.slide hT h hr hb ⟨hT.road, ?_⟩ hslide⟩
    rintro rfl
    exact short_notMem_solid (h.short_of hb.short) hT.solid.code
  · rw [hc.processed] at hpr ⊢
    exact h.before m hm hs q hf hq hpr

theorem Onto.flip (ho : Onto S a root start b prev s r) (hprev : ∀ p, prev = some p → p ≠ r) :
    Onto S a root start c prev s r := by
  have hiff {q m} := @Flips.absorbs_iff _ _ _ _ _ _ _ _ _ hT h hr hb hc q m
  match prev, s with
  | some p, _ =>
    obtain ⟨hp, hpa, hn⟩ := ho
    refine ⟨hp, fun m hm => ?_, (hc.next p).trans hn⟩
    rcases hiff.mp hm with hm | ⟨hpr, -⟩
    · exact hpa m hm
    · exact hprev p rfl hpr
  | none, .other q => exact ⟨ho.1, (hc.other q).trans ho.2⟩
  | none, .start =>
    refine hc.slide hT h hr hb ⟨hT.road, ?_⟩ ho
    rintro rfl
    exact short_notMem_solid (h.short_of hb.short) hT.solid.code

end Flip

end Peep

end OpTree
