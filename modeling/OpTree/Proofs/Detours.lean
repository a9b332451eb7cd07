import OpTree.Proofs.Slides

/-!
# Detours of a unit without containers

In a unit whose ops are about scalars only, every rule of the optimizer leads an op somewhere along a slide. The
invariant of the walk says so of all links at once.
-/

namespace OpTree

set_option autoImplicit false

namespace Opcode

/-- The ops that the rules for containers, declarations and lengths start from. -/
def compound : List Opcode := [.list, .rv2av, .rv2hv, .padav, .padhv, .aelem, .length, .multideref]

end Opcode

/-- The code of a short-circuit op whose links may have been led past others. -/
def Node.known (n : Node) : Option Opcode := if n.processed = true ∧ n.code ∈ Opcode.short then some n.code else none

namespace Peep

open Arena Opcode

def Road (S : Course) (a : Arena) (root r : RecId) : Prop := r ∈ (a.tree root).recs ∧ S r

/-- What the rules rely on in the unit that the walk starts with. -/
structure Terrain (S : Course) (a : Arena) (root start : RecId) : Prop where
  wired : Wired S a (a.tree root)
  road : Road S a root start
  solid : Solid a start
  simple : ∀ r ∈ (a.tree root).recs, (a.node r).code ∉ compound
  operand : ∀ l ∈ (a.tree root).recs, (a.node l).code ∈ short → ∀ r, (a.node l).first = some r → (a.node r).code ≠ .const
  /-- A short-circuit op is entered by way of a negation in front of it only. -/
  entry : ∀ l ∈ (a.tree root).recs, (a.node l).code ∈ short → ∀ r, (a.node l).first = some r → (a.node r).code = .not →
    (a.node r).next = some l ∧ ∀ p, Road S a root p → a.Link p l → p = r
  arm : ∀ l ∈ (a.tree root).recs, (a.node l).code ∈ short → ∀ z, (a.node l).other = some z → Solid a z
  mark : ∀ pm ∈ (a.tree root).recs, ∀ ret, tailReturnOf? a pm = some ret → (a.node pm).code = .pushmark
  last : ∀ pm ∈ (a.tree root).recs, ∀ ret l, tailReturnOf? a pm = some ret → (a.kids ret).getLast? = some l → l ≠ pm →
    Road S a root l ∧ (a.node l).next = some ret ∧ (a.node l).code ∉ short

/-- What may have become of an op. -/
inductive Fate (a b : Arena) (r : RecId) : Prop where
  | plain (h : (b.node r).plain = (a.node r).plain)
  | turned (q : RecId) (h : Absorbs a b q r)
      (hp : (b.node r).plain = { (a.node r).plain with code := (b.node r).code })
  | absorbed (l : RecId) (h : Absorbs a b r l)
  | fallen (pm ret : RecId) (h : Falls a b pm ret) (hr : r = pm ∨ r = ret)

/-- Every link leads where it led in `a`, but for a slide. -/
structure Traced (S : Course) (a : Arena) (root start : RecId) (ps : PeepState) (b : Arena) : Prop where
  size : b.recs.size = a.recs.size
  first : ∀ r, (b.node r).first = (a.node r).first
  sib : ∀ r, (b.node r).sib = (a.node r).sib
  want : ∀ r, (b.node r).want = (a.node r).want
  fate : ∀ r, Fate a b r
  next : ∀ p, Road S a root p → (∀ l, ¬ Absorbs a b p l) →
    Option.Rel (Slide a b (b.node p).known) (a.node p).next (b.node p).next
  absorbed : ∀ r l, Absorbs a b r l → (b.node r).next = some l ∧ (b.node r).processed = true
  other : ∀ p, Road S a root p → Option.Rel (Slide a b none) (a.node p).other (b.node p).other
  head : ∃ z, ps.start = some z ∧ Slide a b none start z
  failure : ps.failure? = none
  /-- A negation is visited before the op that may take it in. -/
  before : ∀ l ∈ (a.tree root).recs, (a.node l).code ∈ short → ∀ r, (a.node l).first = some r → (a.node r).code = .not →
    (b.node l).processed = true → (b.node r).processed = true

/-- The walk has come to an op from a place whose links are traced. -/
def Onto (S : Course) (a : Arena) (root start : RecId) (b : Arena) : Option RecId → PeepSlot → RecId → Prop
  | some p, _, o => Road S a root p ∧ (∀ l, ¬ Absorbs a b p l) ∧ (b.node p).next = some o
  | none, .other r, o => Road S a root r ∧ (b.node r).other = some o
  | none, .start, o => Slide a b none start o

variable {S : Course} {root start : RecId} {a b c : Arena} {ps ps' : PeepState} {k : Option Opcode} {E : Failure → Prop}
  {prev : Option RecId} {s : PeepSlot}

section Roads

variable (ht : Terrain S a root start)

include ht

theorem Terrain.step {p z : RecId} (hp : Road S a root p) (hz : a.Link p z) : Road S a root z :=
  have h := ht.wired.links p hp.1 hp.2 z hz
  ⟨h.mem, h.live⟩

theorem Terrain.gate {x l : RecId} (hx : Road S a root x) (h : Gate a b x l) : Road S a root l := by
  cases h with
  | self => exact hx
  | taken h => exact ht.step hx (Or.inl h.next)

theorem Terrain.slide {y z : RecId} (hy : Road S a root y) (h : Slide a b k y z) : Road S a root z := by
  induction h with
  | stop hg => exact ht.gate hy hg
  | pass _ hn _ ih => exact ih (ht.step hy (Or.inl hn))
  | keep hg _ _ hn _ ih => exact ih (ht.step (ht.gate hy hg) (Or.inl hn))
  | drop hg _ _ _ hn => exact ht.step (ht.gate hy hg) (Or.inr hn)

theorem Terrain.lt {p : RecId} (hp : Road S a root p) : p < a.recs.size := ht.wired.lt hp.1

end Roads

theorem node_known_none {n : Node} (h : n.code ∉ short) : n.known = none := if_neg fun hn => h hn.2

section Fates

variable {r l o z : RecId}

theorem Fate.code_cases (h : Fate a b r) :
    (b.node r).code = (a.node r).code ∨ (a.node r).code ∈ short ∧ (b.node r).code ∈ short ∨ (b.node r).code = .null := by
  cases h with
  | plain h => exact Or.inl (by rw [← Node.plain_code, h, Node.plain_code])
  | turned q h => exact Or.inr (Or.inl ⟨h.opposite.short, h.opposite.symm.short⟩)
  | absorbed l h => exact Or.inr (Or.inr h.null)
  | fallen pm ret h hr =>
    refine Or.inr (Or.inr ?_)
    rcases hr with rfl | rfl
    · exact h.mark
    · exact h.null

theorem not_absorbed (hn : (b.node r).code ≠ .null) : ¬ Absorbs a b r l := fun hl => hn hl.null

variable (h : Traced S a root start ps b)

include h

theorem Traced.code_eq (hn : (b.node r).code ≠ .null) (hs : (b.node r).code ∉ short) :
    (b.node r).code = (a.node r).code := by
  rcases (h.fate r).code_cases with hc | ⟨-, hc⟩ | hc
  · exact hc
  · exact absurd hc hs
  · exact absurd hc hn

theorem Traced.short_of (hs : (b.node r).code ∈ Opcode.short) : (a.node r).code ∈ Opcode.short := by
  rcases (h.fate r).code_cases with hc | ⟨hc, -⟩ | hc
  · exact hc ▸ hs
  · exact hc
  · rw [hc] at hs
    exact absurd hs (by decide)

theorem Traced.idle (ht : (b.node o).transparent = true) (ha : ∀ l, ¬ Absorbs a b o l) : Idle a b o := by
  cases h.fate o with
  | plain hp =>
    have hc : (b.node o).code = (a.node o).code := by rw [← Node.plain_code, hp, Node.plain_code]
    rw [Node.transparent, hc] at ht
    exact Or.inl ht
  | turned q hq =>
    have hs := hq.opposite.symm.short
    simp only [Opcode.short, List.mem_cons, List.not_mem_nil, or_false] at hs
    rcases hs with hs | hs | hs <;> rw [Node.transparent, hs] at ht <;> cases ht
  | absorbed l hl => exact absurd hl (ha l)
  | fallen pm ret hf hr => exact Or.inr ⟨pm, ret, hf, hr⟩

theorem Traced.not_solid (ht : (b.node o).transparent = true) : ¬ Solid a o := by
  intro hs
  by_cases ha : ∃ l, Absorbs a b o l
  · obtain ⟨l, hl⟩ := ha
    exact hs.not_absorbs hl
  · exact hs.not_idle (h.idle ht (not_exists.mp ha))

theorem Traced.past {y : RecId} (ho : Road S a root o) (ht : (b.node o).transparent = true) (hz : (b.node o).next = some z)
    (hy : Slide a b k y o) : Slide a b k y z := by
  refine hy.trans (h.not_solid ht) fun x hg => ?_
  cases hg with
  | taken hl =>
    have hs := hl.opposite.symm.short
    simp only [Opcode.short, List.mem_cons, List.not_mem_nil, or_false] at hs
    rcases hs with hs | hs | hs <;> rw [Node.transparent, hs] at ht <;> cases ht
  | self _ =>
    by_cases ha : ∃ l, Absorbs a b o l
    · obtain ⟨l, hl⟩ := ha
      have hnext := (h.absorbed o l hl).1
      rw [hz] at hnext
      cases hnext
      exact .stop (.taken hl)
    · have hidle := h.idle ht (not_exists.mp ha)
      have hrel := h.next o ho (not_exists.mp ha)
      rw [hz] at hrel
      generalize hn : (a.node o).next = n at hrel
      cases hrel with
      | some hs =>
        refine .pass hidle hn ?_
        rw [node_known_none] at hs
        · exact hs.weaken
        · intro hc
          simp only [Opcode.short, List.mem_cons, List.not_mem_nil, or_false] at hc
          rcases hc with hc | hc | hc <;> rw [Node.transparent, hc] at ht <;> cases ht

theorem Traced.past_same {y : RecId} (ho : Road S a root o) (hs : (b.node o).code ∈ Opcode.short) (hz : (b.node o).next = some z)
    (hk : k = some (b.node o).code) (hy : Slide a b k y o) : Slide a b k y z := by
  have hnull : (b.node o).code ≠ .null := fun hc => absurd (hc ▸ hs) (by decide)
  refine hy.trans (fun hsolid => short_notMem_solid (h.short_of hs) hsolid.code) fun x hg => ?_
  have hrel := h.next o ho fun l => not_absorbed hnull
  rw [hz] at hrel
  generalize hn : (a.node o).next = n at hrel
  cases hrel with
  | some hsl =>
    refine .keep hg hk hs hn ?_
    unfold Node.known at hsl
    split at hsl
    · exact hk ▸ hsl
    · exact hsl.weaken

theorem Traced.past_opposite {y : RecId} {t : Opcode} (hT : Terrain S a root start) (ho : Road S a root o)
    (hop : Opposite t (b.node o).code)
    (hw : (b.node o).want = .void) (hz : (b.node o).other = some z) (hk : k = some t) (hy : Slide a b k y o) :
    Slide a b k y z := by
  have hs := h.short_of hop.symm.short
  refine hy.trans (fun hsolid => short_notMem_solid hs hsolid.code) fun x hg => ?_
  have hrel := h.other o ho
  rw [hz] at hrel
  generalize hn : (a.node o).other = n at hrel
  cases hrel with
  | some hsl =>
    have hsolid := hT.arm o ho.1 hs _ hn
    obtain rfl := hsl.of_solid hsolid
    exact .drop hg hk hop ((h.want o).symm.trans hw) hn hsolid

/-- No slide leads to an op behind a negation that is still there, but the one from the negation. -/
theorem Traced.fence (hT : Terrain S a root start) (hl : l ∈ (a.tree root).recs) (hs : (a.node l).code ∈ Opcode.short)
    (hf : (a.node l).first = some r) (hr : (b.node r).code = .not) :
    (∀ x y, Road S a root x ∧ x ≠ l → Idle a b x → (a.node x).next = some y → Road S a root y ∧ y ≠ l) ∧
      ∀ x m y, Road S a root x ∧ x ≠ l → Gate a b x m → (b.node m).code ∈ Opcode.short → (a.node m).next = some y →
        Road S a root y ∧ y ≠ l := by
  have hcode : (a.node r).code = .not := by
    rw [← h.code_eq (by simp [hr]) (by rw [hr]; decide), hr]
  have hentry := (hT.entry l hl hs r hf hcode).2
  refine ⟨fun x y hx hidle hn => ⟨hT.step hx.1 (Or.inl hn), ?_⟩, fun x m y hx hg hm hn => ?_⟩
  · rintro rfl
    obtain rfl := hentry x hx.1 (Or.inl hn)
    rcases hidle with ht | ⟨pm, ret, hfall, rfl | rfl⟩
    · rw [Node.transparent, hcode] at ht
      cases ht
    · rw [hfall.mark] at hr
      cases hr
    · rw [hfall.null] at hr
      cases hr
  · have hroad := hT.gate hx.1 hg
    refine ⟨hT.step hroad (Or.inl hn), ?_⟩
    rintro rfl
    obtain rfl := hentry m hroad (Or.inl hn)
    rw [hr] at hm
    exact absurd hm (by decide)

theorem Traced.not_reached {y : RecId} (hT : Terrain S a root start) (hl : l ∈ (a.tree root).recs)
    (hs : (a.node l).code ∈ Opcode.short) (hf : (a.node l).first = some r) (hr : (b.node r).code = .not)
    (hy : Road S a root y ∧ y ≠ l) (hslide : Slide a b k y z) : z ≠ l := by
  obtain ⟨hpass, hkeep⟩ := h.fence hT hl hs hf hr
  induction hslide with
  | stop hg =>
    cases hg with
    | self => exact hy.2
    | taken hq =>
      rintro rfl
      have hfirst := hq.first
      rw [hf] at hfirst
      cases hfirst
      rw [hq.null] at hr
      cases hr
  | pass hx hn _ ih => exact ih (hpass _ _ hy hx hn)
  | keep hg _ hm hn _ ih => exact ih (hkeep _ _ _ hy hg hm hn)
  | drop _ _ _ _ _ hsolid =>
    rintro rfl
    exact short_notMem_solid hs hsolid.code

end Fates

theorem rel_mono {α β : Type} {R R' : α → β → Prop} {x : Option α} {y : Option β} (h : Option.Rel R x y)
    (hR : ∀ u v, R u v → R' u v) : Option.Rel R' x y := by
  cases h with
  | some h => exact .some (hR _ _ h)
  | none => exact .none

structure Linkwise (b c : Arena) : Prop where
  size : c.recs.size = b.recs.size
  node : ∀ r, c.node r =
    { b.node r with next := (c.node r).next, real := (c.node r).real, other := (c.node r).other,
                    processed := (c.node r).processed }
  marks : ∀ r, (b.node r).processed = true → (c.node r).processed = true

theorem Linkwise.refl (b : Arena) : Linkwise b b := ⟨rfl, fun _ => rfl, fun _ h => h⟩

theorem Linkwise.code (h : Linkwise b c) (r : RecId) : (c.node r).code = (b.node r).code := by rw [h.node r]

theorem linkwise_update {r : RecId} {f : Node → Node}
    (hf : ∀ n, f n = { n with next := (f n).next, real := (f n).real, other := (f n).other, processed := (f n).processed })
    (hm : ∀ n, n.processed = true → (f n).processed = true) : Linkwise b (b.update r f) where
  size := size_update b r f
  node q := by
    rcases node_update_cases (a := b) (r := r) (f := f) q with hq | ⟨-, hq⟩
    · rw [hq]
    · rw [hq]
      exact hf _
  marks q hq := by
    rcases node_update_cases (a := b) (r := r) (f := f) q with he | ⟨-, he⟩
    · rwa [he]
    · rw [he]
      exact hm _ hq

theorem Fate.linkwise {r : RecId} (h : Fate a b r) (hc : Linkwise b c) : Fate a c r := by
  have hplain : (c.node r).plain = (b.node r).plain := by
    rw [hc.node r]
    rfl
  cases h with
  | plain h => exact .plain (hplain.trans h)
  | turned q h hp => exact .turned q (h.congr (hc.code q) (hc.code r)) (by rw [hplain, hp, hc.code])
  | absorbed l h => exact .absorbed l (h.congr (hc.code r) (hc.code l))
  | fallen pm ret h hr => exact .fallen pm ret ⟨h.tail, h.code, (hc.code pm).trans h.mark, (hc.code ret).trans h.null⟩ hr

theorem Traced.linkwise (h : Traced S a root start ps b) (hc : Linkwise b c)
    (hnext : ∀ p, Road S a root p → (∀ l, ¬ Absorbs a b p l) →
      Option.Rel (Slide a b (c.node p).known) (a.node p).next (c.node p).next)
    (habsorbed : ∀ r l, Absorbs a b r l → (c.node r).next = (b.node r).next)
    (hother : ∀ p, Road S a root p → Option.Rel (Slide a b none) (a.node p).other (c.node p).other)
    (hhead : ∃ z, ps'.start = some z ∧ Slide a b none start z) (hfailure : ps'.failure? = none)
    (hbefore : ∀ l ∈ (a.tree root).recs, (a.node l).code ∈ short → ∀ r, (a.node l).first = some r → (a.node r).code = .not →
      (c.node l).processed = true → (c.node r).processed = true) : Traced S a root start ps' c where
  size := hc.size.trans h.size
  first r := by
    rw [hc.node r]
    exact h.first r
  sib r := by
    rw [hc.node r]
    exact h.sib r
  want r := by
    rw [hc.node r]
    exact h.want r
  fate r := (h.fate r).linkwise hc
  next p hp ha := by
    refine rel_mono (hnext p hp fun l hl => ha l ((Absorbs.of_codes hc.code).mpr hl)) ?_
    exact fun y z hz => hz.recode hc.code
  absorbed r l hl := by
    have hb := (Absorbs.of_codes hc.code).mp hl
    obtain ⟨hn, hm⟩ := h.absorbed r l hb
    exact ⟨(habsorbed r l hb).trans hn, hc.marks r hm⟩
  other p hp := rel_mono (hother p hp) fun y z hz => hz.recode hc.code
  head := hhead.imp fun z hz => ⟨hz.1, hz.2.recode hc.code⟩
  failure := hfailure
  before := hbefore

theorem Traced.of_start (h : Traced S a root start ps b) (hs : ps'.start = ps.start) (hf : ps'.failure? = ps.failure?) :
    Traced S a root start ps' b :=
  { h with head := hs ▸ h.head, failure := hf ▸ h.failure }

end Peep

end OpTree
