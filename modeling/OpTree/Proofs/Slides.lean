import OpTree.Proofs.Rewrites

/-!
# Sliding along the order of execution

The optimizer leads ops past others: past ops that do nothing, past ops that it has made do nothing, and past
short-circuit ops whose answer is known from the one before. Where an op led at first and where it leads afterwards
are related by a slide.
-/

namespace OpTree

set_option autoImplicit false

namespace Opcode

/-- The ops that answer by the value on top of the stack and may leave it there. -/
def short : List Opcode := [.and, .or, .dor]

/-- The ops at which an arm of a branching op may start. Control is never led past one of them, but for the mark of
a return at the end of a sub. -/
def solid : List Opcode := [.const, .padsv, .gv, .stub, .pushmark, .nextstate, .unstack]

def Opposite (t t' : Opcode) : Prop := t = .and ∧ t' = .or ∨ t = .or ∧ t' = .and

theorem Opposite.symm {t t' : Opcode} (h : Opposite t t') : Opposite t' t :=
  h.elim (fun h => Or.inr ⟨h.2, h.1⟩) fun h => Or.inl ⟨h.2, h.1⟩

theorem Opposite.short {t t' : Opcode} (h : Opposite t t') : t ∈ Opcode.short := by
  rcases h with ⟨rfl, -⟩ | ⟨rfl, -⟩ <;> decide

theorem Opposite.ne {t t' : Opcode} (h : Opposite t t') : t ≠ t' := by
  rcases h with ⟨rfl, rfl⟩ | ⟨rfl, rfl⟩ <;> decide

theorem short_notMem_solid {t : Opcode} (h : t ∈ short) : t ∉ solid := by
  revert t
  decide

end Opcode

namespace Arena

open Opcode

variable {a b c : Arena} {k : Option Opcode} {w x y z : RecId}

/-- The negation `r` has become part of the short-circuit op `l` behind it. -/
structure Absorbs (a b : Arena) (r l : RecId) : Prop where
  code : (a.node r).code = .not
  null : (b.node r).code = .null
  next : (a.node r).next = some l
  first : (a.node l).first = some r
  opposite : Opposite (a.node l).code (b.node l).code
  want : (a.node l).want = .void

/-- The return `ret` at the end of a sub and the mark of its items do nothing any more. -/
structure Falls (a b : Arena) (pm ret : RecId) : Prop where
  tail : Peep.tailReturnOf? a pm = some ret
  code : (a.node pm).code = .pushmark
  mark : (b.node pm).code = .null
  null : (b.node ret).code = .null

/-- An op that was there before and is not part of another one now, or has taken a negation in. -/
inductive Gate (a b : Arena) : RecId → RecId → Prop where
  | self {l : RecId} (h : ∀ r, ¬ Absorbs a b r l) : Gate a b l l
  | taken {r l : RecId} (h : Absorbs a b r l) : Gate a b r l

/-- An op that does nothing now and is no negation that another op has taken in. -/
def Idle (a b : Arena) (r : RecId) : Prop :=
  (a.node r).transparent = true ∨ ∃ pm ret, Falls a b pm ret ∧ (r = pm ∨ r = ret)

structure Solid (a : Arena) (z : RecId) : Prop where
  code : (a.node z).code ∈ Opcode.solid
  tail : Peep.tailReturnOf? a z = none

/-- Control that has come to an op of `a` may as well be at an op of `b`. If a short-circuit op of the code `k` has
just kept the value on top, the next ones need not look at it. -/
inductive Slide (a b : Arena) (k : Option Opcode) : RecId → RecId → Prop where
  | stop {y z : RecId} (hg : Gate a b y z) : Slide a b k y z
  | pass {x y z : RecId} (hx : Idle a b x) (hn : (a.node x).next = some y) (h : Slide a b k y z) : Slide a b k x z
  /-- The next op would keep the value, too. -/
  | keep {x l y z : RecId} (hg : Gate a b x l) (hk : k = some (b.node l).code) (hs : (b.node l).code ∈ short)
      (hn : (a.node l).next = some y) (h : Slide a b k y z) : Slide a b k x z
  /-- The next op would drop the value. -/
  | drop {t : Opcode} {x l z : RecId} (hg : Gate a b x l) (hk : k = some t) (ho : Opposite t (b.node l).code)
      (hw : (a.node l).want = .void) (hn : (a.node l).other = some z) (hz : Solid a z) : Slide a b k x z

theorem Absorbs.congr {r l : RecId} (h : Absorbs a b r l) (hr : (c.node r).code = (b.node r).code)
    (hl : (c.node l).code = (b.node l).code) : Absorbs a c r l :=
  ⟨h.code, hr.trans h.null, h.next, h.first, hl ▸ h.opposite, h.want⟩

theorem Absorbs.of_codes {r l : RecId} (hc : ∀ q, (c.node q).code = (b.node q).code) :
    Absorbs a c r l ↔ Absorbs a b r l :=
  ⟨fun h => h.congr (hc r).symm (hc l).symm, fun h => h.congr (hc r) (hc l)⟩

theorem Solid.not_absorbs {l : RecId} (h : Solid a w) : ¬ Absorbs a b w l := by
  intro hl
  have hw := h.code
  rw [hl.code] at hw
  exact absurd hw (by decide)

theorem Solid.not_takes {r : RecId} (h : Solid a w) : ¬ Absorbs a b r w :=
  fun hr => short_notMem_solid hr.opposite.short h.code

theorem Solid.not_idle (h : Solid a w) : ¬ Idle a b w := by
  rintro (ht | ⟨pm, ret, hf, rfl | rfl⟩)
  · have hw := h.code
    simp only [solid, List.mem_cons, List.not_mem_nil, or_false] at hw
    rcases hw with hw | hw | hw | hw | hw | hw | hw <;> rw [Node.transparent, hw] at ht <;> cases ht
  · have ht := hf.tail
    rw [h.tail] at ht
    cases ht
  · have hw := h.code
    rw [(Peep.tailReturnOf_some hf.tail).1] at hw
    exact absurd hw (by decide)

/-- Control stays at a solid op, as long as nothing is known of the value on top. -/
theorem Slide.of_solid (h : Slide a b none w z) (hw : Solid a w) : z = w := by
  cases h with
  | stop hg =>
    cases hg with
    | self => rfl
    | taken hl => exact absurd hl hw.not_absorbs
  | pass hx => exact absurd hx hw.not_idle
  | keep _ hk => cases hk
  | drop _ hk => cases hk

theorem Slide.weaken (h : Slide a b none y z) : Slide a b k y z := by
  induction h with
  | stop hg => exact .stop hg
  | pass hx hn _ ih => exact .pass hx hn ih
  | keep _ hk => cases hk
  | drop _ hk => cases hk

theorem Slide.trans (h : Slide a b k y w) (hw : ¬ Solid a w) (hz : ∀ x, Gate a b x w → Slide a b k x z) :
    Slide a b k y z := by
  induction h with
  | stop hg => exact hz _ hg
  | pass hx hn _ ih => exact .pass hx hn (ih hw hz)
  | keep hg hk hs hn _ ih => exact .keep hg hk hs hn (ih hw hz)
  | drop _ _ _ _ _ hsolid => exact absurd hsolid hw

theorem Slide.congr {V : RecId → Prop} (h : Slide a b k y z) (hy : V y)
    (hpass : ∀ x y, V x → Idle a b x → (a.node x).next = some y → V y)
    (hkeep : ∀ x l y, V x → Gate a b x l → (b.node l).code ∈ short → (a.node l).next = some y → V y)
    (hgate : ∀ x l, V x → Gate a b x l → Gate a c x l) (hidle : ∀ x, V x → Idle a b x → Idle a c x)
    (hcode : ∀ x l, V x → Gate a b x l → (b.node l).code ∈ short → (c.node l).code = (b.node l).code) :
    Slide a c k y z := by
  induction h with
  | stop hg => exact .stop (hgate _ _ hy hg)
  | pass hx hn _ ih => exact .pass (hidle _ hy hx) hn (ih (hpass _ _ hy hx hn))
  | keep hg hk hs hn _ ih =>
    have hc := hcode _ _ hy hg hs
    exact .keep (hgate _ _ hy hg) (hc ▸ hk) (hc ▸ hs) hn (ih (hkeep _ _ _ hy hg hs hn))
  | drop hg hk ho hw hn hz =>
    have hc := hcode _ _ hy hg ho.symm.short
    exact .drop (hgate _ _ hy hg) hk (hc ▸ ho) hw hn hz

theorem Gate.recode {x l : RecId} (h : Gate a b x l) (hc : ∀ q, (c.node q).code = (b.node q).code) : Gate a c x l := by
  cases h with
  | self h => exact .self fun r hr => h r ((Absorbs.of_codes hc).mp hr)
  | taken h => exact .taken ((Absorbs.of_codes hc).mpr h)

theorem Slide.recode (h : Slide a b k y z) (hc : ∀ q, (c.node q).code = (b.node q).code) : Slide a c k y z := by
  refine h.congr (V := fun _ => True) trivial (fun _ _ _ _ _ => trivial) (fun _ _ _ _ _ _ _ => trivial)
    (fun _ _ _ hg => hg.recode hc) (fun x _ hx => ?_) fun _ l _ _ _ => hc l
  refine hx.imp_right ?_
  rintro ⟨pm, ret, hf, hr⟩
  exact ⟨pm, ret, ⟨hf.tail, hf.code, (hc pm).trans hf.mark, (hc ret).trans hf.null⟩, hr⟩

end Arena

end OpTree
