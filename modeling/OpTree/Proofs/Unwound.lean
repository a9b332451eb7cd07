import OpTree.Proofs.Compiled
import OpTree.Proofs.Folds
import Mathlib.Logic.Relation

/-!
# Leaving loops

The loops that a run has open are those around the op that it comes to. So every loop that is entered is
left again, at its end or by a return, and the slot of its variable then holds what it held before.
-/

namespace OpTree

set_option autoImplicit false

namespace Machine

/-- The slots of the open loops, innermost first, each with what it held before. -/
def saves (m : Machine) : List (Int × PadSlot) := m.loops.map fun l => (l.targ, l.saved)

def SlotHas (m : Machine) (targ : Int) (s : PadSlot) : Prop := 0 ≤ targ ∧ m.pad[targ.toNat]? = some s

theorem length_saves (m : Machine) : m.saves.length = m.loops.length := List.length_map _

theorem spares_aside : Spares fun m m' => m'.pad = m.pad ∧ m'.loops = m.loops where
  refl _ := ⟨rfl, rfl⟩
  trans h h' := ⟨h'.1.trans h.1, h'.2.trans h.2⟩
  stack _ _ _ _ _ := ⟨rfl, rfl⟩
  notes _ _ _ _ _ _ := ⟨rfl, rfl⟩
  heap _ _ _ := ⟨rfl, rfl⟩

theorem spares_saves : Spares fun m m' => m'.saves = m.saves where
  refl _ := rfl
  trans h h' := h'.trans h
  stack _ _ _ _ _ := rfl
  notes _ _ _ _ _ _ := rfl
  heap _ _ _ := rfl

/-- Neither a variable nor a round of a loop changes what the loops have to restore. -/
theorem assigns_saves (names? : Option Pad) : Assigns names? fun m m' => m'.saves = m.saves where
  scalar _ _ _ _ := rfl
  fresh _ _ _ := rfl
  advance m l rest cur hl := by
    rw [saves, saves, hl]
    rfl

end Machine

namespace Exec

open Machine

variable {m m' : Machine}

theorem padSlot_ok {targ : Int} {s : PadSlot} (h : padSlot targ m = .ok s m') : m.SlotHas targ s ∧ m' = m := by
  obtain ⟨m₁, m₂, hget, h⟩ := bind_eq_ok.mp h
  cases hget
  split at h
  · cases h
  · rename_i ht
    cases hp : m.pad[targ.toNat]? with
    | none =>
      rw [hp] at h
      cases h
    | some c =>
      rw [hp] at h
      cases h
      exact ⟨⟨Int.not_lt.mp ht, hp⟩, rfl⟩

theorem setPadSlot_ok {targ : Int} {s : PadSlot} {v : Unit} (h : setPadSlot targ s m = .ok v m') :
    m'.SlotHas targ s ∧ (∀ t c, t ≠ targ → m.SlotHas t c → m'.SlotHas t c) ∧ m'.loops = m.loops := by
  obtain ⟨m₁, m₂, hget, h⟩ := bind_eq_ok.mp h
  cases hget
  split at h
  · cases h
  · rename_i ht
    cases h
    rw [Bool.or_eq_true, decide_eq_true_iff, decide_eq_true_iff, not_or] at ht
    refine ⟨⟨by omega, ?_⟩, fun t c hne hc => ⟨hc.1, ?_⟩, rfl⟩
    · exact Array.getElem?_setIfInBounds_self_of_lt (by omega)
    · have hnat : targ.toNat ≠ t.toNat := by
        have hpos := hc.1
        omega
      exact (Array.getElem?_setIfInBounds_ne hnat).trans hc.2

theorem resetStack_height {sp : Nat} {v : Unit} (h : resetStack sp m = .ok v m') : m'.height = sp := by
  obtain ⟨m₁, m₂, hget, h⟩ := bind_eq_ok.mp h
  cases hget
  split at h
  · cases h
    rfl
  · split at h
    · cases h
      rfl
    · cases h

theorem enterLoop_ok {o : Node} {v : Unit} (h : enterLoop o m = .ok v m') :
    ∃ s, m.SlotHas o.targ s ∧ m'.saves = (o.targ, s) :: m.saves := by
  obtain ⟨hi, m₁, h₁, h⟩ := bind_eq_ok.mp h
  obtain ⟨lo, m₂, h₂, h⟩ := bind_eq_ok.mp h
  obtain ⟨cur, m₃, h₃, h⟩ := bind_eq_ok.mp h
  obtain ⟨top, m₄, h₄, h⟩ := bind_eq_ok.mp h
  obtain ⟨s, m₅, h₅, h⟩ := bind_eq_ok.mp h
  cases h
  obtain ⟨hs, rfl⟩ := padSlot_ok h₅
  have hrest := spares_aside.trans
    (spares_aside.trans ((within_popScalar spares_aside).of_ok h₁) ((within_popScalar spares_aside).of_ok h₂))
    (spares_aside.trans ((within_toInt spares_aside lo _).of_ok h₃) ((within_toInt spares_aside hi _).of_ok h₄))
  rw [SlotHas, hrest.1] at hs
  refine ⟨s, hs, ?_⟩
  rw [saves, saves, ← hrest.2]
  rfl

theorem leaveLoop_ok {v : Unit} (h : leaveLoop m = .ok v m') :
    ∃ t s, m.saves = (t, s) :: m'.saves ∧ m'.SlotHas t s ∧ ∀ t' c, t' ≠ t → m.SlotHas t' c → m'.SlotHas t' c := by
  obtain ⟨m₁, m₂, hget, h⟩ := bind_eq_ok.mp h
  cases hget
  cases hl : m.loops with
  | nil =>
    rw [hl] at h
    cases h
  | cons l rest =>
    rw [hl] at h
    obtain ⟨⟨⟩, m₃, hclose, h⟩ := bind_eq_ok.mp h
    cases hclose
    obtain ⟨⟨⟩, m₄, hset, h⟩ := bind_eq_ok.mp h
    obtain ⟨hhas, hother, hloops⟩ := setPadSlot_ok hset
    have hrest := (within_resetStack spares_aside l.height).of_ok h
    refine ⟨l.targ, l.saved, ?_, ?_, fun t' c hne hc => ?_⟩
    · rw [saves, saves, hl, hrest.2, hloops]
      rfl
    · rw [SlotHas, hrest.1]
      exact hhas
    · rw [SlotHas, hrest.1]
      exact hother t' c hne hc

theorem leaveLoops_ok {n : Nat} {v : Unit} (h : leaveLoops n m = .ok v m') (hn : m.loops.length = n) :
    m'.saves = [] ∧ (∀ t c, t ∉ m.saves.map Prod.fst → m.SlotHas t c → m'.SlotHas t c) ∧
      ((m.saves.map Prod.fst).Nodup → ∀ p ∈ m.saves, m'.SlotHas p.1 p.2) := by
  rw [← length_saves] at hn
  induction n generalizing m with
  | zero =>
    cases h
    have hnil := List.length_eq_zero_iff.mp hn
    exact ⟨hnil, fun _ _ _ hc => hc, fun _ p hp => by simp [hnil] at hp⟩
  | succ n ih =>
    obtain ⟨⟨⟩, m₁, hleave, h⟩ := bind_eq_ok.mp h
    obtain ⟨t, s, hsaves, hhas, hother⟩ := leaveLoop_ok hleave
    rw [hsaves] at hn ⊢
    obtain ⟨hnil, hkeep, hall⟩ := ih h (Nat.succ.inj hn)
    rw [List.map_cons]
    refine ⟨hnil, fun t' c ht' hc => ?_, fun hd p hp => ?_⟩
    · rw [List.mem_cons, not_or] at ht'
      exact hkeep t' c ht'.2 (hother t' c ht'.1 hc)
    · rw [List.nodup_cons] at hd
      -- the innermost slot is not touched by the loops around it
      rcases List.mem_cons.mp hp with rfl | hp
      · exact hkeep t s hd.1 hhas
      · exact hall hd.2 p hp

theorem returnSub_ok {q : Option RecId} (h : returnSub m = .ok q m') :
    m'.saves = [] ∧ ((m.saves.map Prod.fst).Nodup → ∀ p ∈ m.saves, m'.SlotHas p.1 p.2) := by
  obtain ⟨mark, m₁, h₁, h⟩ := bind_eq_ok.mp h
  obtain ⟨xs, m₂, h₂, h⟩ := bind_eq_ok.mp h
  obtain ⟨_, _, hget, h⟩ := bind_eq_ok.mp h
  cases hget
  obtain ⟨⟨⟩, m₃, h₃, h⟩ := bind_eq_ok.mp h
  obtain ⟨⟨⟩, m₄, h₄, h⟩ := bind_eq_ok.mp h
  obtain ⟨⟨⟩, m₅, h₅, h⟩ := bind_eq_ok.mp h
  obtain ⟨_, _, hget, h⟩ := bind_eq_ok.mp h
  cases hget
  have hbefore := spares_aside.trans ((within_popMark spares_aside).of_ok h₁)
    ((within_itemsFrom spares_aside mark).of_ok h₂)
  obtain ⟨hnil, -, hall⟩ := leaveLoops_ok h₃ rfl
  have hafter : m'.pad = m₃.pad ∧ m'.loops = m₃.loops := by
    refine spares_aside.trans (spares_aside.trans ((within_resetStack spares_aside 0).of_ok h₄)
      ((within_forM spares_aside fun x => within_push spares_aside x).of_ok h₅)) ?_
    cases hl : m₅.leave with
    | some r =>
      rw [hl] at h
      cases h
      exact ⟨rfl, rfl⟩
    | none =>
      rw [hl] at h
      obtain ⟨⟨⟩, m₆, h₆, h⟩ := bind_eq_ok.mp h
      cases h
      exact (within_leaveSub spares_aside).of_ok h₆
  rw [saves, hbefore.2, ← saves] at hall
  rw [saves, hafter.2]
  refine ⟨hnil, fun hd p hp => ?_⟩
  rw [SlotHas, hafter.1]
  exact hall hd p hp

theorem leaveSub_height {v : Unit} (h : leaveSub m = .ok v m') (hm : m.loops = []) : m'.height = 0 := by
  obtain ⟨floor, m₁, hbase, h⟩ := bind_eq_ok.mp h
  have hfloor : floor = 0 := by
    obtain ⟨_, _, hget, hbase⟩ := bind_eq_ok.mp hbase
    cases hget
    rw [hm] at hbase
    cases hbase
    rfl
  obtain ⟨xs, m₂, -, h⟩ := bind_eq_ok.mp h
  obtain ⟨m₃, _, -, h⟩ := bind_eq_ok.mp h
  have hend : ∀ {vs : List Value} {m₅ : Machine}, (do
      modify fun m => { m with result := vs }
      resetStack floor : Exec Unit) m₅ = .ok v m' → m'.height = 0 := by
    intro vs m₅ h
    obtain ⟨_, _, -, h⟩ := bind_eq_ok.mp h
    rw [resetStack_height h, hfloor]
  cases hg : m₃.gimme <;> rw [hg] at h
  case void => exact hend h
  all_goals
    obtain ⟨vs, m₅, -, h⟩ := bind_eq_ok.mp h
    exact hend h

/-- What an op does to the open loops and to their variables. -/
def Shifts (n : Node) (m m' : Machine) : Prop :=
  match n.code with
  | .enteriter => ∃ s, m.SlotHas n.targ s ∧ m'.saves = (n.targ, s) :: m.saves
  | .leaveloop => ∃ t s, m.saves = (t, s) :: m'.saves ∧ m'.SlotHas t s
  | .ret => m'.saves = [] ∧ ((m.saves.map Prod.fst).Nodup → ∀ p ∈ m.saves, m'.SlotHas p.1 p.2)
  | _ => m'.saves = m.saves

theorem step_shifts {names? : Option Pad} {n : Node} {q : Option RecId} (h : step names? n m = .ok q m') :
    Shifts n m m' := by
  unfold Shifts
  split
  · rename_i hc
    simp only [step, hc] at h
    obtain ⟨v, m₁, h, hq⟩ := bind_eq_ok.mp h
    cases hq
    exact enterLoop_ok h
  · rename_i hc
    simp only [step, hc] at h
    obtain ⟨v, m₁, h, hq⟩ := bind_eq_ok.mp h
    cases hq
    obtain ⟨t, s, hsaves, hs, -⟩ := leaveLoop_ok h
    exact ⟨t, s, hsaves, hs⟩
  · rename_i hc
    rw [step_ret names? n hc] at h
    exact returnSub_ok h
  · rename_i he hl hr
    exact (within_step_of_flat spares_saves (assigns_saves names?) n ⟨he, hl, hr⟩).of_ok h

theorem Shifts.leads {n : Node} {before after : List Int} (h : Shifts n m m') (hr : n.code ≠ .ret)
    (hn : n.turn.Leads before after) (hm : m.saves.map Prod.fst = before) : m'.saves.map Prod.fst = after := by
  unfold Shifts at h
  split at h
  · obtain ⟨s, -, hsaves⟩ := h
    rw [Node.turn_eq_opens.mpr ⟨‹_›, rfl⟩] at hn
    rw [hsaves, List.map_cons, hm]
    exact hn.symm
  · obtain ⟨t, s, hsaves, -⟩ := h
    rw [Node.turn_eq_closes.mpr ‹_›] at hn
    obtain ⟨s, rfl⟩ := hn
    rw [hsaves, List.map_cons] at hm
    exact (List.cons.inj hm).2
  · exact absurd ‹_› hr
  · rename_i he hl _
    rw [Node.turn_of_ne he hl] at hn
    rw [h, hm]
    exact hn.symm

/-- An open loop stays open, or the op ends it, or the sub returns. Whichever way it is left, its variable is
restored. -/
theorem Shifts.below {n : Node} {p : Int × PadSlot} {inner outer : List (Int × PadSlot)} (h : Shifts n m m')
    (hm : m.saves = inner ++ p :: outer) :
    (∃ inner', m'.saves = inner' ++ p :: outer) ∨
      n.code = .leaveloop ∧ m'.saves = outer ∧ m'.SlotHas p.1 p.2 ∨
      n.code = .ret ∧ m'.saves = [] ∧ ((m.saves.map Prod.fst).Nodup → m'.SlotHas p.1 p.2) := by
  unfold Shifts at h
  split at h
  · obtain ⟨s, -, hsaves⟩ := h
    exact Or.inl ⟨_ :: inner, by rw [hsaves, hm, List.cons_append]⟩
  · obtain ⟨t, s, hsaves, hs⟩ := h
    rw [hm] at hsaves
    cases inner with
    | nil =>
      obtain ⟨rfl, hrest⟩ := List.cons.inj hsaves
      exact Or.inr (Or.inl ⟨‹_›, hrest.symm, hs⟩)
    | cons p' inner => exact Or.inl ⟨inner, (List.cons.inj hsaves).2.symm⟩
  · exact Or.inr (Or.inr ⟨‹_›, h.1, fun hd => h.2 hd p (by simp [hm])⟩)
  · exact Or.inl ⟨inner, h.trans hm⟩

/-- A run at one moment: the op that comes next, if there is one, and the machine. -/
abbrev Moment := Option RecId × Machine

/-- One op of a run. -/
def Next (code : Code) (c d : Moment) : Prop :=
  ∃ r, c.1 = some r ∧ step code.names? (code.node r) { c.2 with steps := c.2.steps + 1 } = .ok d.1 d.2

/-- A run comes from one moment to another. -/
def Reaches (code : Code) : Moment → Moment → Prop := Relation.ReflTransGen (Next code)

/-- A run comes from one moment to a later one, with more loops open all the way than there were at first. -/
def Inside (code : Code) (c : Moment) : Moment → Prop :=
  Relation.TransGen (fun x y => Next code x y ∧ c.2.loops.length < y.2.loops.length) c

/-- A loop that is entered in `c` is left by the op of `d`. -/
structure Spans (code : Code) (c d d' : Moment) : Prop where
  inside : Inside code c d
  next : Next code d d'
  left : d'.2.loops.length ≤ c.2.loops.length

variable {code : Code} {c d d' : Moment}

theorem Next.unique (h : Next code c d) (h' : Next code c d') : d = d' := by
  obtain ⟨r, hr, hd⟩ := h
  obtain ⟨r', hr', hd'⟩ := h'
  cases hr.symm.trans hr'
  obtain ⟨hq, hm⟩ := EStateM.Result.ok.inj (hd.symm.trans hd')
  exact Prod.ext hq hm

theorem reaches_of_run {fuel : Nat} {s : Option RecId} {v : Unit} (h : run code fuel s m = .ok v m') :
    Reaches code (s, m) (none, m') := by
  induction fuel generalizing s m with
  | zero =>
    cases s with
    | none =>
      cases h
      exact .refl
    | some r => cases h
  | succ fuel ih =>
    cases s with
    | none =>
      cases h
      exact .refl
    | some r =>
      obtain ⟨⟨⟩, m₁, hcount, h⟩ := bind_eq_ok.mp h
      cases hcount
      obtain ⟨q, m₂, hstep, h⟩ := bind_eq_ok.mp h
      exact Relation.ReflTransGen.head ⟨r, rfl, hstep⟩ (ih h)

theorem Reaches.rest (h : Reaches code c d) (hend : Reaches code c (none, m')) : Reaches code d (none, m') := by
  have hunique : Relator.RightUnique (Next code) := fun _ _ _ hd hd' => hd.unique hd'
  rcases Relation.ReflTransGen.total_of_right_unique hunique h hend with hrest | hback
  · exact hrest
  · rcases Relation.ReflTransGen.cases_head hback with rfl | ⟨e, ⟨r, hr, -⟩, -⟩
    · exact .refl
    · cases hr

theorem exists_reaches {fuel : Nat} {s : Option RecId} {r : RecId} (h : r ∈ trace code fuel s m) :
    ∃ m₁, Reaches code (s, m) (some r, m₁) := by
  induction fuel generalizing s m with
  | zero => cases h
  | succ fuel ih =>
    cases s with
    | none => cases h
    | some x =>
      rw [trace, List.mem_cons] at h
      rcases h with rfl | h
      · exact ⟨m, .refl⟩
      · split at h
        · obtain ⟨m₁, hreach⟩ := ih h
          exact ⟨m₁, Relation.ReflTransGen.head ⟨x, rfl, ‹_›⟩ hreach⟩
        · cases h

theorem Next.shifts {r : RecId} (h : Next code c d) (hr : c.1 = some r) : Shifts (code.node r) c.2 d.2 := by
  obtain ⟨r', hr', hstep⟩ := h
  cases hr.symm.trans hr'
  have hshift := step_shifts hstep
  exact hshift

theorem Inside.exists_spans {e : Moment} (h : Inside code c d) (hopen : c.2.loops.length < d.2.loops.length)
    (hend : e.2.loops.length ≤ c.2.loops.length) (hreach : Reaches code d e) : ∃ x y, Spans code c x y := by
  induction hreach using Relation.ReflTransGen.head_induction_on with
  | refl => exact absurd hend (Nat.not_le.mpr hopen)
  | @head x y hnext _ ih =>
    by_cases hleft : y.2.loops.length ≤ c.2.loops.length
    · exact ⟨x, y, h, hnext, hleft⟩
    · have hlt := Nat.not_le.mp hleft
      exact ih (h.tail ⟨hnext, hlt⟩) hlt

theorem Inside.reaches (h : Inside code c d) : Reaches code c d := by
  refine Relation.TransGen.to_reflTransGen ?_
  exact Relation.TransGen.mono (p := Next code) (fun _ _ hn => hn.1) c d h

section Entered

variable {r : RecId} (hc : c.1 = some r) (he : (code.node r).code = .enteriter)

include hc he

theorem Next.enters (h : Next code c d) :
    ∃ s, c.2.SlotHas (code.node r).targ s ∧ d.2.saves = ((code.node r).targ, s) :: c.2.saves := by
  have hshift := h.shifts hc
  rwa [Shifts, he] at hshift

/-- Inside of a loop that was entered in `c`, the loop is open below those that were entered later. -/
theorem Inside.saves (h : Inside code c d) : ∃ s, c.2.SlotHas (code.node r).targ s ∧
    ∃ inner, d.2.saves = inner ++ ((code.node r).targ, s) :: c.2.saves := by
  induction h with
  | single hnext =>
    obtain ⟨s, hs, hd⟩ := hnext.1.enters hc he
    exact ⟨s, hs, [], hd⟩
  | @tail x y _ hxy ih =>
    obtain ⟨hnext, hlt⟩ := hxy
    obtain ⟨q, hq, -⟩ := id hnext
    obtain ⟨s, hs, inner, hx⟩ := ih
    rw [← length_saves, ← length_saves] at hlt
    -- with as few loops as in `c` the run would not be inside any more
    rcases (hnext.shifts hq).below hx with hy | ⟨-, hy, -⟩ | ⟨-, hy, -⟩
    · exact ⟨s, hs, hy⟩
    · rw [hy] at hlt
      exact absurd hlt (Nat.lt_irrefl _)
    · rw [hy] at hlt
      cases hlt

end Entered

/-- How a loop is left whose variable is in a slot: by the op that ends it, which leaves the loops around it
open, or by a return, which leaves all loops. In both cases the slot holds the same container as before. -/
structure Restores (code : Code) (slot : Int) (c d d' : Moment) : Prop where
  op : ∃ r, d.1 = some r ∧ ((code.node r).code = .leaveloop ∧ d'.2.saves = c.2.saves ∨
    (code.node r).code = .ret ∧ d'.2.loops = [])
  slot : ∃ s, c.2.SlotHas slot s ∧ d'.2.SlotHas slot s

theorem Spans.restores {r : RecId} (h : Spans code c d d') (hc : c.1 = some r)
    (he : (code.node r).code = .enteriter) (hd : (d.2.saves.map Prod.fst).Nodup) :
    Restores code (code.node r).targ c d d' := by
  obtain ⟨q, hq, -⟩ := id h.next
  have hleft := h.left
  rw [← length_saves, ← length_saves] at hleft
  obtain ⟨s, hs, inner, hinner⟩ := h.inside.saves hc he
  rcases (h.next.shifts hq).below hinner with ⟨inner', hd'⟩ | ⟨hcode, hd', hhas⟩ | ⟨hcode, hd', hhas⟩
  · rw [hd', List.length_append, List.length_cons] at hleft
    omega
  · exact ⟨⟨q, hq, Or.inl ⟨hcode, hd'⟩⟩, s, hs, hhas⟩
  · exact ⟨⟨q, hq, Or.inr ⟨hcode, List.map_eq_nil_iff.mp hd'⟩⟩, s, hs, hhas hd⟩

end Exec

namespace Peep

open Arena Exec Machine

variable {S : Course} {root : RecId} {ps : PeepState} {a : Arena} {names? : Option Pad} {c d d' : Moment}

/-- The loops that are open at a moment of a run are those around the op that comes next. When there is none,
all loops are closed and the stack is empty. -/
structure OnCourse (S : Course) (root : RecId) (a : Arena) (c : Moment) : Prop where
  leave : c.2.leave = some root
  next : ∀ r, c.1 = some r → r ∈ (a.tree root).recs ∧ S r ∧ c.2.saves.map Prod.fst = S.into r
  done : c.1 = none → c.2.saves = [] ∧ c.2.height = 0

theorem Tended.code_root (h : Tended S root ps a) : (a.node root).code = .leavesub := by
  have hc := h.wired.code_root
  rwa [root_tree] at hc

theorem Tended.into_root (h : Tended S root ps a) : S.into root = [] := by
  have hcode := h.code_root
  have htop := h.wired.top
  rw [root_tree] at htop
  rw [← h.wired.flat (mem_tree_root a root) (Node.turn_of_ne (by rw [hcode]; exact nofun) (by rw [hcode]; exact nofun))]
  exact htop

theorem Tended.eq_root (h : Tended S root ps a) {r : RecId} (hr : r ∈ (a.tree root).recs) (hS : S r)
    (hq : (a.node r).next = none ∨ (a.node r).code.branches = true ∧ (a.node r).other = none) : r = root := by
  rcases hq with hq | ⟨hb, hq⟩
  · by_contra hne
    refine h.wired.next r hr hS ?_ hq
    rwa [root_tree]
  · refine absurd hq (h.wired.arm r hr ?_)
    have hne : (a.node r).code ≠ .null := fun hc => by
      rw [hc] at hb
      cases hb
    rw [Opcode.branches_iff_logop] at hb
    simp [Node.opClass, Node.isEx, hne, hb]

theorem OnCourse.step (hc : OnCourse S root a c) (h : Tended S root ps a) (hS : S root)
    (hn : Next ⟨a.recs, names?⟩ c d) : OnCourse S root a d := by
  obtain ⟨r, hr, hstep⟩ := id hn
  obtain ⟨hmem, hlive, hlevel⟩ := hc.next r hr
  have hshift : Shifts (a.node r) c.2 d.2 := hn.shifts hr
  have hturn : (a.node r).turn.Leads (S.into r) (S.out r) := by
    obtain ⟨u, hu, rfl, hop⟩ := h.wired.subtree hmem
    rw [← Node.turn_plain, hop]
    exact h.wired.leveled.turns u hu
  refine ⟨((within_step (admits_leave names?) _).of_ok hstep).trans hc.leave, fun z hz => ?_, fun hend => ?_⟩
  · rcases step_next hstep with ⟨hret, hq⟩ | ⟨hret, hq⟩
    · obtain rfl : root = z := Option.some.inj (hc.leave.symm.trans (hq.symm.trans hz))
      have hret : (a.node r).code = .ret := hret
      rw [Shifts, hret] at hshift
      refine ⟨mem_tree_root a root, hS, ?_⟩
      rw [h.into_root, hshift.1]
      rfl
    · have hlink : a.Link r z := by
        rw [hz] at hq
        exact hq.imp Eq.symm fun hq => hq.2.symm
      have hland := h.wired.links r hmem hlive z hlink
      exact ⟨hland.mem, hland.live, (hshift.leads hret hturn hlevel).trans hland.level⟩
  -- only the op that ends the unit has nothing after it, and that op empties the stack
  · obtain rfl : r = root := by
      rcases step_next hstep with ⟨-, hq⟩ | ⟨-, hq⟩
      · rw [hend] at hq
        cases hq.trans hc.leave
      · rw [hend] at hq
        exact h.eq_root hmem hlive (hq.imp Eq.symm fun hq => ⟨hq.1, hq.2.symm⟩)
    have hcode : (a.node r).code = .leavesub := h.code_root
    rw [h.into_root, List.map_eq_nil_iff] at hlevel
    rw [Shifts, hcode] at hshift
    refine ⟨hshift.trans hlevel, ?_⟩
    replace hstep : Exec.step names? (a.node r) { c.2 with steps := c.2.steps + 1 } = .ok d.1 d.2 := hstep
    simp only [Exec.step, hcode] at hstep
    obtain ⟨v, m₁, hsub, hq⟩ := OpTree.bind_eq_ok.mp hstep
    obtain rfl : m₁ = d.2 := (EStateM.Result.ok.inj hq).2
    exact leaveSub_height hsub (List.map_eq_nil_iff.mp hlevel)

theorem OnCourse.reaches (hc : OnCourse S root a c) (h : Tended S root ps a) (hS : S root)
    (hr : Reaches ⟨a.recs, names?⟩ c d) : OnCourse S root a d := by
  induction hr with
  | refl => exact hc
  | tail _ hn ih => exact ih.step h hS hn

end Peep

namespace SubUnit

open Peep Exec

def setUp (u : SubUnit) (gimme : Want) (m : Machine) : Machine :=
  { m with gimme := gimme, leave := u.root, result := [] }

theorem run_ok {u : SubUnit} {fuel : Nat} {gimme : Want} {m m' : Machine} {vals : List Value}
    (h : u.run fuel gimme m = .ok vals m') : Exec.run u.code fuel u.start (u.setUp gimme m) = .ok () m' := by
  unfold run at h
  split at h
  · obtain ⟨⟨⟩, m₁, hset, h⟩ := bind_eq_ok.mp h
    cases hset
    obtain ⟨⟨⟩, m₂, hrun, h⟩ := bind_eq_ok.mp h
    cases h
    exact hrun
  · cases h

theorem Threaded.onCourse {u : SubUnit} {S : Course} {root : RecId} {gimme : Want} {m : Machine}
    (h : u.Threaded S root) (hm : m.loops = []) : OnCourse S root u.arena (u.start, u.setUp gimme m) := by
  obtain ⟨ps, hstart, ht⟩ := h.tended
  have hsaves : (u.setUp gimme m).saves = [] := List.map_eq_nil_iff.mpr hm
  refine ⟨h.root_eq, fun r hr => ?_, fun hnone => absurd (hstart.symm.trans hnone) ht.begun⟩
  have hland := ht.start r (hstart.symm.trans hr)
  refine ⟨hland.mem, hland.live, ?_⟩
  rw [hsaves]
  exact hland.level

end SubUnit

namespace Program

open Exec

/-- A run of a compiled unit that ends well leaves no loop open and nothing on the stack. Every loop that it
enters is left by the end of the loop or by a return, and leaves the slot of its variable as it was. -/
theorem run_unwound {name text : Bytes} {t : Tuning} {p : Program} (h : compile name text t = .ok p)
    {u : SubUnit} (hu : u ∈ p.units) {fuel : Nat} {gimme : Want} {m m' : Machine} {vals : List Value}
    (hm : m.loops = []) (hrun : u.run fuel gimme m = .ok vals m') :
    m'.loops = [] ∧ m'.height = 0 ∧
      ∀ (r : RecId) (m₁ : Machine), Reaches u.code (u.start, u.setUp gimme m) (some r, m₁) →
        (u.code.node r).code = .enteriter →
        (∃ d d', Spans u.code (some r, m₁) d d') ∧
        ∀ d d', Spans u.code (some r, m₁) d d' → Restores u.code (u.code.node r).targ (some r, m₁) d d' := by
  obtain ⟨S, root, hthread⟩ := compile_threaded h u hu
  obtain ⟨ps, -, ht⟩ := hthread.tended
  have hstart : Peep.OnCourse S root u.arena (u.start, u.setUp gimme m) := hthread.onCourse hm
  have hend := reaches_of_run (SubUnit.run_ok hrun)
  obtain ⟨hsaves, hheight⟩ := (hstart.reaches ht hthread.live hend).done rfl
  have hloops := List.map_eq_nil_iff.mp hsaves
  refine ⟨hloops, hheight, fun r m₁ hreach he => ⟨?_, fun d d' hspan => ?_⟩⟩
  · rcases Relation.ReflTransGen.cases_head (hreach.rest hend) with hnone | ⟨d, hn, hrest⟩
    · cases hnone
    · obtain ⟨s, -, hd⟩ := hn.enters rfl he
      have hlt : m₁.loops.length < d.2.loops.length := by
        rw [← Machine.length_saves, ← Machine.length_saves, hd]
        exact Nat.lt_succ_self _
      exact Inside.exists_spans (.single ⟨hn, hlt⟩) hlt (by rw [hloops]; exact Nat.zero_le _) hrest
  · have hcourse := (hstart.reaches ht hthread.live hreach).reaches ht hthread.live hspan.inside.reaches
    obtain ⟨q, hq, -⟩ := id hspan.next
    refine hspan.restores rfl he ?_
    rw [(hcourse.next q hq).2.2]
    exact S.distinct q

/-- A sub that returns from two loops at once. -/
theorem run_unwound_nested : ∃ p u m m' vals, compile (utf8 "t.pl")
      (utf8 "(sub main (foreach $i 0 2 (foreach $j 0 2 (return $i))))") {} = .ok p ∧ u ∈ p.units ∧
    m.loops = [] ∧ u.run 50 .scalar m = .ok vals m' ∧ m'.loops = [] ∧ m'.height = 0 ∧
    ∃ r m₁ d d', Reaches u.code (u.start, u.setUp .scalar m) (some r, m₁) ∧
      (u.code.node r).code = .enteriter ∧ Spans u.code (some r, m₁) d d' ∧
      Restores u.code (u.code.node r).targ (some r, m₁) d d' := by
  generalize hsrc : utf8 "(sub main (foreach $i 0 2 (foreach $j 0 2 (return $i))))" = text
  have hrun : (compile (utf8 "t.pl") text {}).toOption.map (fun p => p.units.any fun u =>
      yields (u.run 50 .scalar) { heap := Machine.initialHeap, pad := Array.replicate 3 (.scalar 0) }
        fun _ _ => (trace u.code 50 u.start (u.setUp .scalar
          { heap := Machine.initialHeap, pad := Array.replicate 3 (.scalar 0) })).any
            fun r => (u.code.node r).code = .enteriter) = some true := by
    subst hsrc
    decide +kernel
  generalize hstart : ({ heap := Machine.initialHeap, pad := Array.replicate 3 (.scalar 0) } : Machine) = m at hrun
  have hm : m.loops = [] := by rw [← hstart]
  cases hc : compile (utf8 "t.pl") text {} with
  | error why =>
    rw [hc] at hrun
    cases hrun
  | ok p =>
    rw [hc] at hrun
    obtain ⟨u, hu, hyields⟩ := Array.any_eq_true'.mp (Option.some.inj hrun)
    obtain ⟨vals, m', hok, htrace⟩ := ok_of_yields hyields
    obtain ⟨r, hr, he⟩ := List.any_eq_true.mp htrace
    obtain ⟨m₁, hreach⟩ := exists_reaches hr
    obtain ⟨hloops, hheight, hall⟩ := run_unwound hc hu hm hok
    have henter := of_decide_eq_true he
    obtain ⟨⟨d, d', hspan⟩, hrestores⟩ := hall r m₁ hreach henter
    exact ⟨p, u, m, m', vals, rfl, hu, hm, hok, hloops, hheight, r, m₁, d, d', hreach, henter, hspan,
      hrestores d d' hspan⟩

end Program

end OpTree
