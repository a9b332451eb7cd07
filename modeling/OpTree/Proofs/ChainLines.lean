import OpTree.Proofs.PrintedLines
import OpTree.Proofs.Units
import OpTree.Proofs.Resolved
import Mathlib.Data.List.Count

/-!
# Printed chains

A chain is searched breadth first: a path is followed until an op has no successor or was listed, and the
branches met on the way wait in a queue. Every op that is listed takes one new id, and every branch that waits
hangs on one of these, so the queue runs empty. What is not listed cannot be reached: a link of a listed op leads
to an op whose id was taken, and with distinct ids that is the op itself.
-/

namespace OpTree

set_option autoImplicit false

namespace ChainLine

def listed? : ChainLine → Option RecId
  | op r => some r
  | branch _ | jump _ => none

def listed (ls : List ChainLine) : List RecId := ls.filterMap listed?

/-- The section of a branch: where it starts, and the lines of its path. -/
def block (s : RecId × List ChainLine) : List ChainLine := branch s.1 :: s.2

theorem listed_append (ls ls' : List ChainLine) : listed (ls ++ ls') = listed ls ++ listed ls' :=
  List.filterMap_append

theorem mem_listed {ls : List ChainLine} {r : RecId} : r ∈ listed ls ↔ op r ∈ ls := by
  rw [listed, List.mem_filterMap]
  constructor
  · rintro ⟨l, hl, hr⟩
    cases l with
    | op q => exact Option.some.inj hr ▸ hl
    | branch q => cases hr
    | jump q => cases hr
  · exact fun h => ⟨op r, h, rfl⟩

theorem listed_snoc {ls : List ChainLine} {l : ChainLine} (hl : l.listed? = none) : listed (ls ++ [l]) = listed ls := by
  rw [listed_append, listed, listed, List.filterMap_cons_none hl, List.filterMap_nil, List.append_nil]

def Shows (ls : List ChainLine) (r : RecId) : Prop := op r ∈ ls ∨ jump r ∈ ls

theorem Shows.mono {ls ls' : List ChainLine} {r : RecId} (h : Shows ls r) (hsub : ls ⊆ ls') : Shows ls' r :=
  h.imp (fun hr => hsub hr) fun hr => hsub hr

theorem shows_append {ls ls' : List ChainLine} {r : RecId} : Shows (ls ++ ls') r ↔ Shows ls r ∨ Shows ls' r := by
  simp only [Shows, List.mem_append]
  exact or_or_or_comm

theorem shows_block {s : RecId × List ChainLine} {r : RecId} : Shows (block s) r ↔ Shows s.2 r := by
  simp [Shows, block]

theorem subset_blocks {s : RecId × List ChainLine} {ss : List (RecId × List ChainLine)} (hs : s ∈ ss) :
    s.2 ⊆ ss.flatMap block := fun _ hl => List.mem_flatMap.mpr ⟨s, hs, List.mem_cons_of_mem _ hl⟩

end ChainLine

namespace Arena

open ChainLine

variable {a : Arena} {seen : IdSet} {ls : List ChainLine} {r z : RecId} {start r? : Option RecId}

/-! ### What was listed -/

/-- Lines that were printed and the set of their ids: no id has two lines, and a jump is to an id that has one. -/
structure Tallied (a : Arena) (ls : List ChainLine) (seen : IdSet) : Prop where
  seen : ∀ n, seen.contains n = true ↔ ∃ q, op q ∈ ls ∧ (a.node q).id = n
  nodup : ((listed ls).map fun q => (a.node q).id).Nodup
  jump : ∀ pre r, pre ++ [jump r] <+: ls → ∃ q, op q ∈ pre ∧ (a.node q).id = (a.node r).id

theorem Tallied.empty (a : Arena) : a.Tallied [] .empty where
  seen n := by simp [IdSet.contains_empty]
  nodup := List.nodup_nil
  jump pre r h := by simp at h

theorem Tallied.name {l : ChainLine} (h : a.Tallied ls seen) (hl : l.listed? = none)
    (hjump : ∀ r, l = .jump r → seen.contains (a.node r).id = true) : a.Tallied (ls ++ [l]) seen where
  seen n := by
    rw [h.seen n]
    simp only [← mem_listed, listed_snoc hl]
  nodup := by
    rw [listed_snoc hl]
    exact h.nodup
  jump pre q hq := by
    rcases List.prefix_concat_iff.mp hq with heq | hpre
    · obtain ⟨rfl, hlast⟩ := List.append_inj' heq rfl
      exact (h.seen _).mp (hjump q (List.singleton_inj.mp hlast).symm)
    · exact h.jump pre q hpre

theorem Tallied.branch (h : a.Tallied ls seen) (r : RecId) : a.Tallied (ls ++ [.branch r]) seen :=
  h.name rfl fun _ e => by cases e

theorem Tallied.goto (h : a.Tallied ls seen) (hr : seen.contains (a.node r).id = true) :
    a.Tallied (ls ++ [.jump r]) seen :=
  h.name rfl fun q e => by
    cases e
    exact hr

theorem Tallied.op (h : a.Tallied ls seen) (hr : seen.contains (a.node r).id = false) :
    a.Tallied (ls ++ [.op r]) (seen.insert (a.node r).id) where
  seen n := by
    constructor
    · intro hn
      rcases IdSet.contains_insert_iff.mp hn with rfl | hn
      · exact ⟨r, by simp, rfl⟩
      · obtain ⟨q, hq, hid⟩ := (h.seen n).mp hn
        exact ⟨q, by simp [hq], hid⟩
    · rintro ⟨q, hq, rfl⟩
      refine IdSet.contains_insert_iff.mpr ?_
      rcases List.mem_append.mp hq with hq | hq
      · exact .inr ((h.seen _).mpr ⟨q, hq, rfl⟩)
      · cases List.mem_singleton.mp hq
        exact .inl rfl
  nodup := by
    have hfresh : ∀ q ∈ listed ls, (a.node q).id ≠ (a.node r).id := fun q hq hid => by
      have hseen := (h.seen _).mpr ⟨q, mem_listed.mp hq, hid⟩
      rw [hr] at hseen
      cases hseen
    rw [listed_append, List.map_append, List.nodup_append]
    refine ⟨h.nodup, List.nodup_singleton _, fun x hx y hy => ?_⟩
    obtain ⟨q, hq, rfl⟩ := List.mem_map.mp hx
    rw [List.mem_singleton.mp hy]
    exact hfresh q hq
  jump pre q hq := by
    rcases List.prefix_concat_iff.mp hq with heq | hpre
    · simp at heq
    · exact h.jump pre q hpre

/-! ### Room in the set -/

def unseen (a : Arena) (seen : IdSet) : Nat :=
  (List.range a.recs.size).countP fun q => !seen.contains (a.node q).id

theorem unseen_lt_bound (a : Arena) (seen : IdSet) : a.unseen seen < a.bound := by
  have hle := List.countP_le_length (p := fun q => !seen.contains (a.node q).id) (l := List.range a.recs.size)
  rw [List.length_range] at hle
  exact Nat.lt_succ_of_le hle

theorem unseen_mono (a : Arena) (seen : IdSet) (n : Nat) (qs : List RecId) :
    (qs.countP fun q => !(seen.insert n).contains (a.node q).id) ≤ qs.countP fun q => !seen.contains (a.node q).id := by
  refine List.countP_mono_left fun q _ hq => ?_
  rw [Bool.not_eq_true'] at hq ⊢
  by_contra hold
  rw [Bool.not_eq_false] at hold
  rw [IdSet.contains_insert_iff.mpr (.inr hold)] at hq
  cases hq

theorem unseen_insert_lt (hlt : r < a.recs.size) (hr : seen.contains (a.node r).id = false) :
    a.unseen (seen.insert (a.node r).id) < a.unseen seen := by
  obtain ⟨qs, qs', hsplit⟩ := List.append_of_mem (List.mem_range.mpr hlt)
  have hqs := unseen_mono a seen (a.node r).id qs
  have hqs' := unseen_mono a seen (a.node r).id qs'
  have hnew := IdSet.contains_insert_iff (s := seen) (n := (a.node r).id).mpr (.inl rfl)
  unfold unseen
  rw [hsplit]
  simp only [List.countP_append, List.countP_cons, hr, hnew, Bool.not_true, Bool.not_false, Bool.false_eq_true,
    if_false, if_true]
  omega

theorem Link.lt (h : a.Link r z) : r < a.recs.size := by
  by_contra hge
  rw [Link, node_of_le (Nat.le_of_not_lt hge)] at h
  rcases h with h | h <;> cases h

theorem other_add_unseen_le (hr : seen.contains (a.node r).id = false) :
    (a.node r).other.toList.length + a.unseen (seen.insert (a.node r).id) ≤ a.unseen seen := by
  cases hother : (a.node r).other with
  | none =>
    rw [Option.toList_none, List.length_nil, Nat.zero_add]
    exact unseen_mono a seen (a.node r).id _
  | some z =>
    have hlt := unseen_insert_lt (Link.lt (.inr hother)) hr
    simp only [Option.toList_some, List.length_singleton]
    omega

/-! ### Paths -/

/-- The lines of a path: op after op, to one that nothing follows or to a jump to the op that follows. -/
inductive Walked (a : Arena) : Option RecId → List ChainLine → Prop where
  | done : Walked a none []
  | goto (r : RecId) : Walked a (some r) [.jump r]
  | op {r : RecId} {ls : List ChainLine} (h : Walked a (a.node r).next ls) : Walked a (some r) (.op r :: ls)

def branchesOf (a : Arena) (ls : List ChainLine) : List RecId := (listed ls).filterMap fun q => (a.node q).other

theorem branchesOf_append (a : Arena) (ls ls' : List ChainLine) :
    a.branchesOf (ls ++ ls') = a.branchesOf ls ++ a.branchesOf ls' := by
  rw [branchesOf, listed_append, List.filterMap_append]
  rfl

theorem branchesOf_op (r : RecId) (ls : List ChainLine) :
    a.branchesOf (.op r :: ls) = (a.node r).other.toList ++ a.branchesOf ls := by
  change List.filterMap (fun q => (a.node q).other) (r :: listed ls) = _
  rw [List.filterMap_cons]
  cases (a.node r).other <;> rfl

theorem Walked.head (h : a.Walked (some r) ls) : Shows ls r := by
  cases h with
  | goto => exact .inr (List.mem_singleton_self _)
  | op h => exact .inl (List.mem_cons_self ..)

theorem Walked.next (h : a.Walked r? ls) (hr : .op r ∈ ls) (hz : (a.node r).next = some z) : Shows ls z := by
  induction h with
  | done => cases hr
  | goto => cases List.mem_singleton.mp hr
  | @op q ls h ih =>
    rcases List.mem_cons.mp hr with heq | hr
    · cases heq
      rw [hz] at h
      exact h.head.mono (List.subset_cons_self _ _)
    · exact (ih hr).mono (List.subset_cons_self _ _)

theorem Walked.reach (h : a.Walked r? ls) (hr : ∀ r, r? = some r → a.Reach start r) :
    ∀ q, Shows ls q → a.Reach start q := by
  induction h with
  | done => simp [Shows]
  | goto r =>
    intro q hq
    obtain rfl : q = r := by simpa [Shows] using hq
    exact hr q rfl
  | @op r ls h ih =>
    intro q hq
    have hreach := hr r rfl
    by_cases hqr : q = r
    · rw [hqr]
      exact hreach
    · exact ih (fun z hz => hreach.step (.inl hz)) q (by simpa [Shows, hqr] using hq)

theorem Walked.reach_branches (h : a.Walked r? ls) (hr : ∀ r, r? = some r → a.Reach start r) :
    ∀ z ∈ a.branchesOf ls, a.Reach start z := by
  intro z hz
  obtain ⟨q, hq, hother⟩ := List.mem_filterMap.mp hz
  exact (h.reach hr q (.inl (mem_listed.mp hq))).step (.inr hother)

/-- A path that was followed behind the lines `ls`. -/
structure Followed (a : Arena) (ls : List ChainLine) (seen : IdSet) (r? : Option RecId) (p : ChainPath) : Prop where
  walked : a.Walked r? p.lines
  tallied : a.Tallied (ls ++ p.lines) p.seen
  branches : p.branches = a.branchesOf p.lines
  room : p.branches.length + a.unseen p.seen ≤ a.unseen seen

/-- By induction on the fuel. A path takes a new id with every op that another one follows. -/
theorem chainPath_followed {fuel : Nat} (h : a.Tallied ls seen) (hf : r?.isSome = true → a.unseen seen < fuel) :
    a.Followed ls seen r? (a.chainPath fuel seen r?) := by
  induction fuel generalizing ls seen r? with
  | zero =>
    cases r? with
    | none => exact ⟨.done, by simpa [chainPath] using h, rfl, by simp [chainPath]⟩
    | some r => exact absurd (hf rfl) (Nat.not_lt_zero _)
  | succ fuel ih =>
    cases r? with
    | none => exact ⟨.done, by simpa [chainPath] using h, rfl, by simp [chainPath]⟩
    | some r =>
      cases hr : seen.contains (a.node r).id with
      | true =>
        have hpath : a.chainPath (fuel + 1) seen (some r) = ⟨[.jump r], [], seen⟩ := by
          simp [chainPath, IdSet.mark, hr]
        rw [hpath]
        exact ⟨.goto r, h.goto hr, rfl, by simp⟩
      | false =>
        have hpath : a.chainPath (fuel + 1) seen (some r) =
            let rest := a.chainPath fuel (seen.insert (a.node r).id) (a.node r).next
            ⟨.op r :: rest.lines, (a.node r).other.toList ++ rest.branches, rest.seen⟩ := by
          simp [chainPath, IdSet.mark, hr]
        have hrest := ih (h.op hr) fun hnext => by
          obtain ⟨z, hz⟩ := Option.isSome_iff_exists.mp hnext
          have hlt := unseen_insert_lt (Link.lt (.inl hz)) hr
          have hroom := hf rfl
          omega
        rw [hpath]
        refine ⟨.op hrest.walked, ?_, ?_, ?_⟩
        · simpa using hrest.tallied
        · rw [branchesOf_op, ← hrest.branches]
        · have hroom := hrest.room
          have hother := other_add_unseen_le hr
          simp only [List.length_append]
          omega

/-! ### The queue -/

/-- The sections of the branches in a queue, and of those met on the way. -/
inductive Drained (a : Arena) : List RecId → List (RecId × List ChainLine) → Prop where
  | nil : Drained a [] []
  | cons {r : RecId} {ls : List ChainLine} {queue : List RecId} {ss : List (RecId × List ChainLine)}
      (hw : a.Walked (some r) ls) (h : Drained a (queue ++ a.branchesOf ls) ss) : Drained a (r :: queue) ((r, ls) :: ss)

variable {queue : List RecId} {ss : List (RecId × List ChainLine)}

theorem Drained.walked (h : a.Drained queue ss) : ∀ s ∈ ss, a.Walked (some s.1) s.2 := by
  induction h with
  | nil => exact nofun
  | cons hw _ ih => exact List.forall_mem_cons.mpr ⟨hw, ih⟩

theorem Drained.starts (h : a.Drained queue ss) : ss.map Prod.fst = queue ++ a.branchesOf (ss.flatMap block) := by
  induction h with
  | nil => rfl
  | @cons r ls queue ss _ _ ih =>
    have hblock : a.branchesOf (block (r, ls)) = a.branchesOf ls := rfl
    rw [List.map_cons, ih, List.flatMap_cons, branchesOf_append, hblock, List.append_assoc, List.cons_append]

theorem Drained.reach (h : a.Drained queue ss) (hq : ∀ r ∈ queue, a.Reach start r) :
    ∀ q, Shows (ss.flatMap block) q → a.Reach start q := by
  induction h with
  | nil => simp [Shows]
  | @cons r ls queue ss hw _ ih =>
    have hr : ∀ q, some r = some q → a.Reach start q := fun q hqr => hq q (by simp [Option.some.inj hqr])
    have hrest := ih fun z hz => by
      rcases List.mem_append.mp hz with hz | hz
      · exact hq z (List.mem_cons_of_mem _ hz)
      · exact hw.reach_branches hr z hz
    intro q hshow
    rw [List.flatMap_cons, shows_append, shows_block] at hshow
    exact hshow.elim (hw.reach hr q) (hrest q)

/-- By induction on the fuel. A branch leaves the queue, and those that enter it take ids that were not listed. -/
theorem chainBranches_drained {fuel : Nat} (h : a.Tallied ls seen) (hf : queue.length + a.unseen seen ≤ fuel) :
    ∃ ss seen', a.chainBranches fuel seen queue = ss.flatMap block ∧ a.Drained queue ss ∧
      a.Tallied (ls ++ ss.flatMap block) seen' := by
  induction fuel generalizing ls seen queue with
  | zero =>
    obtain rfl : queue = [] := List.eq_nil_of_length_eq_zero (by omega)
    exact ⟨[], seen, rfl, .nil, by simpa using h⟩
  | succ fuel ih =>
    cases queue with
    | nil => exact ⟨[], seen, rfl, .nil, by simpa using h⟩
    | cons r queue =>
      have hpath : a.Followed (ls ++ [.branch r]) seen (some r) (a.chainPath a.bound seen (some r)) :=
        chainPath_followed (h.branch r) fun _ => unseen_lt_bound a seen
      rw [chainBranches]
      generalize a.chainPath a.bound seen (some r) = p at hpath ⊢
      have hfuel : (queue ++ p.branches).length + a.unseen p.seen ≤ fuel := by
        have hroom := hpath.room
        rw [List.length_cons] at hf
        rw [List.length_append]
        omega
      obtain ⟨ss, seen', hlines, hdrained, htallied⟩ := ih hpath.tallied hfuel
      rw [hpath.branches] at hdrained
      refine ⟨(r, p.lines) :: ss, seen', ?_, .cons hpath.walked hdrained, ?_⟩
      · rw [hlines, List.flatMap_cons]
        rfl
      · simpa [block] using htallied

/-! ### The whole chain -/

/-- The lines of a chain: those of the main path, and the sections of its branches. -/
structure Charted (a : Arena) (start : Option RecId) (main : List ChainLine) (ss : List (RecId × List ChainLine)) :
    Prop where
  walked : a.Walked start main
  drained : a.Drained (a.branchesOf main) ss
  tallied : ∃ seen, a.Tallied (main ++ ss.flatMap block) seen

theorem chainLines_charted (a : Arena) (start : Option RecId) :
    ∃ main ss, a.chainLines start = main ++ ss.flatMap block ∧ a.Charted start main ss := by
  have hpath : a.Followed [] .empty start (a.chainPath a.bound .empty start) :=
    chainPath_followed (.empty a) fun _ => unseen_lt_bound a .empty
  rw [chainLines]
  generalize a.chainPath a.bound .empty start = p at hpath ⊢
  have hfuel : p.branches.length + a.unseen p.seen ≤ a.bound :=
    hpath.room.trans (Nat.le_of_lt (unseen_lt_bound a .empty))
  obtain ⟨ss, seen, hlines, hdrained, htallied⟩ := chainBranches_drained hpath.tallied hfuel
  rw [hpath.branches] at hdrained
  exact ⟨p.lines, ss, by rw [hlines], hpath.walked, hdrained, seen, htallied⟩

variable {main : List ChainLine}

theorem Charted.starts (h : a.Charted start main ss) : ss.map Prod.fst = a.branchesOf (main ++ ss.flatMap block) := by
  rw [h.drained.starts, branchesOf_append]

theorem Charted.path (h : a.Charted start main ss) (hr : .op r ∈ main ++ ss.flatMap block) :
    ∃ r? ls, a.Walked r? ls ∧ .op r ∈ ls ∧ ls ⊆ main ++ ss.flatMap block := by
  rcases List.mem_append.mp hr with hr | hr
  · exact ⟨start, main, h.walked, hr, List.subset_append_left _ _⟩
  · obtain ⟨s, hs, hr⟩ := List.mem_flatMap.mp hr
    exact ⟨some s.1, s.2, h.drained.walked s hs, by simpa [block] using hr,
      List.subset_append_of_subset_right _ (subset_blocks hs)⟩

theorem Charted.reach (h : a.Charted start main ss) : ∀ q, Shows (main ++ ss.flatMap block) q → a.Reach start q := by
  have hstart : ∀ r, start = some r → a.Reach start r := fun r hr => .start hr
  intro q hq
  exact (shows_append.mp hq).elim (h.walked.reach hstart q)
    (h.drained.reach (h.walked.reach_branches hstart) q)

section Distinct

variable (hid : ∀ p q, a.Reach start p → a.Reach start q → (a.node p).id = (a.node q).id → p = q)

include hid

theorem Charted.jump (h : a.Charted start main ss) {pre : List ChainLine}
    (hpre : pre ++ [.jump r] <+: main ++ ss.flatMap block) : .op r ∈ pre := by
  obtain ⟨seen, htallied⟩ := h.tallied
  obtain ⟨q, hq, hqr⟩ := htallied.jump pre r hpre
  have hqreach := h.reach q (.inl (hpre.subset (List.mem_append_left _ hq)))
  have hrreach := h.reach r (.inr (hpre.subset (by simp)))
  rwa [← hid q r hqreach hrreach hqr]

theorem Charted.op_of_shows (h : a.Charted start main ss) (hr : Shows (main ++ ss.flatMap block) r) :
    .op r ∈ main ++ ss.flatMap block := by
  rcases hr with hr | hr
  · exact hr
  · obtain ⟨pre, post, hsplit⟩ := List.append_of_mem hr
    have hpre : pre ++ [.jump r] <+: main ++ ss.flatMap block := ⟨post, by rw [hsplit, List.append_assoc]; rfl⟩
    exact hpre.subset (List.mem_append_left _ (h.jump hid hpre))

/-- Nothing that can be reached is left out: what the links of a listed op lead to is shown in a line. -/
theorem Charted.complete (h : a.Charted start main ss) (hr : a.Reach start r) :
    .op r ∈ main ++ ss.flatMap block := by
  induction hr with
  | start hs =>
    rw [hs] at h
    exact h.op_of_shows (hs ▸ hid) (h.walked.head.mono (List.subset_append_left _ _))
  | @step p q _ hlink ih =>
    refine h.op_of_shows hid ?_
    rcases hlink with hnext | hother
    · obtain ⟨r?, ls, hw, hp, hsub⟩ := h.path ih
      exact (hw.next hp hnext).mono hsub
    · have hq : q ∈ ss.map Prod.fst := by
        rw [h.starts]
        exact List.mem_filterMap.mpr ⟨p, mem_listed.mpr ih, hother⟩
      obtain ⟨s, hs, rfl⟩ := List.mem_map.mp hq
      exact (h.drained.walked s hs).head.mono (List.subset_append_of_subset_right _ (subset_blocks hs))

end Distinct

/-- A loop with a branch in it that joins the main path again. -/
def roundWithArm : Arena where
  recs := #[{ code := .nextstate, next := some 1, id := 1 }, { code := .and, next := some 3, other := some 2, id := 2 },
    { code := .const, next := some 3, id := 3 }, { code := .unstack, next := some 1, id := 4 }]

example : roundWithArm.chainLines (some 0) =
    [.op 0, .op 1, .op 3, .jump 1, .branch 2, .op 2, .jump 3] := by decide +kernel

theorem reach_roundWithArm {r : Nat} : roundWithArm.Reach (some 0) r ↔ r < 4 := by
  constructor
  · intro hr
    have hlinks : ∀ p < 4, (∀ z ∈ (roundWithArm.node p).next, z < 4) ∧ ∀ z ∈ (roundWithArm.node p).other, z < 4 := by
      decide +kernel
    induction hr with
    | start hs => cases hs; decide
    | @step p q _ hlink ih => exact hlink.elim ((hlinks p ih).1 q) ((hlinks p ih).2 q)
  · have h0 : roundWithArm.Reach (some 0) 0 := .start rfl
    have h1 : roundWithArm.Reach (some 0) 1 := h0.step (.inl rfl)
    have h2 : roundWithArm.Reach (some 0) 2 := h1.step (.inr rfl)
    have h3 : roundWithArm.Reach (some 0) 3 := h1.step (.inl rfl)
    intro hr
    obtain rfl | rfl | rfl | rfl : r = 0 ∨ r = 1 ∨ r = 2 ∨ r = 3 := by omega
    · exact h0
    · exact h1
    · exact h2
    · exact h3

end Arena

end OpTree
