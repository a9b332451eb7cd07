import OpTree.Proofs.Logs
import OpTree.Proofs.Compiled
import OpTree.Proofs.Folds
import Mathlib.Algebra.Group.Int.Defs

/-!
# Walking a unit once

The main chain of a unit starts at the announcement of its first statement. No rule changes that op or leads past
it, so it is still where the unit starts when the walk is over, and a second walk ends as soon as it begins.
-/

namespace OpTree

set_option autoImplicit false

namespace Peep

open Arena

variable {S : Course} {root z : RecId} {ps : PeepState} {a : Arena}

theorem firstSolid_of_solid (hz : (a.node z).transparent = false) (fuel : Nat) :
    firstSolid a fuel (some z) = some z := by
  cases fuel with
  | zero => rfl
  | succ fuel => rw [firstSolid, hz, if_neg Bool.false_ne_true]

theorem skipNulls_of_solid {s : PeepSlot} (hs : headOf ps a s = some z) (hz : (a.node z).transparent = false) :
    skipNulls s ps a = .ok ((), ps) a := by
  have hread : (liftM (get : TreeM Arena) : Peep Arena) ps a = .ok (a, ps) a := rfl
  rw [skipNulls, peep_bind, hread]
  simp only
  rw [peep_bind, readSlot_apply, hs]
  simp only
  rw [firstSolid_of_solid hz, if_neg fun hne => hne rfl]
  rfl

theorem not_transparent_of_nextstate {n : Node} (h : n.code = .nextstate) : n.transparent = false := by
  rw [Node.transparent, h]

/-- The main chain starts at a statement that has been visited. -/
structure Begun (S : Course) (root z : RecId) (ps : PeepState) (a : Arena) : Prop where
  tended : Tended S root ps a
  start : ps.start = some z
  mem : z ∈ (a.tree root).recs
  marked : (a.node z).processed = true
  code : (a.node z).code = .nextstate

theorem Begun.onward {ps' : PeepState} {b : Arena} (h : Begun S root z ps a) (ht : Tended S root ps' b)
    (hb : Onward root a b) (hs : ps'.start = ps.start) : Begun S root z ps' b :=
  ⟨ht, hs.trans h.start, hb.recs z h.mem h.marked, hb.marks z h.marked, hb.states z h.mem h.marked h.code⟩

theorem begun_rule (S : Course) (root z : RecId) : Rule (fun _ => True) (Begun S root z) (Waits S root)
    (fun a prev s o => Leads S root a prev s o ∧ (prev ≠ none ∨ s ≠ .start)) where
  memory _ := Or.inl trivial
  stats h hs hf _ := ⟨h.tended.of_start hs hf, hs.trans h.start, h.mem, h.marked, h.code⟩
  head {ps a s o} h hs ho hp := by
    refine ⟨⟨by simp, h.tended.head hs ho⟩, Or.inr ?_⟩
    rintro rfl
    obtain rfl : z = o := Option.some.inj (h.start.symm.trans ho)
    rw [h.marked] at hp
    cases hp
  next {ps a o s y} h ho hy := by
    refine ⟨⟨?_, h.tended.wired.links o ho.1 ho.2.1 y (Or.inl hy)⟩, Or.inl (Option.some_ne_none o)⟩
    rintro p ⟨⟩
    exact ⟨ho.1, ho.2.2.1⟩
  lt h ho := h.tended.lt ho.1.lands.mem
  skip {ps a s} h hs := by
    cases s with
    | start =>
      rw [Gives, skipNulls_of_solid (s := .start) h.start (not_transparent_of_nextstate h.code)]
      exact ⟨h, .refl a⟩
    | other r =>
      refine ((gives_skipNulls h.tended hs).and (@quietly_skipNulls True (.other r) (fun _ => by simp) ps a)).mono ?_
      rintro _ ps' b ⟨hk, hquiet⟩
      exact ⟨h.onward hk.1 hk.2.onward (hquiet.start trivial), hk.2.onward.later⟩
  visit {ps a prev s o} h hs ho hp _ := by
    have hon := (h.tended.mark hs ho.1 hp).2.1
    refine ((gives_visit h.tended hs ho.1 hp).and (@quietly_visit True o prev s (fun _ => ho.2) ps _)).mono ?_
    rintro v ps' b ⟨hv, hquiet⟩
    have hab := hon.trans hv.2.1
    refine ⟨h.onward hv.1 hab (hquiet.start trivial), hv.2.1.later, fun s hs => hab.waits hs, ?_⟩
    cases v with
    | goOn next keep =>
      refine fun y hy => ⟨hv.2.2 y hy, ho.2.imp_left fun hne => ?_⟩
      cases keep with
      | false => exact hne
      | true => exact Option.some_ne_none o
    | branch => exact hv.2.2

theorem visit_nextstate {o : RecId} {prev : Option RecId} {s : PeepSlot} (hc : (a.node o).code = .nextstate) :
    visit o prev s ps a = .ok (.goOn (a.node o).next true, { ps with statement? := some o }) a := by
  have hnode : ∀ qs, (liftM (TreeM.node o) : Peep Node) qs a = .ok (a.node o, qs) a := fun _ => rfl
  have hstate : (modify fun p => { p with statement? := some o } : Peep Unit) ps a =
      .ok ((), { ps with statement? := some o }) a := rfl
  rw [visit, peep_bind, hnode]
  simp only [hc]
  rw [peep_bind, hstate]
  simp only [visitRest]
  rw [peep_bind, hnode]
  simp only [hc]
  rfl

theorem chain_begun (h : Tended S root ps a) (hs : ps.start = some z) (hf : ps.failure? = none)
    (hc : (a.node z).code = .nextstate) (hp : (a.node z).processed = false) (fuel : Nat) :
    Gives (fun _ => True) (chain fuel .start []) ps a fun q ps' b =>
      Begun S root z ps' b ∧ ∀ s ∈ q, Waits S root b s := by
  have hlead : Leads S root a none .start z := ⟨by simp, h.start z hs⟩
  obtain ⟨ht, hon, hlead', -⟩ := h.mark (s := .start) trivial hlead hp
  have hmarked : ((a.mark z).node z).processed = true := by
    rw [Arena.mark, node_update_self (h.lt hlead.lands.mem)]
  have hcode : ((a.mark z).node z).code = .nextstate := by
    rw [Arena.mark, node_update_self (h.lt hlead.lands.mem)]
    exact hc
  have R := begun_rule S root z
  rcases fuel with - | fuel
  · exact gives_fatal trivial
  simp only [chain]
  refine gives_readSlot_bind ?_
  rw [headOf, hs]
  refine Gives.bind (P := fun q ps' b => Begun S root z ps' b ∧ ∀ s ∈ q, Waits S root b s) ?_ ?_
  · rcases fuel with - | fuel
    · exact gives_fatal trivial
    simp only [follow]
    refine gives_lift_bind (TreeM.node_apply z a) (gives_get_bind ?_)
    rw [hp, hf, if_neg (by simp)]
    refine gives_lift_bind (TreeM.update_apply z _ a) (gives_modify_bind ?_)
    change Gives _ _ _ (a.mark z) _
    refine Gives.bind (P := fun v ps' b => v = .goOn ((a.mark z).node z).next true ∧ b = a.mark z ∧
      Begun S root z ps' (a.mark z)) ?_ ?_
    · rw [Gives, visit_nextstate hcode]
      exact ⟨rfl, rfl, ht.of_start rfl rfl, hs, hlead'.lands.mem, hmarked, hcode⟩
    · rintro _ ps₁ _ ⟨rfl, rfl, hb⟩
      refine ((walk_rule R fuel).2.2.2.1 (s := .start) hb trivial (by simp) (fun o ho _ => ?_) (Or.inl trivial)).mono ?_
      · refine ⟨⟨?_, hb.tended.link hlead'.lands (Or.inl ho)⟩, Or.inl (Option.some_ne_none z)⟩
        rintro p ⟨⟩
        exact ⟨hb.mem, hb.marked⟩
      · rintro q ps₂ b ⟨hb', -, hq, -⟩
        exact ⟨hb', hq⟩
  · rintro q ps₁ b ⟨hb, hq⟩
    refine (R.skip (s := .start) hb trivial).bind ?_
    rintro _ ps₂ c ⟨hc', hlater⟩
    exact gives_pure ⟨hc', fun s hs => hlater.slot s (hq s hs)⟩

theorem walk_begun (h : Tended S root ps a) (hs : ps.start = some z) (hf : ps.failure? = none)
    (hc : (a.node z).code = .nextstate) (hp : (a.node z).processed = false) (fuel : Nat) :
    Gives (fun _ => True) (walk fuel .start) ps a fun _ => Begun S root z := by
  have R := begun_rule S root z
  rcases fuel with - | fuel
  · exact gives_fatal trivial
  have hframe : ∀ f : PeepState → PeepState, (f ps).start = ps.start → (f ps).failure? = ps.failure? →
      Gives (fun _ => True) (do
        modify f
        let q ← chain fuel .start []
        drain fuel q
        modify fun p => { p with depth := p.depth - 1 }) ps a fun _ => Begun S root z := by
    intro f hstart hfail
    refine gives_modify_bind
      ((chain_begun (h.of_start hstart hfail) (hstart.trans hs) (hfail.trans hf) hc hp fuel).bind ?_)
    rintro q ps₁ b ⟨hb, hq⟩
    refine ((walk_rule R fuel).2.1 hb hq (Or.inl trivial)).bind ?_
    rintro _ ps₂ c ⟨hc', -⟩
    exact gives_modify (R.stats hc' rfl rfl rfl)
  simp only [walk]
  refine gives_lift_bind (TreeM.get_apply a) (gives_ite (fun _ => ?_) fun _ => hframe _ rfl rfl)
  exact Gives.bind (P := fun _ _ _ => False) (gives_fatal trivial) fun _ _ _ h => h.elim

end Peep

namespace TreeM

open Peep Arena

variable {S : Course} {root z : RecId} {a b : Arena}

def optimizeLogged (start : Option RecId) : TreeM (Optimized × List Event) := do
  let fuel := 8 * (← get).bound + 8
  let (((), log), p) ← (Peep.Logged.walk fuel .start []).run { start := start }
  return (⟨p.start, p.stats, p.failure?⟩, log)

theorem optimizeLogged_eq (start : Option RecId) (a : Arena) :
    optimizeLogged start a = match Logged.walk (8 * a.bound + 8) .start [] { start := start } a with
      | .ok ((_, log), p) b => .ok (⟨p.start, p.stats, p.failure?⟩, log) b
      | .error e b => .error e b := by
  change EStateM.bind (Logged.walk (8 * a.bound + 8) .start [] { start := start }) _ a = _
  unfold EStateM.bind
  split <;> simp_all

end TreeM

namespace Peep

variable {z : RecId} {ps : PeepState} {a : Arena}

theorem chain_of_marked (hs : ps.start = some z) (hz : (a.node z).processed = true)
    (hc : (a.node z).code = .nextstate) (fuel : Nat) : chain (fuel + 2) .start [] ps a = .ok ([], ps) a := by
  have hfollow : follow (fuel + 1) .start none (some z) [] ps a = .ok ([], ps) a := by
    have hnode : (liftM (TreeM.node z) : Peep Node) ps a = .ok (a.node z, ps) a := rfl
    have hget : (get : Peep PeepState) ps a = .ok (ps, ps) a := rfl
    rw [follow, peep_bind, hnode]
    simp only
    rw [peep_bind, hget]
    simp only
    rw [hz, Bool.true_or, if_pos rfl]
    rfl
  rw [chain, peep_bind, readSlot_apply, headOf, hs]
  simp only
  rw [peep_bind, hfollow]
  simp only
  rw [peep_bind, skipNulls_of_solid (s := .start) hs (not_transparent_of_nextstate hc)]
  rfl

theorem walk_of_marked (hs : ps.start = some z) (hz : (a.node z).processed = true)
    (hc : (a.node z).code = .nextstate) (hm : Memory.holds 8 a.tune.deferQueue = true) (fuel : Nat) :
    walk (fuel + 3) .start ps a = .ok ((), { ps with
      stats := { ps.stats with maxDepth := max ps.stats.maxDepth (ps.depth + 1) } }) a := by
  have hget : (liftM (get : TreeM Arena) : Peep Arena) ps a = .ok (a, ps) a := rfl
  have hmodify : ∀ (f : PeepState → PeepState) qs, (modify f : Peep Unit) qs a = .ok ((), f qs) a := fun _ _ => rfl
  rw [walk, peep_bind, hget]
  simp only
  rw [hm, if_neg (by simp), peep_bind, hmodify]
  simp only
  rw [peep_bind, chain_of_marked (by exact hs) hz hc]
  rfl

theorem walk_of_not_holds {s : PeepSlot} (hm : Memory.holds 8 a.tune.deferQueue = false) (fuel : Nat) :
    walk (fuel + 1) s ps a = .error (.fatal none) a := by
  have hget : (liftM (get : TreeM Arena) : Peep Arena) ps a = .ok (a, ps) a := rfl
  rw [walk, peep_bind, hget]
  simp only
  rw [hm, if_pos (by simp), peep_bind]
  rfl

structure Account (root : RecId) (a : Arena) (opt : Optimized) (log : List Event) (b : Arena) : Prop where
  /-- Every op is visited at most once. -/
  nodup : (visits log).Nodup
  inside : visits log ⊆ (a.tree root).recs
  visited : opt.stats.visited = (visits log).length
  visited_le : opt.stats.visited ≤ (a.tree root).recs.length
  deferred : opt.stats.deferred = (waits log).length
  /-- No branch takes the place of another. -/
  kept : ∀ s lost?, .put s lost? ∈ log → lost? = none
  /-- Every branch that was left for later is walked once, and so is the main chain. -/
  walked : opt.failure? = none → (walks log).Perm (.start :: waits log) ∧ (walks log).Nodup
  /-- There is nothing left to do for another optimization. -/
  settled : opt.failure? = none → TreeM.optimize opt.start b = .ok ⟨opt.start, { maxDepth := 1 }, none⟩ b

end Peep

namespace TreeM

open Peep Arena

variable {S : Course} {root z : RecId} {a b : Arena}

/-- A unit that starts at a visited statement is left alone. -/
theorem optimize_of_marked (hz : (a.node z).processed = true) (hc : (a.node z).code = .nextstate)
    (hm : Memory.holds 8 a.tune.deferQueue = true) :
    optimize (some z) a = .ok ⟨some z, { maxDepth := 1 }, none⟩ a := by
  rw [optimize_eq, walk_of_marked rfl hz hc hm (8 * a.bound + 5)]
  rfl

/-- An optimization ends and is accounted for, unless memory does not hold the queue that the tuning asks for. -/
theorem optimize_logged (h : Tended S root { start := some z } a) (hc : (a.node z).code = .nextstate)
    (hp : (a.node z).processed = false) :
    match optimize (some z) a with
    | .ok opt b => ∃ log, optimizeLogged (some z) a = .ok (opt, log) b ∧ Account root a opt log b
    | .error e b => e = .fatal none ∧ b = a ∧ Memory.holds 8 a.tune.deferQueue = false := by
  have hmemory : (Failure.fatal none = .fatal none ∧ Memory.holds 8 a.tune.deferQueue = false) ∨
      Memory.holds 8 a.tune.deferQueue = true := by
    cases Memory.holds 8 a.tune.deferQueue <;> simp
  have hopt := optimize_rule (tended_rule S root
    (E := fun e => e = .fatal none ∧ Memory.holds 8 a.tune.deferQueue = false) hmemory)
    ⟨h, rfl, List.Subset.refl _⟩ trivial
  have hbegun := walk_begun h rfl rfl hc hp (8 * a.bound + 8)
  have htold : Told _ _ _ (a.tree root).recs a.tune (8 * a.bound + 8) :=
    told_rule (tended_rule S root (E := fun _ => True) (Or.inl trivial)) (fun hi => hi.2.1)
      (fun hi hl => hi.2.2 hl.lands.mem) _
  have hnone : Faithful (a.tree root).recs [] { start := some z } a :=
    ⟨List.nodup_nil, nofun, List.nil_subset _, rfl, rfl, .refl _, nofun⟩
  have htells := htold.walk (s := .start) ⟨h, rfl, List.Subset.refl _⟩ trivial hnone
  cases hrun : optimize (some z) a with
  | error e b =>
    rw [hrun] at hopt
    obtain ⟨rfl, hno⟩ := hopt
    rw [optimize_eq, walk_of_not_holds hno] at hrun
    cases hrun
    exact ⟨rfl, rfl, hno⟩
  | ok opt b =>
    rw [hrun] at hopt
    obtain ⟨-, -, ⟨-, htune, -⟩, -⟩ := hopt
    have hholds : Memory.holds 8 a.tune.deferQueue = true := by
      by_contra hno
      rw [optimize_eq, walk_of_not_holds (Bool.eq_false_iff.mpr hno)] at hrun
      cases hrun
    rw [optimize_eq] at hrun
    unfold Tells at htells
    unfold Gives at hbegun
    cases hwalk : walk (8 * a.bound + 8) .start { start := some z } a with
    | error e c =>
      rw [hwalk] at hrun
      cases hrun
    | ok p c =>
      rw [hwalk] at hrun htells hbegun
      cases hrun
      obtain ⟨⟨⟩, log, hlogged, hlog, hsettles⟩ := htells
      have hbranches : (PeepSlot.start :: waits log).Nodup := by
        refine List.nodup_cons.mpr ⟨fun hm => ?_, (hlog.nodup.map fun _ _ => PeepSlot.other.inj).sublist hlog.branches⟩
        obtain ⟨o, -, ho⟩ := List.mem_map.mp (hlog.branches.subset hm)
        cases ho
      refine ⟨log, by rw [optimizeLogged_eq, hlogged], ?_⟩
      refine ⟨hlog.nodup, hlog.inside, hlog.visited, ?_, hlog.deferred, hlog.kept, fun hf => ?_, fun _ => ?_⟩
      · rw [hlog.visited]
        exact_mod_cast (hlog.nodup.subperm hlog.inside).length_le
      · have hperm : (walks log).Perm (.start :: waits log) := by
          simpa [Owes] using (hsettles hf).2 [] (.refl _)
        exact ⟨hperm, hperm.nodup_iff.mpr hbranches⟩
      · rw [hbegun.start]
        exact optimize_of_marked hbegun.marked hbegun.code (htune ▸ hholds)

end TreeM

namespace Program

open Peep SubUnit

end Program

end OpTree
