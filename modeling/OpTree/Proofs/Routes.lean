import OpTree.Proofs.Loops
import OpTree.Proofs.Tidy

/-!
# Steps inside of a tree

Which op may be executed after which in a tree, told from the tree alone, and how that depends on the
trees below.
-/

namespace OpTree

set_option autoImplicit false

/-- An op that is no part of the frame of a loop and leads to one place only. -/
structure Node.Firm (o : Node) : Prop where
  null : o.code ≠ .null
  lineseq : o.code ≠ .lineseq
  enteriter : o.code ≠ .enteriter
  logop : o.opClass ≠ .logop

namespace Tree

/-- The ops that may be the last one executed of a tree: its root, and the ends of the branches. -/
inductive Exit : Tree → RecId → Prop where
  | root (r : RecId) (o : Node) (ks : List Tree) : Exit (mk r o ks) r
  | arm {l e : RecId} {o : Node} {x z : Tree} {ys : List Tree} (ho : o.opClass = .logop) (hz : z ∈ ys)
      (h : Exit z e) : Exit (mk l o (x :: ys)) e

/-- The order of execution at one op: the trees that are run through, where each of them leads, and
the steps from one of the op's own records. -/
structure Plan where
  parts : List Tree
  joints : List (Tree × RecId)
  arms : List (RecId × RecId)
  own : List RecId

/-- A loop is entered, and then its rounds are run through until the test fails. -/
def Rounds.plan (d : Rounds) (r : RecId) : Plan where
  parts := d.ent :: d.test :: d.body
  joints := (d.ent, d.test.start) :: (d.test, d.branch) :: follow d.body d.test.start
  arms := (d.body.head?.toList.map fun k => (d.branch, k.start)) ++ [(d.branch, d.wrap), (d.wrap, r)]
  own := [r, d.wrap, d.branch]

def plan : Tree → Plan
  | mk r o ks =>
    if o.opClass = .logop then
      { parts := ks, joints := (ks.take 1).map fun x => (x, r),
        arms := (ks.drop 1).map fun z => (r, z.start), own := [r] }
    else
      match if isLoop o ks then rounds? ks else none with
      | some d => d.plan r
      | none => { parts := ks, joints := follow ks r, arms := [], own := [r] }

inductive Edge : Tree → RecId → RecId → Prop where
  | joint {t : Tree} {p : Tree × RecId} {e : RecId} (hp : p ∈ t.plan.joints) (he : Exit p.1 e) :
      Edge t e p.2
  | arm {t : Tree} {p : RecId × RecId} (hp : p ∈ t.plan.arms) : Edge t p.1 p.2
  | part {t k : Tree} {e q : RecId} (hk : k ∈ t.plan.parts) (h : Edge k e q) : Edge t e q

theorem Exit.mem {t : Tree} {e : RecId} (h : Exit t e) : e ∈ t.recs := by
  induction h with
  | root => simp
  | arm _ hz _ ih => exact kid_recs_subset (List.mem_cons_of_mem _ hz) ih

theorem Exit.eq_root {t : Tree} {e : RecId} (h : Exit t e) (ho : t.op.opClass ≠ .logop) : e = t.root := by
  cases h with
  | root => rfl
  | arm hc => exact absurd hc ho

theorem nodup_of_flatMap_recs {ks : List Tree} (h : (ks.flatMap recs).Nodup) : ks.Nodup :=
  (Arena.nodup_roots h).of_map

theorem mem_follow_target {ks : List Tree} {q : RecId} {p : Tree × RecId} (hn : ks.Nodup)
    (h : p ∈ follow ks q) : p.2 = q ∨ ∃ k ∈ ks, k ≠ p.1 ∧ p.2 = k.start := by
  induction ks with
  | nil => simp [follow] at h
  | cons k ks ih =>
    cases ks with
    | nil =>
      rw [List.mem_singleton.mp h]
      exact Or.inl rfl
    | cons j ks =>
      rcases List.mem_cons.mp h with rfl | h
      · refine Or.inr ⟨j, by simp, ?_, rfl⟩
        rintro rfl
        simp at hn
      · rcases ih hn.of_cons h with hq | ⟨i, hi, hne, hs⟩
        · exact Or.inl hq
        · exact Or.inr ⟨i, List.mem_cons_of_mem _ hi, hne, hs⟩

structure Plan.Fits (d : Plan) (t : Tree) : Prop where
  part : ∀ k ∈ d.parts, ∃ j ∈ t.kids, k ∈ j.subtrees
  nodup : (d.parts.flatMap recs).Nodup
  joint : ∀ p ∈ d.joints, p.1 ∈ d.parts
  joint_to : ∀ p ∈ d.joints, p.2 ∈ d.own ∨ ∃ k ∈ d.parts, k ≠ p.1 ∧ p.2 = k.start
  arm : ∀ p ∈ d.arms, p.1 ∈ d.own
  arm_to : ∀ p ∈ d.arms, p.2 ∈ d.own ∨ ∃ k ∈ d.parts, p.2 = k.start
  own : d.own ⊆ t.recs
  root : t.root ∈ d.own
  arm_root : t.op.opClass ≠ .logop → ∀ p ∈ d.arms, p.1 ≠ t.root
  apart : ∀ r ∈ d.own, r ∉ d.parts.flatMap recs

theorem Rounds.nodup_parts {d : Rounds} {r : RecId} {o wo lo so : Node}
    (hn : (Tree.mk r o
      [d.ent, .mk d.wrap wo [.mk d.branch lo [d.test, .mk d.seq so d.body]]]).recs.Nodup) :
    ((d.plan r).own ++ (d.plan r).parts.flatMap recs).Nodup := by
  have hperm : (Tree.mk r o
      [d.ent, .mk d.wrap wo [.mk d.branch lo [d.test, .mk d.seq so d.body]]]).recs.Perm
      (d.seq :: ((d.plan r).own ++ (d.plan r).parts.flatMap recs)) := by
    simp only [recs_mk, Rounds.plan, List.flatMap_cons, List.flatMap_nil, List.append_nil]
    rw [List.perm_iff_count]
    intro x
    simp only [List.count_cons, List.count_append, List.count_nil]
    omega
  exact (hperm.nodup_iff.mp hn).of_cons

theorem Rounds.plan_fits {d : Rounds} {r : RecId} {o : Node} {ks : List Tree} (h : rounds? ks = some d)
    (hn : (Tree.mk r o ks).recs.Nodup) : (d.plan r).Fits (Tree.mk r o ks) := by
  obtain ⟨wo, lo, so, -, -, -, rfl⟩ := rounds?_eq_some h
  have hwrap : Tree.mk d.wrap wo [.mk d.branch lo [d.test, .mk d.seq so d.body]] ∈
      (Tree.mk r o [d.ent, .mk d.wrap wo [.mk d.branch lo [d.test, .mk d.seq so d.body]]]).subtrees :=
    kid_mem_subtrees (by simp)
  have hbranch := subtrees_trans hwrap (kid_mem_subtrees (List.mem_singleton.mpr rfl))
  have hparts := Rounds.nodup_parts hn
  rw [List.nodup_append] at hparts
  obtain ⟨hown, hnodup, happart⟩ := hparts
  have hdist : (d.ent :: d.test :: d.body).Nodup := nodup_of_flatMap_recs hnodup
  refine ⟨?_, hnodup, ?_, ?_, ?_, ?_, ?_, ?_, ?_, fun q hq hq' => happart q hq q hq' rfl⟩
  · intro k hk
    simp only [Rounds.plan, List.mem_cons] at hk
    rcases hk with rfl | rfl | hk
    · exact ⟨d.ent, by simp, self_mem_subtrees _⟩
    · refine ⟨_, List.mem_cons_of_mem _ (List.mem_singleton.mpr rfl), ?_⟩
      exact subtrees_trans (kid_mem_subtrees (List.mem_singleton.mpr rfl)) (kid_mem_subtrees (by simp))
    · refine ⟨_, List.mem_cons_of_mem _ (List.mem_singleton.mpr rfl), ?_⟩
      have hseq : k ∈ (Tree.mk d.seq so d.body).subtrees := kid_mem_subtrees hk
      exact subtrees_trans (kid_mem_subtrees (List.mem_singleton.mpr rfl))
        (subtrees_trans (kid_mem_subtrees (by simp)) hseq)
  · intro p hp
    simp only [Rounds.plan, List.mem_cons] at hp ⊢
    rcases hp with rfl | rfl | hp
    · exact Or.inl rfl
    · exact Or.inr (Or.inl rfl)
    · exact Or.inr (Or.inr (mem_of_mem_follow hp))
  · intro p hp
    simp only [List.nodup_cons, List.mem_cons, not_or] at hdist
    simp only [Rounds.plan, List.mem_cons] at hp ⊢
    rcases hp with rfl | rfl | hp
    · exact Or.inr ⟨d.test, by simp, fun he => hdist.1.1 he.symm, rfl⟩
    · exact Or.inl (by simp)
    · have hmem := mem_of_mem_follow hp
      rcases mem_follow_target hdist.2.2 hp with hq | ⟨k, hk, hne, hs⟩
      · refine Or.inr ⟨d.test, by simp, fun he => hdist.2.1 ?_, hq⟩
        rw [he]
        exact hmem
      · exact Or.inr ⟨k, by simp [hk], hne, hs⟩
  · intro p hp
    simp only [Rounds.plan, List.mem_append, List.mem_map, List.mem_cons, List.not_mem_nil,
      or_false] at hp ⊢
    rcases hp with ⟨k, -, rfl⟩ | rfl | rfl <;> simp
  · intro p hp
    simp only [Rounds.plan, List.mem_append, List.mem_map, List.mem_cons, List.not_mem_nil,
      or_false] at hp ⊢
    rcases hp with ⟨k, hk, rfl⟩ | rfl | rfl
    · exact Or.inr ⟨k, Or.inr (Or.inr (List.mem_of_mem_head? (Option.mem_toList.mp hk))), rfl⟩
    · exact Or.inl (by simp)
    · exact Or.inl (by simp)
  · intro q hq
    simp only [Rounds.plan, List.mem_cons, List.not_mem_nil, or_false] at hq
    rcases hq with rfl | rfl | rfl
    · simp
    · exact recs_subset hwrap (by simp)
    · exact recs_subset hbranch (by simp)
  · simp [Rounds.plan]
  · intro _ p hp
    simp only [Rounds.plan, List.nodup_cons, List.mem_cons, List.not_mem_nil, or_false,
      not_or] at hown
    simp only [Rounds.plan, List.mem_append, List.mem_map, List.mem_cons, List.not_mem_nil,
      or_false] at hp
    rcases hp with ⟨k, -, rfl⟩ | rfl | rfl
    · exact fun h => hown.1.2 h.symm
    · exact fun h => hown.1.2 h.symm
    · exact fun h => hown.1.1 h.symm

theorem plan_fits {t : Tree} (hn : t.recs.Nodup) : t.plan.Fits t := by
  obtain ⟨r, o, ks⟩ := t
  have hks : (ks.flatMap recs).Nodup := nodup_kids hn
  have hroot : ∀ q ∈ [r], q ∉ ks.flatMap recs := fun q hq => by
    rw [List.mem_singleton.mp hq]
    exact root_notMem_kids hn
  have hpart : ∀ k ∈ ks, ∃ j ∈ (mk r o ks).kids, k ∈ j.subtrees :=
    fun k hk => ⟨k, hk, self_mem_subtrees k⟩
  rw [plan]
  split
  · rename_i hlog
    refine ⟨hpart, hks, ?_, ?_, ?_, ?_, by simp, by simp, fun h => absurd hlog h, hroot⟩
    · intro p hp
      obtain ⟨x, hx, rfl⟩ := List.mem_map.mp hp
      exact List.mem_of_mem_take hx
    · intro p hp
      obtain ⟨x, hx, rfl⟩ := List.mem_map.mp hp
      exact Or.inl (by simp)
    · intro p hp
      obtain ⟨z, hz, rfl⟩ := List.mem_map.mp hp
      simp
    · intro p hp
      obtain ⟨z, hz, rfl⟩ := List.mem_map.mp hp
      exact Or.inr ⟨z, List.mem_of_mem_drop hz, rfl⟩
  · split
    · rename_i d hd
      refine Rounds.plan_fits ?_ hn
      split at hd
      · exact hd
      · cases hd
    · refine ⟨hpart, hks, fun p hp => mem_of_mem_follow hp, ?_, by simp, by simp, by simp, by simp,
        by simp, hroot⟩
      intro p hp
      rcases mem_follow_target (nodup_of_flatMap_recs hks) hp with h | h
      · exact Or.inl (by simp [h])
      · exact Or.inr h

theorem part_mem {t k : Tree} (hn : t.recs.Nodup) (hk : k ∈ t.plan.parts) : k ∈ t.subtrees := by
  obtain ⟨j, hj, hkj⟩ := (plan_fits hn).part k hk
  exact subtrees_trans (kid_mem_subtrees hj) hkj

theorem nodup_part {t k : Tree} (hn : t.recs.Nodup) (hk : k ∈ t.plan.parts) : k.recs.Nodup :=
  nodup_subtree hn (part_mem hn hk)

theorem Edge.mem {t : Tree} {e q : RecId} (h : Edge t e q) (hn : t.recs.Nodup) :
    e ∈ t.recs ∧ q ∈ t.recs := by
  induction h with
  | @joint t p e hp he =>
    have hfit := plan_fits hn
    refine ⟨recs_subset (part_mem hn (hfit.joint p hp)) he.mem, ?_⟩
    rcases hfit.joint_to p hp with hq | ⟨k, hk, -, hq⟩
    · exact hfit.own hq
    · exact hq ▸ recs_subset (part_mem hn hk) k.start_mem_recs
  | @arm t p hp =>
    have hfit := plan_fits hn
    refine ⟨hfit.own (hfit.arm p hp), ?_⟩
    rcases hfit.arm_to p hp with hq | ⟨k, hk, hq⟩
    · exact hfit.own hq
    · exact hq ▸ recs_subset (part_mem hn hk) k.start_mem_recs
  | part hk _ ih =>
    have hin := ih (nodup_part hn hk)
    exact ⟨recs_subset (part_mem hn hk) hin.1, recs_subset (part_mem hn hk) hin.2⟩

/-- The trees inside of a tree whose steps are steps of it. -/
inductive Threaded : Tree → Tree → Prop where
  | refl (t : Tree) : Threaded t t
  | part {t k u : Tree} (hk : k ∈ t.plan.parts) (h : Threaded k u) : Threaded t u

theorem Threaded.mem {t u : Tree} (h : Threaded t u) (hn : t.recs.Nodup) : u ∈ t.subtrees := by
  induction h with
  | refl t => exact self_mem_subtrees t
  | part hk _ ih => exact subtrees_trans (part_mem hn hk) (ih (nodup_part hn hk))

theorem induct_below {P : Tree → Prop} (h : ∀ t, (∀ k ∈ t.kids, ∀ u ∈ k.subtrees, P u) → P t) (t : Tree) :
    P t := by
  have hall : ∀ u ∈ t.subtrees, P u := by
    induction t using induct with
    | h r o ks ih =>
      intro u hu
      rcases mem_subtrees_mk.mp hu with rfl | ⟨k, hk, hu⟩
      · exact h _ ih
      · exact ih k hk u hu
  exact hall t (self_mem_subtrees t)

theorem plan_loop {r : RecId} {o : Node} {ks : List Tree} {d : Rounds} (h : isLoop o ks = true)
    (hd : rounds? ks = some d) : (mk r o ks).plan = d.plan r := by
  have hlog : o.opClass ≠ .logop := by
    have hcode : o.code = .leaveloop := by
      simp only [isLoop, Bool.and_eq_true, beq_iff_eq] at h
      exact h.1
    simp [Node.opClass, Node.isEx, hcode, Opcode.opClass]
  rw [plan, if_neg hlog, if_pos h, hd]

theorem plan_cases (t : Tree) :
    t.plan.parts = t.kids ∧ t.plan.own = [t.root] ∨ ∃ d, rounds? t.kids = some d ∧ t.plan = d.plan t.root := by
  obtain ⟨r, o, ks⟩ := t
  by_cases hl : isLoop o ks = true
  · cases hd : rounds? ks with
    | some d => exact Or.inr ⟨d, hd, plan_loop hl hd⟩
    | none =>
      refine Or.inl ?_
      rw [plan, if_pos hl, hd]
      split <;> exact ⟨rfl, rfl⟩
  · refine Or.inl ?_
    rw [plan, if_neg hl]
    split <;> exact ⟨rfl, rfl⟩

/-- A tree below belongs to a part of the plan, or its root is in the frame of the loop. -/
theorem subtree_cases {t u : Tree} (hu : u ∈ t.subtrees) :
    u.root ∈ t.plan.own ∧ (u = t ∨ u.op.code = .null ∨ u.op.opClass = .logop) ∨
      u.op.code = .lineseq ∨ ∃ k ∈ t.plan.parts, u ∈ k.subtrees := by
  obtain ⟨r, o, ks⟩ := t
  rcases mem_subtrees_mk.mp hu with rfl | ⟨k, hk, huk⟩
  · refine Or.inl ⟨?_, Or.inl rfl⟩
    rcases plan_cases (mk r o ks) with ⟨-, hown⟩ | ⟨d, -, hplan⟩
    · simp [hown]
    · simp [hplan, Rounds.plan]
  rcases plan_cases (mk r o ks) with ⟨hparts, -⟩ | ⟨d, hd, hplan⟩
  · exact Or.inr (Or.inr ⟨k, by rwa [hparts], huk⟩)
  obtain ⟨wo, lo, so, hw, hl, hs, rfl⟩ := rounds?_eq_some hd
  rw [hplan]
  rcases List.mem_cons.mp hk with rfl | hk
  · exact Or.inr (Or.inr ⟨d.ent, by simp [Rounds.plan], huk⟩)
  rw [List.mem_singleton.mp hk] at huk
  rcases mem_subtrees_mk.mp huk with rfl | ⟨j, hj, huj⟩
  · exact Or.inl ⟨by simp [Rounds.plan], Or.inr (Or.inl hw)⟩
  rw [List.mem_singleton.mp hj] at huj
  rcases mem_subtrees_mk.mp huj with rfl | ⟨i, hi, hui⟩
  · exact Or.inl ⟨by simp [Rounds.plan], Or.inr (Or.inr hl)⟩
  rcases List.mem_cons.mp hi with rfl | hi
  · exact Or.inr (Or.inr ⟨d.test, by simp [Rounds.plan], hui⟩)
  rw [List.mem_singleton.mp hi] at hui
  rcases mem_subtrees_mk.mp hui with rfl | ⟨b, hb, hub⟩
  · exact Or.inr (Or.inl hs)
  · exact Or.inr (Or.inr ⟨b, by simp [Rounds.plan, hb], hub⟩)

theorem threaded_of_firm {t u : Tree} (hn : t.recs.Nodup) (hu : u ∈ t.subtrees) (hf : u.op.Firm) :
    Threaded t u := by
  induction t using induct_below with
  | h t ih =>
    rcases subtree_cases hu with ⟨-, rfl | hnull | hlog⟩ | hseq | ⟨k, hk, huk⟩
    · exact .refl _
    · exact absurd hnull hf.null
    · exact absurd hlog hf.logop
    · exact absurd hseq hf.lineseq
    · obtain ⟨j, hj, hkj⟩ := (plan_fits hn).part k hk
      exact .part hk (ih j hj k hkj (nodup_part hn hk) huk)

theorem start_eq_of_mem {t u : Tree} (hn : t.recs.Nodup) (hu : u ∈ t.subtrees) (hs : t.start ∈ u.recs) :
    u.start = t.start := by
  induction t using induct with
  | h r o ks ih =>
    rcases mem_subtrees_mk.mp hu with rfl | ⟨k, hk, huk⟩
    · rfl
    cases ks with
    | nil => simp at hk
    | cons j ks =>
      have hjk : j = k := eq_of_mem_recs (nodup_kids hn) (List.mem_cons_self ..) hk j.start_mem_recs
        (recs_subset huk hs)
      subst hjk
      exact ih j hk (nodup_of_mem (nodup_kids hn) hk) huk hs

/-- A tree is entered at its start: any other op of it is reached by a step of the tree itself. -/
theorem Edge.inside {t u : Tree} {e q : RecId} (h : Threaded t u) (hn : t.recs.Nodup) (he : Edge t e q)
    (hq : q ∈ u.recs) (hs : q ≠ u.start) : Edge u e q := by
  induction h with
  | refl => exact he
  | @part t k u hk h ih =>
    have hfit := plan_fits hn
    have hnk := nodup_part hn hk
    have huk := h.mem hnk
    have hqk := recs_subset huk hq
    have hown : q ∉ t.plan.own := fun hown => hfit.apart q hown (List.mem_flatMap.mpr ⟨k, hk, hqk⟩)
    have hstart : ∀ j ∈ t.plan.parts, q ≠ j.start := by
      rintro j hj rfl
      obtain rfl := eq_of_mem_recs hfit.nodup hj hk j.start_mem_recs hqk
      exact hs (start_eq_of_mem hnk huk hq).symm
    cases he with
    | joint hp _ =>
      rcases hfit.joint_to _ hp with ho | ⟨j, hj, -, hq'⟩
      · exact absurd ho hown
      · exact absurd hq' (hstart j hj)
    | arm hp =>
      rcases hfit.arm_to _ hp with ho | ⟨j, hj, hq'⟩
      · exact absurd ho hown
      · exact absurd hq' (hstart j hj)
    | part hj he =>
      have hqj := (he.mem (nodup_part hn hj)).2
      obtain rfl := eq_of_mem_recs hfit.nodup hj hk hqj hqk
      exact ih hnk he hq hs

theorem Edge.ne_root {t : Tree} {e q : RecId} (h : Edge t e q) (hn : t.recs.Nodup)
    (hl : t.op.opClass ≠ .logop) : e ≠ t.root := by
  have hfit := plan_fits hn
  have hroot : ∀ k ∈ t.plan.parts, e ∈ k.recs → e ≠ t.root := by
    rintro k hk hek rfl
    exact hfit.apart _ hfit.root (List.mem_flatMap.mpr ⟨k, hk, hek⟩)
  cases h with
  | joint hp he => exact hroot _ (hfit.joint _ hp) he.mem
  | arm hp => exact hfit.arm_root hl _ hp
  | part hk he => exact hroot _ hk (he.mem (nodup_part hn hk)).1

/-- The ops that the order of execution may come to. -/
inductive Live : Tree → RecId → Prop where
  | own {t : Tree} {r : RecId} (h : r ∈ t.plan.own) : Live t r
  | part {t k : Tree} {r : RecId} (hk : k ∈ t.plan.parts) (h : Live k r) : Live t r

theorem Live.mem {t : Tree} {r : RecId} (h : Live t r) (hn : t.recs.Nodup) : r ∈ t.recs := by
  induction h with
  | own h => exact (plan_fits hn).own h
  | part hk _ ih => exact recs_subset (part_mem hn hk) (ih (nodup_part hn hk))

theorem live_start (t : Tree) : Live t t.start := by
  induction t using induct with
  | h r o ks ih =>
    rcases plan_cases (mk r o ks) with ⟨hparts, hown⟩ | ⟨d, hd, hplan⟩
    · cases ks with
      | nil => exact .own (by rw [hown]; exact List.mem_singleton_self r)
      | cons k ks => exact .part (k := k) (by rw [hparts]; exact List.mem_cons_self ..) (ih k (by simp))
    · obtain ⟨wo, lo, so, -, -, -, rfl⟩ := rounds?_eq_some hd
      exact .part (k := d.ent) (by rw [hplan]; simp [Rounds.plan]) (ih d.ent (by simp))

theorem live_of_code {t u : Tree} (hn : t.recs.Nodup) (hu : u ∈ t.subtrees) (hc : u.op.code ≠ .lineseq) :
    Live t u.root := by
  induction t using induct_below with
  | h t ih =>
    rcases subtree_cases hu with ⟨hown, -⟩ | hseq | ⟨k, hk, huk⟩
    · exact .own hown
    · exact absurd hseq hc
    · obtain ⟨j, hj, hkj⟩ := (plan_fits hn).part k hk
      exact .part hk (ih j hj k hkj (nodup_part hn hk) huk)

theorem Edge.live {t : Tree} {e q : RecId} (h : Edge t e q) (hn : t.recs.Nodup) : Live t q := by
  induction h with
  | @joint t p e hp he =>
    rcases (plan_fits hn).joint_to p hp with hq | ⟨k, hk, -, hq⟩
    · exact .own hq
    · exact hq ▸ .part hk (live_start k)
  | @arm t p hp =>
    rcases (plan_fits hn).arm_to p hp with hq | ⟨k, hk, hq⟩
    · exact .own hq
    · exact hq ▸ .part hk (live_start k)
  | part hk _ ih => exact .part hk (ih (nodup_part hn hk))

end Tree

end OpTree
