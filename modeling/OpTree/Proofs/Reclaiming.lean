import OpTree.Proofs.Freeing

/-!
# What is freed with a tree

Kid links lead from the root of a tree to its ops. A sub that has a reference to spare is met but not passed. Freeing
the tree frees exactly the other ops that are met, each of them once; the subs that are met and not passed lose a
reference, and no other op of the arena changes.
-/

namespace OpTree

set_option autoImplicit false

namespace Tree

variable {t u : Tree} {r : RecId}

theorem root_owned (h : t.op.shared = false) : t.root ∈ t.owned := by
  rw [owned_eq h]
  exact List.mem_cons_self ..

theorem root_spared (h : t.op.shared = true) : t.root ∈ t.spared := by
  rw [spared_of_shared h]
  exact List.mem_singleton_self _

theorem flatMap_sublist {f g : Tree → List RecId} {ks : List Tree} (h : ∀ k ∈ ks, (f k).Sublist (g k)) :
    (ks.flatMap f).Sublist (ks.flatMap g) := by
  induction ks with
  | nil => exact List.Sublist.refl _
  | cons k ks ih =>
    rw [List.flatMap_cons, List.flatMap_cons]
    exact (h k (List.mem_cons_self ..)).append (ih fun j hj => h j (List.mem_cons_of_mem k hj))

theorem owned_sublist (t : Tree) : t.owned.Sublist t.recs := by
  induction t using induct with
  | h r o ks ih =>
    cases h : o.shared with
    | true =>
      rw [owned_of_shared (t := .mk r o ks) h]
      exact List.nil_sublist _
    | false =>
      rw [owned_eq (t := .mk r o ks) h, recs_mk]
      exact (flatMap_sublist ih).cons_cons r

/-- What is freed is the root of a tree all of which is freed or spared along with the whole. -/
theorem exists_of_owned (h : r ∈ t.owned) :
    ∃ u ∈ t.subtrees, u.root = r ∧ u.op.shared = false ∧ u.owned ⊆ t.owned ∧ u.spared ⊆ t.spared := by
  induction t using induct with
  | h q o ks ih =>
    cases ho : o.shared with
    | true => simp [owned_of_shared (t := .mk q o ks) ho] at h
    | false =>
      have howned := owned_eq (t := .mk q o ks) ho
      have hspared := spared_eq (t := .mk q o ks) ho
      rw [howned] at h
      rcases List.mem_cons.mp h with rfl | h
      · exact ⟨_, self_mem_subtrees _, rfl, ho, fun _ h => h, fun _ h => h⟩
      · obtain ⟨k, hk, hr⟩ := List.mem_flatMap.mp h
        obtain ⟨u, hu, hroot, hplain, ho, hs⟩ := ih k hk hr
        refine ⟨u, subtrees_trans (kid_mem_subtrees hk) hu, hroot, hplain, fun q hq => ?_, fun q hq => ?_⟩
        · rw [howned]
          exact List.mem_cons_of_mem _ (List.mem_flatMap.mpr ⟨k, hk, ho hq⟩)
        · rw [hspared]
          exact List.mem_flatMap.mpr ⟨k, hk, hs hq⟩

theorem exists_of_spared (h : r ∈ t.spared) : ∃ u ∈ t.subtrees, u.root = r ∧ u.op.shared = true := by
  induction t using induct with
  | h q o ks ih =>
    cases ho : o.shared with
    | true =>
      rw [spared_of_shared (t := .mk q o ks) ho] at h
      exact ⟨_, self_mem_subtrees _, (List.mem_singleton.mp h).symm, ho⟩
    | false =>
      rw [spared_eq (t := .mk q o ks) ho] at h
      obtain ⟨k, hk, hr⟩ := List.mem_flatMap.mp h
      obtain ⟨u, hu, hroot, hshared⟩ := ih k hk hr
      exact ⟨u, subtrees_trans (kid_mem_subtrees hk) hu, hroot, hshared⟩

theorem notMem_of_below_spared (hn : t.recs.Nodup) (hu : u ∈ t.subtrees) (hs : u.root ∈ t.spared)
    (hr : r ∈ u.kids.flatMap recs) : r ∉ t.owned ∧ r ∉ t.spared := by
  induction t using induct with
  | h q o ks ih =>
    cases ho : o.shared with
    | true =>
      rw [spared_of_shared (t := .mk q o ks) ho] at hs ⊢
      rw [owned_of_shared (t := .mk q o ks) ho]
      obtain rfl : u = .mk q o ks := eq_of_root_eq hn hu (self_mem_subtrees _) (List.mem_singleton.mp hs)
      refine ⟨List.not_mem_nil, fun hm => root_notMem_kids hn ?_⟩
      exact List.mem_singleton.mp hm ▸ hr
    | false =>
      rw [spared_eq (t := .mk q o ks) ho] at hs ⊢
      rw [owned_eq (t := .mk q o ks) ho]
      have hkn := nodup_kids hn
      obtain ⟨k, hk, hsk⟩ := List.mem_flatMap.mp hs
      have hroot : u.root ∈ ks.flatMap recs := List.mem_flatMap.mpr ⟨k, hk, k.spared_subset hsk⟩
      have huk : u ∈ k.subtrees := by
        rcases mem_subtrees_mk.mp hu with rfl | ⟨j, hj, huj⟩
        · exact absurd hroot (root_notMem_kids hn)
        · have hju : u.root ∈ j.recs := recs_subset huj u.root_mem_recs
          obtain rfl := eq_of_mem_recs hkn hj hk hju (k.spared_subset hsk)
          exact huj
      have hrk : r ∈ k.recs := recs_subset huk (u.kids_recs_subset hr)
      obtain ⟨hro, hrs⟩ := ih k hk (nodup_of_mem hkn hk) huk hsk
      -- no other kid has the record
      have hother : ∀ {f : Tree → List RecId}, (∀ j, f j ⊆ j.recs) → r ∉ f k → r ∉ ks.flatMap f := by
        intro f hf hrf hm
        obtain ⟨j, hj, hrj⟩ := List.mem_flatMap.mp hm
        obtain rfl := eq_of_mem_recs hkn hj hk (hf j hrj) hrk
        exact hrf hrj
      refine ⟨fun hm => ?_, hother spared_subset hrs⟩
      rcases List.mem_cons.mp hm with rfl | hm
      · exact root_notMem_kids hn (List.mem_flatMap.mpr ⟨k, hk, hrk⟩)
      · exact hother owned_subset hro hm

end Tree

namespace Arena

variable {a b : Arena} {t : Tree} {r : RecId}

/-- The op is met along the kid links from a root, past no sub that has a reference to spare. -/
inductive Exposed (a : Arena) (root : RecId) : RecId → Prop where
  | root : Exposed a root root
  | kid {r k : RecId} (h : Exposed a root r) (hr : (a.node r).shared = false) (hk : k ∈ a.kids r) : Exposed a root k

theorem Unfolds.shared_of_owned (h : a.Unfolds t) (hr : r ∈ t.owned) : (a.node r).shared = false := by
  obtain ⟨u, hu, rfl, hplain, -⟩ := Tree.exists_of_owned hr
  rw [← hplain, ← (h u hu).op, Node.shared_plain]

theorem Unfolds.shared_of_spared (h : a.Unfolds t) (hr : r ∈ t.spared) : (a.node r).shared = true := by
  obtain ⟨u, hu, rfl, hshared⟩ := Tree.exists_of_spared hr
  rw [← hshared, ← (h u hu).op, Node.shared_plain]

theorem Unfolds.root_cases (h : a.Unfolds t) :
    (a.node t.root).shared = false ∧ t.root ∈ t.owned ∨ (a.node t.root).shared = true ∧ t.root ∈ t.spared := by
  cases hs : t.op.shared with
  | true => exact Or.inr ⟨h.shared.trans hs, Tree.root_spared hs⟩
  | false => exact Or.inl ⟨h.shared.trans hs, Tree.root_owned hs⟩

theorem Exposed.cases (hr : a.Exposed t.root r) (h : a.Unfolds t) :
    (a.node r).shared = false ∧ r ∈ t.owned ∨ (a.node r).shared = true ∧ r ∈ t.spared := by
  induction hr with
  | root => exact h.root_cases
  | @kid r k _ hr hk ih =>
    obtain ⟨-, hro⟩ : (a.node r).shared = false ∧ r ∈ t.owned := ih.resolve_right fun hs => by simp [hr] at hs
    obtain ⟨u, hu, rfl, hplain, ho, hs⟩ := Tree.exists_of_owned hro
    rw [(h u hu).kids] at hk
    obtain ⟨j, hj, rfl⟩ := List.mem_map.mp hk
    have hju : a.Unfolds j := fun v hv => h v (Tree.subtrees_trans hu (Tree.subtrees_trans (Tree.kid_mem_subtrees hj) hv))
    refine hju.root_cases.imp (And.imp_right fun hm => ho ?_) (And.imp_right fun hm => hs ?_)
    · rw [Tree.owned_eq hplain]
      exact List.mem_cons_of_mem _ (List.mem_flatMap.mpr ⟨j, hj, hm⟩)
    · rw [Tree.spared_eq hplain]
      exact List.mem_flatMap.mpr ⟨j, hj, hm⟩

theorem Unfolds.exposed {root : RecId} (h : a.Unfolds t) (hroot : a.Exposed root t.root)
    (hr : r ∈ t.owned ∨ r ∈ t.spared) : a.Exposed root r := by
  induction t using Tree.induct with
  | h q o ks ih =>
    cases ho : o.shared with
    | true =>
      rw [Tree.owned_of_shared (t := .mk q o ks) ho, Tree.spared_of_shared (t := .mk q o ks) ho] at hr
      obtain rfl : r = q := by simpa using hr
      exact hroot
    | false =>
      rw [Tree.owned_eq (t := .mk q o ks) ho, Tree.spared_eq (t := .mk q o ks) ho, List.mem_cons, or_assoc] at hr
      rcases hr with rfl | hr
      · exact hroot
      · obtain ⟨k, hk, hr⟩ : ∃ k ∈ ks, r ∈ k.owned ∨ r ∈ k.spared := by
          rcases hr with hr | hr <;> obtain ⟨k, hk, hr⟩ := List.mem_flatMap.mp hr
          · exact ⟨k, hk, Or.inl hr⟩
          · exact ⟨k, hk, Or.inr hr⟩
        refine ih k hk (h.kid hk) (hroot.kid (h.shared.trans ho) ?_) hr
        rw [h.spells.kids]
        exact List.mem_map_of_mem hk

theorem Unfolds.mem_owned_iff (h : a.Unfolds t) :
    r ∈ t.owned ↔ a.Exposed t.root r ∧ (a.node r).shared = false :=
  ⟨fun hr => ⟨h.exposed .root (Or.inl hr), h.shared_of_owned hr⟩,
    fun ⟨hr, hplain⟩ => ((hr.cases h).resolve_right fun hs => by simp [hplain] at hs).2⟩

theorem Unfolds.mem_spared_iff (h : a.Unfolds t) :
    r ∈ t.spared ↔ a.Exposed t.root r ∧ (a.node r).shared = true :=
  ⟨fun hr => ⟨h.exposed .root (Or.inr hr), h.shared_of_spared hr⟩,
    fun ⟨hr, hshared⟩ => ((hr.cases h).resolve_left fun hs => by simp [hshared] at hs).2⟩

/-- What freeing a tree that was carved from the group `g` leaves in `b`. The ops that are freed are those that are
met from the root, but for the subs with a reference to spare; they are counted once each. -/
structure Reclaimed (a b : Arena) (g : Group) (t : Tree) : Prop where
  owned : ∀ r, r ∈ t.owned ↔ a.Exposed t.root r ∧ (a.node r).shared = false
  nodup : t.owned.Nodup
  freed : ∀ r ∈ t.owned, (b.node r).code = .freed
  spared : ∀ r, a.Exposed t.root r → (a.node r).shared = true →
    b.node r = { a.node r with refs := (a.node r).refs - 1 }
  intact : ∀ u ∈ t.subtrees, a.Exposed t.root u.root → u.op.shared = true →
    ∀ k ∈ u.kids, b.Unfolds k ∧ ∀ r ∈ k.recs, b.node r = a.node r
  outside : ∀ r, ¬a.Exposed t.root r → b.node r = a.node r
  size : b.recs.size = a.recs.size
  rest : b = { a with recs := b.recs, group? := b.group? }
  group : ∃ o, b.group? = some { g with
    live := g.live - t.owned.length, liveUnits := g.liveUnits - (t.owned.map fun r => (a.node r).size).sum,
    free := o, freeCount := g.freeCount + t.owned.length }

theorem carved_of_slab {rs : List RecId} (h : ∀ r ∈ rs, (a.node r).static = false) :
    a.carved rs = rs.length ∧ a.carvedUnits rs = (rs.map fun r => (a.node r).size).sum := by
  refine ⟨List.countP_eq_length.mpr fun r hr => by simp [h r hr], ?_⟩
  exact congrArg List.sum (List.map_congr_left fun r hr => by simp [h r hr])

theorem dereferenced_of_shared {n : Node} (h : n.shared = true) : n.dereferenced = { n with refs := n.refs - 1 } := by
  simp only [Node.shared, Bool.and_eq_true, decide_eq_true_eq] at h
  have hpos : 0 < n.refs := by omega
  simp [Node.dereferenced, h.1, hpos]

/-- **Freeing a tree.** It comes to an end, whatever else is in the arena, and frees exactly the ops that are met along
kid links from the root, past no sub that has a reference to spare. -/
theorem freeTree_reclaims {g : Group} (h : a.Unfolds t) (hn : t.recs.Nodup)
    (hslab : ∀ r ∈ t.recs, (a.node r).static = false) (hg : a.group? = some g) :
    ∃ b, TreeM.freeTree t.root a = .ok () b ∧ Reclaimed a b g t := by
  have hlaid : a.Laid [t] := ⟨by simpa using h, by simpa using hn⟩
  obtain ⟨b, hok, -, hd⟩ := TreeM.freeTree_laid hlaid (by rw [hg]; rfl)
  have howned : [t].flatMap Tree.owned = t.owned := List.flatMap_singleton ..
  have hspared : [t].flatMap Tree.spared = t.spared := List.flatMap_singleton ..
  obtain ⟨hcount, hunits⟩ := carved_of_slab fun r hr => hslab r (t.owned_subset hr)
  have hkept : ∀ r, r ∉ t.owned → r ∉ t.spared → b.node r = a.node r := by
    simpa only [howned, hspared] using hd.node
  have hintact : ∀ u ∈ t.subtrees, a.Exposed t.root u.root → u.op.shared = true →
      ∀ k ∈ u.kids, ∀ r ∈ k.recs, b.node r = a.node r := by
    intro u hu hm hs k hk r hr
    have hroot : u.root ∈ t.spared := h.mem_spared_iff.mpr ⟨hm, by rw [← hs, ← (h u hu).op, Node.shared_plain]⟩
    obtain ⟨ho, hsp⟩ := Tree.notMem_of_below_spared hn hu hroot (List.mem_flatMap.mpr ⟨k, hk, hr⟩)
    exact hkept r ho hsp
  refine ⟨b, hok, fun r => h.mem_owned_iff, hn.sublist t.owned_sublist, fun r hr => hd.freed r (howned ▸ hr),
    fun r hr hs => ?_, fun u hu hm hs k hk => ⟨?_, hintact u hu hm hs k hk⟩, fun r hr => ?_, hd.size, hd.rest, ?_⟩
  · rw [hd.spared r (hspared ▸ h.mem_spared_iff.mpr ⟨hr, hs⟩), dereferenced_of_shared hs]
  · have hku : a.Unfolds k := fun v hv => h v (Tree.subtrees_trans hu (Tree.subtrees_trans (Tree.kid_mem_subtrees hk) hv))
    exact hku.congr hd.size (hintact u hu hm hs k hk)
  · exact hkept r (fun hm => hr (h.mem_owned_iff.mp hm).1) fun hm => hr (h.mem_spared_iff.mp hm).1
  · obtain ⟨o, ho⟩ := hd.group
    refine ⟨o, ?_⟩
    rw [ho, hg, howned, hcount, hunits]
    rfl

/-- A list with two subs below it. The first one has a reference to spare, the second one has not. -/
def nestedSubs : Arena where
  recs := #[{ code := .list, flags := Flags.kids, first := some 1, last := some 3, id := 1, size := 2 },
    { code := .leavesub, flags := Flags.kids, first := some 2, sib := .next (some 3), refs := 2, id := 2, size := 2 },
    { code := .const, sib := .up 1, id := 3, size := 2 },
    { code := .leavesub, flags := Flags.kids, first := some 4, sib := .up 0, refs := 1, id := 4, size := 2 },
    { code := .const, sib := .up 3, id := 5, size := 2 }]
  group? := some { slabs := [⟨64, 10, 5⟩], total := 64, live := 5, liveUnits := 10 }

def nestedSubsTree : Tree :=
  .mk 0 (nestedSubs.node 0).plain [.mk 1 (nestedSubs.node 1).plain [.mk 2 (nestedSubs.node 2).plain []],
    .mk 3 (nestedSubs.node 3).plain [.mk 4 (nestedSubs.node 4).plain []]]

/-- The list and the second sub are freed; the first sub loses a reference and keeps its kid. -/
theorem freeTree_reclaims_nested : ∃ b g, TreeM.freeTree 0 nestedSubs = .ok () b ∧ b.group? = some g ∧
    g.live = 2 ∧ g.liveUnits = 4 ∧ g.freeCount = 3 ∧ (b.node 4).code = .freed ∧ (b.node 1).refs = 1 ∧
    b.node 2 = nestedSubs.node 2 := by
  have hunf : nestedSubs.Unfolds nestedSubsTree := by
    intro u hu
    have hmem : u = nestedSubsTree ∨ u = .mk 1 (nestedSubs.node 1).plain [.mk 2 (nestedSubs.node 2).plain []] ∨
        u = .mk 2 (nestedSubs.node 2).plain [] ∨
        u = .mk 3 (nestedSubs.node 3).plain [.mk 4 (nestedSubs.node 4).plain []] ∨
        u = .mk 4 (nestedSubs.node 4).plain [] := by
      simpa [nestedSubsTree, Tree.subtrees, Tree.subtreesAll] using hu
    rcases hmem with rfl | rfl | rfl | rfl | rfl <;> exact ⟨by decide, rfl, by decide, rfl⟩
  obtain ⟨b, hrun, hb⟩ := freeTree_reclaims hunf (by decide) (by decide) rfl
  have hmet : nestedSubs.Exposed 0 1 := Exposed.root.kid (by decide) (by decide)
  obtain ⟨o, ho⟩ := hb.group
  have hsub : b.node 1 = { nestedSubs.node 1 with refs := (nestedSubs.node 1).refs - 1 } := hb.spared 1 hmet (by decide)
  have hkid := (hb.intact (.mk 1 (nestedSubs.node 1).plain [.mk 2 (nestedSubs.node 2).plain []])
    (Tree.kid_mem_subtrees (t := nestedSubsTree) (List.mem_cons_self ..)) hmet (by decide) _ (List.mem_cons_self ..)).2
  refine ⟨b, _, hrun, ho, rfl, rfl, rfl, hb.freed 4 (by decide), ?_, hkid 2 (by decide)⟩
  rw [hsub]
  rfl

end Arena

end OpTree
