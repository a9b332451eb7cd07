import OpTree.Proofs.Wired

/-!
# Replacing a tree inside of another one

A fused access takes the place of a whole tree. The new tree has the same root and starts at the same
op, so nothing around it has to change.
-/

namespace OpTree

set_option autoImplicit false

namespace Tree

mutual

/-- The tree with the tree at a record replaced. -/
def graft (r : RecId) (v : Tree) : Tree → Tree
  | mk q o ks => if q = r then v else mk q o (graftAll r v ks)

def graftAll (r : RecId) (v : Tree) : List Tree → List Tree
  | [] => []
  | k :: ks => graft r v k :: graftAll r v ks

end

section Graft

variable {r : RecId} {v : Tree}

theorem graftAll_eq (ks : List Tree) : graftAll r v ks = ks.map (graft r v) := by
  induction ks with
  | nil => rfl
  | cons k ks ih => simp [graftAll, ih]

theorem graft_mk_of_ne {q : RecId} {o : Node} {ks : List Tree} (h : q ≠ r) :
    graft r v (mk q o ks) = mk q o (ks.map (graft r v)) := by
  rw [graft, if_neg h, graftAll_eq]

theorem graft_of_root {t : Tree} (h : t.root = r) : graft r v t = v := by
  obtain ⟨q, o, ks⟩ := t
  rw [graft, if_pos (show q = r from h)]

theorem graft_of_notMem {t : Tree} (h : r ∉ t.recs) : graft r v t = t := by
  induction t using induct with
  | h q o ks ih =>
    rw [recs_mk, List.mem_cons, not_or] at h
    rw [graft_mk_of_ne fun he => h.1 he.symm]
    congr 1
    refine (List.map_congr_left fun k hk => ih k hk fun hr => ?_).trans (List.map_id _)
    exact h.2 (List.mem_flatMap.mpr ⟨k, hk, hr⟩)

theorem root_graft (t : Tree) (hv : v.root = r) : (graft r v t).root = t.root := by
  obtain ⟨q, o, ks⟩ := t
  by_cases hq : q = r
  · rw [graft_of_root (t := mk q o ks) hq, hv]
    exact hq.symm
  · rw [graft_mk_of_ne hq]
    rfl

theorem op_graft_of_ne {t : Tree} (h : t.root ≠ r) : (graft r v t).op = t.op := by
  obtain ⟨q, o, ks⟩ := t
  rw [graft_mk_of_ne (show q ≠ r from h)]
  rfl

theorem kids_graft_of_ne {t : Tree} (h : t.root ≠ r) : (graft r v t).kids = t.kids.map (graft r v) := by
  obtain ⟨q, o, ks⟩ := t
  rw [graft_mk_of_ne (show q ≠ r from h)]
  rfl

end Graft

theorem nested {t u w : Tree} {x : RecId} (hn : t.recs.Nodup) (hu : u ∈ t.subtrees) (hw : w ∈ t.subtrees)
    (hxu : x ∈ u.recs) (hxw : x ∈ w.recs) : u ∈ w.subtrees ∨ w ∈ u.subtrees := by
  induction t using induct with
  | h r o ks ih =>
    rcases mem_subtrees_mk.mp hu with rfl | ⟨k, hk, huk⟩
    · exact Or.inr hw
    rcases mem_subtrees_mk.mp hw with rfl | ⟨j, hj, hwj⟩
    · exact Or.inl hu
    obtain rfl := eq_of_mem_recs (nodup_kids hn) hk hj (recs_subset huk hxu) (recs_subset hwj hxw)
    exact ih k hk (nodup_of_mem (nodup_kids hn) hk) huk hwj

/-- A tree may be replaced by one of some of its records that has the same root. -/
structure Fitting (t u v : Tree) : Prop where
  mem : u ∈ t.subtrees
  nodup : t.recs.Nodup
  root : v.root = u.root
  recs : v.recs ⊆ u.recs
  nodup' : v.recs.Nodup

section Fitting

variable {t u v : Tree}

theorem Fitting.subtree {k : Tree} (h : Fitting t u v) (hk : k ∈ t.subtrees) (hu : u ∈ k.subtrees) :
    Fitting k u v := ⟨hu, nodup_subtree h.nodup hk, h.root, h.recs, h.nodup'⟩

theorem Fitting.cases {k : Tree} (h : Fitting t u v) (hk : k ∈ t.subtrees) :
    u ∈ k.subtrees ∨ u.root ∉ k.recs := by
  by_cases hr : u.root ∈ k.recs
  · obtain ⟨w, hw, hwr⟩ := List.mem_map.mp hr
    exact Or.inl (eq_of_root_eq h.nodup (subtrees_trans hk hw) h.mem hwr ▸ hw)
  · exact Or.inr hr

theorem Fitting.kid {q : RecId} {o : Node} {ks : List Tree} (h : Fitting (Tree.mk q o ks) u v)
    (hq : q ≠ u.root) : q ∉ u.recs ∧ ∃ j ∈ ks, Fitting j u v ∧ ∀ k ∈ ks, k ≠ j →
      (∀ r ∈ k.recs, r ∉ u.recs) ∧ u.root ∉ k.recs := by
  refine ⟨root_notMem_below h.nodup h.mem fun he => hq he.symm, ?_⟩
  rcases mem_subtrees_mk.mp h.mem with rfl | ⟨j, hj, hu⟩
  · exact absurd rfl hq
  · refine ⟨j, hj, h.subtree (kid_mem_subtrees hj) hu, fun k hk hne => ?_⟩
    have hdisj : ∀ r ∈ k.recs, r ∉ u.recs := fun r hr hru =>
      hne (eq_of_mem_recs (nodup_kids h.nodup) hk hj hr (recs_subset hu hru))
    exact ⟨hdisj, fun hr => hdisj _ hr u.root_mem_recs⟩

theorem Fitting.start_graft (h : Fitting t u v) (hs : v.start = u.start) :
    (graft u.root v t).start = t.start := by
  induction t using induct with
  | h q o ks ih =>
    by_cases hq : q = u.root
    · rw [graft_of_root (t := .mk q o ks) hq, hs]
      exact congrArg Tree.start (eq_of_root_eq h.nodup h.mem (self_mem_subtrees _) hq.symm)
    rw [graft_mk_of_ne hq]
    cases ks with
    | nil => rfl
    | cons k ks =>
      rw [List.map_cons]
      have hk : k ∈ (Tree.mk q o (k :: ks)).subtrees := kid_mem_subtrees (by simp)
      rcases h.cases hk with hu | hu
      · exact ih k (by simp) (h.subtree hk hu)
      · rw [graft_of_notMem hu]
        rfl

theorem Fitting.start_part {k : Tree} (h : Fitting t u v) (hs : v.start = u.start)
    (hk : k ∈ t.subtrees) : (graft u.root v k).start = k.start := by
  rcases h.cases hk with hu | hu
  · exact (h.subtree hk hu).start_graft hs
  · rw [graft_of_notMem hu]

theorem Fitting.mem_recs (h : Fitting t u v) {x : RecId} :
    x ∈ (graft u.root v t).recs ↔ x ∈ v.recs ∨ x ∈ t.recs ∧ x ∉ u.recs := by
  induction t using induct with
  | h q o ks ih =>
    by_cases hq : q = u.root
    · obtain rfl := eq_of_root_eq h.nodup (self_mem_subtrees _) h.mem hq
      rw [graft_of_root (t := .mk q o ks) rfl]
      simp only [and_not_self, or_false]
    obtain ⟨hqu, j, hj, hfit, hrest⟩ := h.kid hq
    have hthere := ih j hj hfit
    rw [graft_mk_of_ne hq, recs_mk, recs_mk, List.mem_cons, List.mem_cons, List.mem_flatMap,
      List.mem_flatMap]
    constructor
    · rintro (rfl | ⟨k', hk', hx⟩)
      · exact Or.inr ⟨Or.inl rfl, hqu⟩
      obtain ⟨k, hk, rfl⟩ := List.mem_map.mp hk'
      by_cases hkj : k = j
      · subst hkj
        exact (hthere.mp hx).imp_right fun hx => ⟨Or.inr ⟨k, hk, hx.1⟩, hx.2⟩
      · rw [graft_of_notMem (hrest k hk hkj).2] at hx
        exact Or.inr ⟨Or.inr ⟨k, hk, hx⟩, (hrest k hk hkj).1 x hx⟩
    · rintro (hx | ⟨rfl | ⟨k, hk, hx⟩, hxu⟩)
      · exact Or.inr ⟨_, List.mem_map_of_mem hj, hthere.mpr (Or.inl hx)⟩
      · exact Or.inl rfl
      · refine Or.inr ⟨_, List.mem_map_of_mem hk, ?_⟩
        by_cases hkj : k = j
        · subst hkj
          exact hthere.mpr (Or.inr ⟨hx, hxu⟩)
        · rwa [graft_of_notMem (hrest k hk hkj).2]

theorem Fitting.nodup_graft (h : Fitting t u v) : (graft u.root v t).recs.Nodup := by
  induction t using induct with
  | h q o ks ih =>
    by_cases hq : q = u.root
    · rw [graft_of_root (t := .mk q o ks) hq]
      exact h.nodup'
    obtain ⟨hqu, j, hj, hfit, hrest⟩ := h.kid hq
    have hsub : ∀ k ∈ ks, (graft u.root v k).recs ⊆ k.recs := by
      intro k hk x hx
      rcases h.cases (kid_mem_subtrees hk) with hu | hu
      · rcases (h.subtree (kid_mem_subtrees hk) hu).mem_recs.mp hx with hx | hx
        · exact recs_subset hu (h.recs hx)
        · exact hx.1
      · rwa [graft_of_notMem hu] at hx
    have hks := nodup_kids h.nodup
    rw [graft_mk_of_ne hq, recs_mk, List.nodup_cons]
    refine ⟨fun hmem => ?_, ?_⟩
    · obtain ⟨k', hk', hx⟩ := List.mem_flatMap.mp hmem
      obtain ⟨k, hk, rfl⟩ := List.mem_map.mp hk'
      exact root_notMem_kids h.nodup (List.mem_flatMap.mpr ⟨k, hk, hsub k hk hx⟩)
    · rw [List.flatMap_map]
      rw [kids_mk, List.nodup_flatMap] at hks
      rw [List.nodup_flatMap]
      refine ⟨fun k hk => ?_, ?_⟩
      · by_cases hkj : k = j
        · exact hkj ▸ ih j hj hfit
        · rw [graft_of_notMem (hrest k hk hkj).2]
          exact hks.1 k hk
      · refine hks.2.imp_of_mem fun {k i} hk hi hd => ?_
        intro x hx hx'
        exact hd (hsub k hk hx) (hsub i hi hx')

/-- A tree inside of the result is inside of the new one, or stands around or beside it. -/
theorem Fitting.mem_subtrees (h : Fitting t u v) {w' : Tree} (hw : w' ∈ (graft u.root v t).subtrees) :
    w' ∈ v.subtrees ∨ ∃ w ∈ t.subtrees, w.root ∉ u.recs ∧ w' = graft u.root v w := by
  induction t using induct with
  | h q o ks ih =>
    by_cases hq : q = u.root
    · rw [graft_of_root (t := .mk q o ks) hq] at hw
      exact Or.inl hw
    obtain ⟨hqu, j, hj, hfit, hrest⟩ := h.kid hq
    have hgraft := @graft_mk_of_ne _ v q o ks hq
    rw [hgraft] at hw
    rcases mem_subtrees_mk.mp hw with rfl | ⟨k', hk', hw⟩
    · exact Or.inr ⟨_, self_mem_subtrees _, hqu, hgraft.symm⟩
    obtain ⟨k, hk, rfl⟩ := List.mem_map.mp hk'
    by_cases hkj : k = j
    · subst hkj
      rcases ih k hk hfit hw with hw | ⟨w, hwk, hwu, rfl⟩
      · exact Or.inl hw
      · exact Or.inr ⟨w, subtrees_trans (kid_mem_subtrees hk) hwk, hwu, rfl⟩
    · have hout := hrest k hk hkj
      rw [graft_of_notMem hout.2] at hw
      refine Or.inr ⟨w', subtrees_trans (kid_mem_subtrees hk) hw,
        hout.1 _ (recs_subset hw w'.root_mem_recs), ?_⟩
      rw [graft_of_notMem fun hr => hout.2 (recs_subset hw hr)]

end Fitting

end Tree

namespace Arena

open OpTree.Tree

variable {S : Course} {a b : Arena} {t u v : Tree}

theorem Holds.graft (h : a.Holds t) (hf : Fitting t u v) (hv : b.Holds v)
    (hsize : a.recs.size ≤ b.recs.size) (hout : ∀ r ∈ t.recs, r ∉ u.recs → SamePlace a b r)
    (hsib : (b.node u.root).sib = (a.node u.root).sib) : b.Holds (Tree.graft u.root v t) := by
  induction t using induct with
  | h q o ks ih =>
    by_cases hq : q = u.root
    · rw [graft_of_root (t := .mk q o ks) hq]
      exact hv
    obtain ⟨hqu, j, hj, hfit, hrest⟩ := hf.kid hq
    have hroots : (ks.map (Tree.graft u.root v)).map Tree.root = ks.map Tree.root := by
      rw [List.map_map]
      exact List.map_congr_left fun k _ => root_graft k hf.root
    have hkids : ∀ k ∈ ks, k.recs ⊆ (Tree.mk q o ks).recs := fun k hk => kid_recs_subset hk
    have hfits := h.fits
    obtain ⟨hop, hfirst, hlast, hsibq⟩ := hout q (by simp) hqu
    rw [graft_mk_of_ne hq, holds_mk]
    refine ⟨⟨?_, ?_, hfits.live, ?_, fun htr => ?_, ?_⟩, ?_⟩
    · exact Nat.lt_of_lt_of_le hfits.lt hsize
    · exact hop.trans hfits.op
    · rw [kids_mk, ← List.head?_map, hroots, List.head?_map]
      exact hfirst.trans hfits.first
    · rw [kids_mk, ← List.getLast?_map, hroots, List.getLast?_map]
      exact hlast.trans (hfits.last htr)
    · rw [kids_mk, hroots]
      refine hfits.sibs.congr fun r hr => ?_
      obtain ⟨k, hk, rfl⟩ := List.mem_map.mp hr
      by_cases hku : k.root ∈ u.recs
      · -- a kid whose root is replaced is the tree itself
        have hkj : k = j := by
          by_contra hkj
          exact (hrest k hk hkj).1 _ k.root_mem_recs hku
        subst hkj
        have hkr : u.root = k.root := by
          by_contra hne
          exact root_notMem_below hfit.nodup hfit.mem hne hku
        rw [← hkr]
        exact hsib
      · exact (hout k.root (hkids k hk k.root_mem_recs) hku).2.2.2
    · intro k' hk'
      obtain ⟨k, hk, rfl⟩ := List.mem_map.mp hk'
      by_cases hkj : k = j
      · subst hkj
        exact ih k hk (h.kid hk) hfit fun r hr hru => hout r (hkids k hk hr) hru
      · rw [graft_of_notMem (hrest k hk hkj).2]
        exact (h.kid hk).of_samePlace hsize fun r hr => hout r (hkids k hk hr) ((hrest k hk hkj).1 r hr)

/-- A tree has been replaced by its root and, under it, its start, which has become a null op. -/
structure Swapped (a b : Arena) (t u : Tree) (s : RecId) : Prop where
  mem : u ∈ t.subtrees
  firm : u.op.Firm
  below : u.root ≠ t.root
  start : u.start = s
  ne : s ≠ u.root
  solid : (a.node s).passes = false
  forest : b.Forest [Tree.graft u.root
    (.mk u.root (b.node u.root).plain [.mk s (b.node s).plain []]) t]
  outside : ∀ r ∈ t.recs, r ∉ u.recs → b.node r = a.node r
  null : (b.node s).code = .null
  not_logop : (b.node s).opClass ≠ .logop
  code : (b.node u.root).code = .multideref
  next : (b.node s).next = some u.root
  next_root : (b.node u.root).next = (a.node u.root).next
  other : (b.node s).other = none
  other_root : (b.node u.root).other = none
  processed : (b.node s).processed = (a.node s).processed
  processed_root : (b.node u.root).processed = (a.node u.root).processed
  /-- Nothing inside of the old tree had been visited. -/
  clear : ∀ r ∈ u.recs, (a.node r).processed = true → r = s
  unmarked : ∀ r, (b.node r).processed = true → (a.node r).processed = true
  shape : (b.node s).Shape 0
  shape_root : (b.node u.root).Shape 1
  id : (b.node s).id = (a.node s).id
  id_root : (b.node u.root).id = (a.node u.root).id
  held : b.Held
  tune : b.tune = a.tune
  pad : b.pad = a.pad
  size : b.recs.size = a.recs.size
  recalls : (a.node s).Recalls (b.node s)
  turn : (a.node s).turn = .stays
  turn_root : (a.node u.root).turn = .stays

namespace Swapped

variable {s : RecId}

/-- What stands in the place of the old tree. -/
def tree (b : Arena) (u : Tree) (s : RecId) : Tree :=
  .mk u.root (b.node u.root).plain [.mk s (b.node s).plain []]

theorem recs_tree : (tree b u s).recs = [u.root, s] := by simp [tree]

theorem fitting (h : Swapped a b t u s) (hn : t.recs.Nodup) : Fitting t u (tree b u s) := by
  refine ⟨h.mem, hn, rfl, ?_, ?_⟩
  · intro r hr
    rw [recs_tree] at hr
    simp only [List.mem_cons, List.not_mem_nil, or_false] at hr
    rcases hr with rfl | rfl
    · exact u.root_mem_recs
    · exact h.start ▸ u.start_mem_recs
  · rw [recs_tree]
    simpa using h.ne.symm

theorem start_tree (h : Swapped a b t u s) : (tree b u s).start = u.start := h.start.symm

theorem mem_recs (h : Swapped a b t u s) (hn : t.recs.Nodup) {r : RecId} :
    r ∈ (Tree.graft u.root (tree b u s) t).recs ↔ r ∈ t.recs ∧ (r ∈ u.recs → r = u.root ∨ r = s) := by
  have hs : s ∈ u.recs := h.start ▸ u.start_mem_recs
  rw [(h.fitting hn).mem_recs, recs_tree]
  simp only [List.mem_cons, List.not_mem_nil, or_false]
  constructor
  · rintro ((rfl | rfl) | ⟨hr, hru⟩)
    · exact ⟨recs_subset h.mem u.root_mem_recs, fun _ => Or.inl rfl⟩
    · exact ⟨recs_subset h.mem hs, fun _ => Or.inr rfl⟩
    · exact ⟨hr, fun h => absurd h hru⟩
  · rintro ⟨hr, hru⟩
    by_cases h : r ∈ u.recs
    · exact Or.inl (hru h)
    · exact Or.inr ⟨hr, h⟩

theorem passes_start (h : Swapped a b t u s) : (b.node s).passes = true := by
  rw [Node.passes, h.null]

theorem passes (h : Swapped a b t u s) {r : RecId} (hr : r ∈ t.recs) (hs : r ∉ u.recs ∨ r = s)
    (hp : (a.node r).passes = true) : (b.node r).passes = true := by
  rcases hs with hs | rfl
  · rwa [h.outside r hr hs]
  · exact h.passes_start

theorem start_of_mem_tree {w : Tree} (hw : w ∈ (tree b u s).subtrees) : w.start = s := by
  rcases mem_subtrees_mk.mp hw with rfl | ⟨k, hk, hwk⟩
  · rfl
  · rw [List.mem_singleton.mp hk] at hwk
    rcases mem_subtrees_mk.mp hwk with rfl | ⟨j, hj, -⟩
    · rfl
    · cases hj

/-- What a tree around or beside the old one has in common with what it has become. -/
structure Around (u w w' : Tree) (s : RecId) : Prop where
  root : w'.root = w.root
  op : w'.op = w.op
  kids : w'.kids.length = w.kids.length
  start : w'.start = w.start
  recs : w'.recs ⊆ w.recs
  rest : ∀ r ∈ w.recs, (r ∈ u.recs → r = u.root ∨ r = s) → r ∈ w'.recs
  start_out : w.start ∉ u.recs ∨ w.start = s

theorem around (h : Swapped a b t u s) (hn : t.recs.Nodup) {w : Tree} (hw : w ∈ t.subtrees)
    (hwu : w.root ∉ u.recs) : Around u w (Tree.graft u.root (tree b u s) w) s := by
  have hfit := h.fitting hn
  have hne : w.root ≠ u.root := fun he => hwu (he ▸ u.root_mem_recs)
  refine ⟨root_graft w hfit.root, op_graft_of_ne hne, ?_, hfit.start_part h.start_tree hw, ?_, ?_, ?_⟩
  · rw [kids_graft_of_ne hne, List.length_map]
  · intro r hr
    rcases hfit.cases hw with hu | hu
    · exact ((hfit.subtree hw hu).mem_recs.mp hr).elim (fun hx => recs_subset hu (hfit.recs hx)) And.left
    · rwa [graft_of_notMem hu] at hr
  · intro r hr hru
    rcases hfit.cases hw with hu | hu
    · refine (hfit.subtree hw hu).mem_recs.mpr ?_
      by_cases hin : r ∈ u.recs
      · rw [recs_tree]
        simpa using Or.inl (hru hin)
      · exact Or.inr ⟨hr, hin⟩
    · rwa [graft_of_notMem hu]
  · by_cases hin : w.start ∈ u.recs
    · refine Or.inr ?_
      rcases nested hn h.mem hw hin w.start_mem_recs with hu | hu
      · exact (start_eq_of_mem (nodup_subtree hn hw) hu hin).symm.trans h.start
      · exact absurd (recs_subset hu w.root_mem_recs) hwu
    · exact Or.inl hin

theorem lands (h : Swapped a b t u s) (hn : t.recs.Nodup) {p? : Option RecId} {z : RecId}
    (hz : Lands S a t p? z) (hzu : z ∈ u.recs → z = u.root ∨ z = s)
    (hp : ∀ p, p? = some p → p ∈ u.recs → p = u.root ∨ p = s) :
    Lands S b (Tree.graft u.root (tree b u s) t) p? z := by
  refine ⟨(h.mem_recs hn).mpr ⟨hz.mem, hzu⟩, hz.live, fun w' hw' hf hzw => ?_, hz.level⟩
  rcases (h.fitting hn).mem_subtrees hw' with hw' | ⟨w, hw, hwu, rfl⟩
  · -- the new tree starts with an op that control passes
    refine Or.inr (Or.inl ?_)
    rw [start_of_mem_tree hw']
    exact h.passes_start
  · have har := h.around hn hw hwu
    rw [har.op] at hf
    rw [har.start, har.root]
    rcases hz.enters w hw hf (har.recs hzw) with hs | hs | ⟨p, hpz, hpw, hpr⟩
    · exact Or.inl hs
    · exact Or.inr (Or.inl (h.passes (recs_subset hw w.start_mem_recs) har.start_out hs))
    · exact Or.inr (Or.inr ⟨p, hpz, har.rest p hpw (hp p hpz), hpr⟩)

theorem level (h : Swapped a b t u s) (hw : Wired S a t) : S.out s = S.into u.root := by
  have hst : s ∈ t.recs := recs_subset h.mem (h.start ▸ u.start_mem_recs)
  have hut : u.root ∈ t.recs := recs_subset h.mem u.root_mem_recs
  have hturn : u.op.turn = .stays := by
    rw [← (hw.holds.subtree h.mem).fits.op, Node.turn_plain, h.turn_root]
  have hstart := ((hw.leveled.subtree h.mem).into_start (hw.nested.subtree h.mem)).1 (by rw [hturn]; exact nofun)
  calc S.out s = S.into s := hw.flat hst h.turn
    _ = S.out u.root := by rw [← h.start]; exact hstart
    _ = S.into u.root := hw.flat hut h.turn_root

theorem lands_root (h : Swapped a b t u s) (hn : t.recs.Nodup) (hlive : S u.root) (hlevel : S.out s = S.into u.root) :
    Lands S b (Tree.graft u.root (tree b u s) t) (some s) u.root := by
  have hsu : s ∈ u.recs := h.start ▸ u.start_mem_recs
  refine ⟨(h.mem_recs hn).mpr ⟨recs_subset h.mem u.root_mem_recs, fun _ => Or.inl rfl⟩, hlive,
    fun w' hw' hf hzw => ?_, hlevel⟩
  rcases (h.fitting hn).mem_subtrees hw' with hw' | ⟨w, hw, hwu, rfl⟩
  · refine Or.inr (Or.inl ?_)
    rw [start_of_mem_tree hw']
    exact h.passes_start
  · have har := h.around hn hw hwu
    have huw : u ∈ w.subtrees := mem_subtrees_of_root hn hw h.mem (har.recs hzw)
    refine Or.inr (Or.inr ⟨s, rfl, har.rest s (recs_subset huw hsu) fun _ => Or.inr rfl, ?_⟩)
    rw [har.root]
    rintro rfl
    exact hwu hsu

theorem turn_new (h : Swapped a b t u s) {w : Tree} (hw : w ∈ (tree b u s).subtrees) : w.op.turn = .stays := by
  rcases mem_subtrees_mk.mp hw with rfl | ⟨k, hk, hwk⟩
  · rw [op_mk, Node.turn_plain]
    exact Node.turn_of_ne (by rw [h.code]; exact nofun) (by rw [h.code]; exact nofun)
  · rw [List.mem_singleton.mp hk] at hwk
    rcases mem_subtrees_mk.mp hwk with rfl | ⟨j, hj, -⟩
    · rw [op_mk, Node.turn_plain]
      exact Node.turn_of_ne (by rw [h.null]; exact nofun) (by rw [h.null]; exact nofun)
    · cases hj

theorem turn_graft (h : Swapped a b t u s) (hw : Wired S a t) {w : Tree} (hwt : w ∈ t.subtrees) :
    (Tree.graft u.root (tree b u s) w).op.turn = w.op.turn := by
  by_cases hr : w.root = u.root
  · obtain rfl := eq_of_root_eq hw.nodup hwt h.mem hr
    rw [graft_of_root hr, h.turn_new (self_mem_subtrees _), ← (hw.holds.subtree h.mem).fits.op, Node.turn_plain,
      h.turn_root]
  · rw [op_graft_of_ne hr]

theorem nested (h : Swapped a b t u s) (hw : Wired S a t) : (Tree.graft u.root (tree b u s) t).Nested := by
  have hfit := h.fitting hw.nodup
  have hkid : ∀ w ∈ t.subtrees, ∀ k ∈ w.kids, (Tree.graft u.root (tree b u s) k).op.turn = k.op.turn :=
    fun w hwt k hk => h.turn_graft hw (subtrees_trans hwt (kid_mem_subtrees hk))
  constructor
  · intro w' hw' hc
    rcases hfit.mem_subtrees hw' with hw' | ⟨w, hwt, hwu, rfl⟩
    · rw [h.turn_new hw'] at hc
      cases hc
    · rw [h.turn_graft hw hwt] at hc
      obtain ⟨k, i, hk, hi⟩ := hw.nested.closes w hwt hc
      refine ⟨Tree.graft u.root (tree b u s) k, i, ?_, ?_⟩
      · rw [kids_graft_of_ne fun he => hwu (he ▸ u.root_mem_recs), List.head?_map, hk, Option.map_some]
      · rw [hkid w hwt k (List.mem_of_mem_head? hk), hi]
  · intro w' hw' k' hk' i hi
    rcases hfit.mem_subtrees hw' with hw' | ⟨w, hwt, hwu, rfl⟩
    · rw [h.turn_new (subtrees_trans hw' (kid_mem_subtrees hk'))] at hi
      cases hi
    · rw [kids_graft_of_ne fun he => hwu (he ▸ u.root_mem_recs)] at hk' ⊢
      obtain ⟨k, hk, rfl⟩ := List.mem_map.mp hk'
      rw [hkid w hwt k hk] at hi
      obtain ⟨hc, hhead⟩ := hw.nested.opens w hwt k hk i hi
      rw [h.turn_graft hw hwt, List.head?_map, hhead]
      exact ⟨hc, rfl⟩

theorem leveled (h : Swapped a b t u s) (hw : Wired S a t) :
    (Tree.graft u.root (tree b u s) t).Leveled S.into S.out := by
  have hfit := h.fitting hw.nodup
  have hst : s ∈ t.recs := recs_subset h.mem (h.start ▸ u.start_mem_recs)
  have hut : u.root ∈ t.recs := recs_subset h.mem u.root_mem_recs
  constructor
  · intro w' hw'
    rcases hfit.mem_subtrees hw' with hw' | ⟨w, hwt, hwu, rfl⟩
    · rw [h.turn_new hw']
      have hroot := List.mem_map_of_mem (f := Tree.root) hw'
      rw [← Tree.recs, recs_tree] at hroot
      rcases List.mem_pair.mp hroot with hr | hr <;> rw [hr]
      · exact hw.flat hut h.turn_root
      · exact hw.flat hst h.turn
    · rw [h.turn_graft hw hwt, root_graft w hfit.root]
      exact hw.leveled.turns w hwt
  · intro w' hw' k' hk'
    rcases hfit.mem_subtrees hw' with hw' | ⟨w, hwt, hwu, rfl⟩
    · rcases mem_subtrees_mk.mp hw' with rfl | ⟨k, hk, hwk⟩
      · rw [List.mem_singleton.mp hk']
        exact h.level hw
      · rw [List.mem_singleton.mp hk] at hwk
        rcases mem_subtrees_mk.mp hwk with rfl | ⟨j, hj, -⟩
        · cases hk'
        · cases hj
    · rw [kids_graft_of_ne fun he => hwu (he ▸ u.root_mem_recs)] at hk'
      obtain ⟨k, hk, rfl⟩ := List.mem_map.mp hk'
      rw [root_graft k hfit.root, root_graft w hfit.root]
      exact hw.leveled.level w hwt k hk

theorem wired (h : Swapped a b t u s) (hw : Wired S a t) :
    Wired S b (Tree.graft u.root (tree b u s) t) := by
  have hn := hw.nodup
  have hfit := h.fitting hn
  have hst : s ∈ t.recs := recs_subset h.mem (h.start ▸ u.start_mem_recs)
  have hroot : u.root ∈ t.recs := recs_subset h.mem u.root_mem_recs
  have hlive_s : S s := by
    refine hw.live_of hst fun hc => ?_
    have hsolid := h.solid
    rw [Node.passes, hc] at hsolid
    cases hsolid
  have hlive_root : S u.root := hw.live u h.mem h.firm.lineseq
  -- an op that is left and not inside of the old tree is as it was
  have hcases : ∀ r, r ∈ (Tree.graft u.root (tree b u s) t).recs →
      r = u.root ∨ r = s ∨ r ∈ t.recs ∧ r ∉ u.recs ∧ b.node r = a.node r := by
    intro r hr
    obtain ⟨hrt, hru⟩ := (h.mem_recs hn).mp hr
    by_cases hin : r ∈ u.recs
    · exact (hru hin).imp_right Or.inl
    · exact Or.inr (Or.inr ⟨hrt, hin, h.outside r hrt hin⟩)
  refine ⟨h.forest, ?_, ?_, ?_, ?_, ?_, ?_, ?_, ?_, ?_, ?_, ?_, h.held, h.nested hw, h.leveled hw, ?_⟩
  · intro r hr
    rcases hcases r hr with rfl | rfl | ⟨hrt, -, hnode⟩
    · exact Or.inl h.other_root
    · exact Or.inl h.other
    · rw [hnode]
      exact hw.other r hrt
  · intro w' hw' hc
    rcases hfit.mem_subtrees hw' with hw' | ⟨w, hwt, hwu, rfl⟩
    · rcases mem_subtrees_mk.mp hw' with rfl | ⟨k, hk, hk'⟩
      · simp [h.code, Opcode.isLeaf] at hc
      · rw [List.mem_singleton.mp hk] at hk'
        rcases mem_subtrees_mk.mp hk' with rfl | ⟨j, hj, -⟩
        · rfl
        · cases hj
    · have har := h.around hn hwt hwu
      rw [har.op] at hc
      have hlen := har.kids
      rw [hw.leaf w hwt hc] at hlen
      exact List.length_eq_zero_iff.mp hlen
  · intro w' hw' hc
    rcases hfit.mem_subtrees hw' with hw' | ⟨w, hwt, hwu, rfl⟩
    · have hroot := List.mem_map_of_mem (f := Tree.root) hw'
      rw [← Tree.recs, recs_tree] at hroot
      simp only [List.mem_cons, List.not_mem_nil, or_false] at hroot
      rcases hroot with hr | hr <;> rw [hr]
      · exact hlive_root
      · exact hlive_s
    · have har := h.around hn hwt hwu
      rw [har.op] at hc
      rw [har.root]
      exact hw.live w hwt hc
  · intro p hp hlive z hz
    -- nothing outside leads into the old tree but to its start, and its root leads out of it
    have hold : ∀ p ∈ t.recs, S p → (p ∈ u.recs → p = u.root) → a.Link p z →
        Lands S b (Tree.graft u.root (tree b u s) t) (some p) z := by
      intro p hpt hlive hpu hz
      have hland := hw.links p hpt hlive z hz
      refine h.lands hn hland (fun hzu => ?_) fun q hq hqu => ?_
      · rcases hland.enters u h.mem h.firm hzu with hs | hs | ⟨q, hq, hqu, hqr⟩
        · exact Or.inr (hs.trans h.start)
        · rw [h.start, h.solid] at hs
          cases hs
        · obtain rfl := Option.some.inj hq
          exact absurd (hpu hqu) hqr
      · obtain rfl := Option.some.inj hq
        exact Or.inl (hpu hqu)
    rcases hcases p hp with rfl | rfl | ⟨hpt, hpu, hnode⟩
    · refine hold u.root hroot hlive (fun _ => rfl) ?_
      rcases hz with hz | hz
      · exact Or.inl (h.next_root ▸ hz)
      · rw [h.other_root] at hz
        cases hz
    · rcases hz with hz | hz
      · obtain rfl := Option.some.inj (h.next.symm.trans hz)
        exact h.lands_root hn hlive_root (h.level hw)
      · rw [h.other] at hz
        cases hz
    · exact hold p hpt hlive (fun hin => absurd hin hpu) (by rwa [Link, hnode] at hz)
  · intro w' hw' hf p hp hm
    rcases hfit.mem_subtrees hw' with hw' | ⟨w, hwt, hwu, rfl⟩
    · rw [start_of_mem_tree hw']
      exact Or.inr h.passes_start
    · have har := h.around hn hwt hwu
      have hstart := recs_subset hwt w.start_mem_recs
      rw [har.op] at hf
      rw [har.start]
      rcases hw.marks w hwt hf p (har.recs hp) (h.unmarked p hm) with hs | hs
      · refine Or.inl ?_
        rcases har.start_out with ho | ho
        · rwa [h.outside _ hstart ho]
        · rw [ho] at hs ⊢
          exact h.processed.trans hs
      · exact Or.inr (h.passes hstart har.start_out hs)
  · intro r hr
    by_contra hm
    rw [Bool.not_eq_false] at hm
    have hma := h.unmarked r hm
    have hrt : r ∈ t.recs := by
      by_contra hrt
      rw [hw.unmarked r hrt] at hma
      cases hma
    exact hr ((h.mem_recs hn).mpr ⟨hrt, fun hru => Or.inr (h.clear r hru hma)⟩)
  · rw [op_graft_of_ne h.below.symm, hw.leavesub]
  · intro r hr hS hne
    rw [root_graft t hfit.root] at hne
    rcases hcases r hr with rfl | rfl | ⟨hrt, -, hnode⟩
    · rw [h.next_root]
      exact hw.next _ hroot hS hne
    · simp [h.next]
    · rw [hnode]
      exact hw.next r hrt hS hne
  · intro r hr hc
    rcases hcases r hr with rfl | rfl | ⟨hrt, -, hnode⟩
    · simp [Node.opClass, Node.isEx, h.code, Opcode.opClass] at hc
    · exact absurd hc h.not_logop
    · rw [hnode] at hc ⊢
      exact hw.arm r hrt hc
  · intro w' hw'
    rcases hfit.mem_subtrees hw' with hw' | ⟨w, hwt, hwu, rfl⟩
    · rcases mem_subtrees_mk.mp hw' with rfl | ⟨k, hk, hk'⟩
      · exact Node.shape_plain.mpr h.shape_root
      · rw [List.mem_singleton.mp hk] at hk'
        rcases mem_subtrees_mk.mp hk' with rfl | ⟨j, hj, -⟩
        · exact Node.shape_plain.mpr h.shape
        · cases hj
    · have har := h.around hn hwt hwu
      rw [har.op, har.kids]
      exact hw.shaped w hwt
  · have hid : ∀ r ∈ (Tree.graft u.root (tree b u s) t).recs, r ∈ t.recs ∧ (b.node r).id = (a.node r).id := by
      intro r hr
      rcases hcases r hr with rfl | rfl | ⟨hrt, -, hnode⟩
      · exact ⟨hroot, h.id_root⟩
      · exact ⟨hst, h.id⟩
      · exact ⟨hrt, by rw [hnode]⟩
    intro r hr q hq he
    obtain ⟨hrt, hrid⟩ := hid r hr
    obtain ⟨hqt, hqid⟩ := hid q hq
    exact hw.id_inj r hrt q hqt (hrid ▸ hqid ▸ he)
  · rw [root_graft t hfit.root]
    exact hw.top

end Swapped

end Arena

end OpTree
