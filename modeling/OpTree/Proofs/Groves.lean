import OpTree.Proofs.KidLists

/-!
# Groves

Splicing on trees. A grove is a well-formed forest: sealed chains of trees that share no record, in which
every op knows its kids. A splice replaces the kids of one op and leaves every other tree as it is.
-/

namespace OpTree

set_option autoImplicit false

namespace Tree

def Flagged (t : Tree) : Prop := ∀ u ∈ t.subtrees, u.op.flags.has Flags.kids = !u.kids.isEmpty

theorem flagged_mk {r : RecId} {o : Node} {ks : List Tree} :
    (mk r o ks).Flagged ↔ o.flags.has Flags.kids = (!ks.isEmpty) ∧ ∀ k ∈ ks, k.Flagged := by
  constructor
  · intro h
    refine ⟨h _ (self_mem_subtrees _), fun k hk u hu => h u ?_⟩
    exact subtrees_trans (kid_mem_subtrees hk) hu
  · rintro ⟨hr, hk⟩ u hu
    rcases mem_subtrees_mk.mp hu with rfl | ⟨k, hmem, hu⟩
    · exact hr
    · exact hk k hmem u hu

def withKids (t : Tree) (ks : List Tree) : Tree :=
  mk t.root { t.op with flags := t.op.flags.withKids !ks.isEmpty } ks

@[simp] theorem root_withKids (t : Tree) (ks : List Tree) : (t.withKids ks).root = t.root := rfl

@[simp] theorem kids_withKids (t : Tree) (ks : List Tree) : (t.withKids ks).kids = ks := rfl

theorem Flagged.withKids {t : Tree} {ks : List Tree} (h : ∀ k ∈ ks, k.Flagged) : (t.withKids ks).Flagged :=
  flagged_mk.mpr ⟨Flags.has_withKids .., h⟩

theorem Flagged.withKids_self {t : Tree} (h : t.Flagged) : t.withKids t.kids = t := by
  rw [Tree.withKids, Flags.withKids_of_has (h t (self_mem_subtrees t)), mk_root_op_kids]

theorem Flagged.graft {t v : Tree} {p : RecId} (ht : t.Flagged) (hv : v.Flagged) : (graft p v t).Flagged := by
  induction t using induct with
  | h q o ks ih =>
    by_cases hq : q = p
    · rwa [graft_of_root (t := .mk q o ks) hq]
    · obtain ⟨hroot, hkids⟩ := flagged_mk.mp ht
      rw [graft_mk_of_ne hq, flagged_mk, List.isEmpty_map]
      refine ⟨hroot, fun k' hk' => ?_⟩
      obtain ⟨k, hk, rfl⟩ := List.mem_map.mp hk'
      exact ih k hk (hkids k hk)

theorem map_root_graft {p : RecId} {v : Tree} (ks : List Tree) (hv : v.root = p) :
    (ks.map (graft p v)).map root = ks.map root := by
  rw [List.map_map]
  exact List.map_congr_left fun k _ => root_graft k hv

/-- Of trees that share no record all but one are left alone by a graft. The records of the trees before and
behind it are those of the trees in the same places. -/
theorem flatMap_graft {ts : List Tree} {t u : Tree} (hn : (ts.flatMap recs).Nodup) (ht : t ∈ ts)
    (hu : u ∈ t.subtrees) : ∃ xs ys, ts.flatMap recs = xs ++ t.recs ++ ys ∧
      ∀ v : Tree, (ts.map (graft u.root v)).flatMap recs = xs ++ (graft u.root v t).recs ++ ys := by
  obtain ⟨pre, post, rfl⟩ := List.append_of_mem ht
  rw [List.flatMap_append, List.flatMap_cons, ← List.append_assoc] at hn
  obtain ⟨hpre, -, hpost⟩ := List.nodup_append.mp hn
  have hut : u.root ∈ t.recs := recs_subset hu u.root_mem_recs
  refine ⟨pre.flatMap recs, post.flatMap recs, by simp, fun v => ?_⟩
  have hleft : pre.map (graft u.root v) = pre := by
    refine (List.map_congr_left fun k hk => graft_of_notMem fun hr => ?_).trans (List.map_id pre)
    exact (List.nodup_append.mp hpre).2.2 _ (List.mem_flatMap.mpr ⟨k, hk, hr⟩) _ hut rfl
  have hright : post.map (graft u.root v) = post := by
    refine (List.map_congr_left fun k hk => graft_of_notMem fun hr => ?_).trans (List.map_id post)
    exact hpost _ (List.mem_append_right _ hut) _ (List.mem_flatMap.mpr ⟨k, hk, hr⟩) rfl
  rw [List.map_append, List.map_cons, hleft, hright, List.flatMap_append, List.flatMap_cons, List.append_assoc]

theorem recs_graft {t u : Tree} (hn : t.recs.Nodup) (hu : u ∈ t.subtrees) :
    ∃ xs ys, t.recs = xs ++ u.recs ++ ys ∧ ∀ v : Tree, (graft u.root v t).recs = xs ++ v.recs ++ ys := by
  induction t using induct with
  | h q o ks ih =>
    rcases mem_subtrees_mk.mp hu with rfl | ⟨k, hk, huk⟩
    · exact ⟨[], [], by simp, fun v => by rw [graft_of_root rfl]; simp⟩
    have hks : (ks.flatMap recs).Nodup := nodup_kids hn
    have hq : q ≠ u.root := fun he =>
      root_notMem_kids hn (List.mem_flatMap.mpr ⟨k, hk, recs_subset huk (he ▸ u.root_mem_recs)⟩)
    obtain ⟨xs, ys, hold, hnew⟩ := ih k hk (nodup_of_mem hks hk) huk
    obtain ⟨xs', ys', hold', hnew'⟩ := flatMap_graft hks hk huk
    refine ⟨q :: xs' ++ xs, ys ++ ys', ?_, fun v => ?_⟩
    · rw [recs_mk, hold', hold]
      simp
    · rw [graft_mk_of_ne hq, recs_mk, hnew', hnew]
      simp

def replant (u : Tree) (ks : List Tree) (cs : List (List Tree)) : List (List Tree) :=
  cs.map (List.map (graft u.root (u.withKids ks)))

/-- The op is somewhere in the trees. -/
def Within (u : Tree) (ts : List Tree) : Prop := ∃ t ∈ ts, u ∈ t.subtrees

theorem Within.kid {u k : Tree} {ts : List Tree} (h : u.Within ts) (hk : k ∈ u.kids) : k.Within ts := by
  obtain ⟨t, ht, hu⟩ := h
  exact ⟨t, ht, subtrees_trans hu (kid_mem_subtrees hk)⟩

theorem Within.behind {u : Tree} {c : List Tree} {cs : List (List Tree)} (h : u.Within cs.flatten) :
    u.Within (c :: cs).flatten := by
  obtain ⟨t, ht, hu⟩ := h
  exact ⟨t, List.mem_append_right c ht, hu⟩

theorem within_of_mem {t : Tree} {ts : List Tree} (h : t ∈ ts) : t.Within ts := ⟨t, h, self_mem_subtrees t⟩

end Tree

namespace Arena

open OpTree.Tree

variable {a b : Arena}

theorem Joined.parent?_eq {e : Sib} {k : RecId} {ks : List RecId} (h : a.Joined e ks) (he : e.sibling? = none)
    (hn : ks.Nodup) (hlt : ∀ r ∈ ks, r < a.recs.size) (hk : k ∈ ks) : a.parent? k = e.target := by
  obtain ⟨pre, post, rfl⟩ := List.append_of_mem hk
  have hj : a.Joined e (k :: post) := (joined_append.mp h).2
  have hlen : (k :: post).length ≤ a.bound :=
    length_le_bound (List.nodup_append.mp hn).2.1 fun r hr => hlt r (List.mem_append_right _ hr)
  rw [parent?, hj.getLast (hj.lastSibling_eq he hlen)]

/-- A well-formed forest: chains of trees, each chain sealed and no record shared. -/
structure Grove (a : Arena) (cs : List (List Tree)) : Prop where
  holds : ∀ t ∈ cs.flatten, a.Holds t
  nodup : (cs.flatten.flatMap Tree.recs).Nodup
  flagged : ∀ t ∈ cs.flatten, t.Flagged
  sealed : ∀ c ∈ cs, a.Joined {} (c.map Tree.root)

namespace Grove

variable {cs cs' : List (List Tree)} {c : List Tree} {t u k : Tree}

theorem holds_within (h : a.Grove cs) (hu : u.Within cs.flatten) : a.Holds u := by
  obtain ⟨t, ht, hu⟩ := hu
  exact (h.holds t ht).subtree hu

theorem nodup_within (h : a.Grove cs) (hu : u.Within cs.flatten) : u.recs.Nodup := by
  obtain ⟨t, ht, hu⟩ := hu
  exact nodup_subtree (nodup_of_mem h.nodup ht) hu

theorem flagged_within (h : a.Grove cs) (hu : u.Within cs.flatten) : u.Flagged := by
  obtain ⟨t, ht, hu⟩ := hu
  exact fun w hw => h.flagged t ht w (subtrees_trans hu hw)

theorem kidList (h : a.Grove cs) (hu : u.Within cs.flatten) : a.KidList u.root (u.kids.map Tree.root) := by
  have hh := h.holds_within hu
  have hn := h.nodup_within hu
  have hop : (a.node u.root).opClass = u.op.opClass := by rw [← Node.opClass_plain, hh.fits.op]
  refine ⟨fun r hr => ?_, List.nodup_cons.mpr ⟨fun hm => ?_, nodup_roots (nodup_kids hn)⟩, ?_, fun ht => ?_, ?_, ?_⟩
  · rcases List.mem_cons.mp hr with rfl | hr
    · exact hh.fits.lt
    · obtain ⟨k, hk, rfl⟩ := List.mem_map.mp hr
      exact (hh.kid hk).fits.lt
  · obtain ⟨k, hk, hroot⟩ := List.mem_map.mp hm
    exact root_notMem_kids hn (List.mem_flatMap.mpr ⟨k, hk, hroot ▸ k.root_mem_recs⟩)
  · rw [hh.fits.first, List.head?_map]
  · rw [hh.fits.last (hop ▸ ht), List.getLast?_map]
  · rw [← Node.plain_flags, hh.fits.op, List.isEmpty_map]
    exact h.flagged_within hu u (self_mem_subtrees u)
  · exact joined_up.mpr hh.fits.sibs

theorem parent_kid (h : a.Grove cs) (hu : u.Within cs.flatten) (hk : k ∈ u.kids) :
    a.parent? k.root = some u.root :=
  (h.holds_within hu).parent?_eq (h.nodup_within hu) hk

theorem parent_root (h : a.Grove cs) (hc : c ∈ cs) (ht : t ∈ c) : a.parent? t.root = none := by
  have hmem : ∀ t ∈ c, t ∈ cs.flatten := fun t ht => List.mem_flatten.mpr ⟨c, hc, ht⟩
  have hsub : (c.flatMap Tree.recs).Nodup :=
    h.nodup.sublist ((List.sublist_flatten_of_mem hc).flatMap _)
  refine (h.sealed c hc).parent?_eq rfl (nodup_roots hsub) (fun r hr => ?_) (List.mem_map_of_mem ht)
  obtain ⟨u, hu, rfl⟩ := List.mem_map.mp hr
  exact (h.holds u (hmem u hu)).fits.lt

end Grove

/-- A tree whose links stay but for the kids of one op is as before but for that op. -/
theorem Holds.regraft {p : RecId} {t v : Tree} (h : a.Holds t) (hsize : a.recs.size ≤ b.recs.size)
    (hv : p ∈ t.recs → b.Holds v) (hroot : v.root = p)
    (hplain : ∀ r ∈ t.recs, r ≠ p → (b.node r).plain = (a.node r).plain ∧ (b.node r).first = (a.node r).first ∧
      (b.node r).last = (a.node r).last)
    (hsibs : ∀ w ∈ t.subtrees, w.root ≠ p → ∀ k ∈ w.kids, (b.node k.root).sib = (a.node k.root).sib) :
    b.Holds (Tree.graft p v t) := by
  induction t using induct with
  | h q o ks ih =>
    by_cases hq : q = p
    · rw [graft_of_root (t := .mk q o ks) hq]
      exact hv (by simp [hq])
    have hfits := h.fits
    obtain ⟨hop, hfirst, hlast⟩ := hplain q (by simp) hq
    have hroots : (ks.map (Tree.graft p v)).map Tree.root = ks.map Tree.root := map_root_graft ks hroot
    rw [graft_mk_of_ne hq, holds_mk]
    refine ⟨⟨?_, ?_, hfits.live, ?_, fun htr => ?_, ?_⟩, fun k' hk' => ?_⟩
    · exact Nat.lt_of_lt_of_le hfits.lt hsize
    · exact hop.trans hfits.op
    · rw [kids_mk, ← List.head?_map, hroots, List.head?_map]
      exact hfirst.trans hfits.first
    · rw [kids_mk, ← List.getLast?_map, hroots, List.getLast?_map]
      exact hlast.trans (hfits.last htr)
    · rw [kids_mk, hroots]
      refine hfits.sibs.congr fun r hr => ?_
      obtain ⟨k, hk, rfl⟩ := List.mem_map.mp hr
      exact hsibs _ (self_mem_subtrees _) hq k hk
    · obtain ⟨k, hk, rfl⟩ := List.mem_map.mp hk'
      refine ih k hk (h.kid hk) (fun hr => hv (kid_recs_subset hk hr)) (fun r hr => hplain r (kid_recs_subset hk hr)) ?_
      exact fun w hw => hsibs w (subtrees_trans (kid_mem_subtrees hk) hw)

theorem Holds.keep {p : RecId} {t : Tree} (h : a.Holds t) (hsize : a.recs.size ≤ b.recs.size) (hp : p ∉ t.recs)
    (hplain : ∀ r ∈ t.recs, r ≠ p → (b.node r).plain = (a.node r).plain ∧ (b.node r).first = (a.node r).first ∧
      (b.node r).last = (a.node r).last)
    (hsibs : ∀ w ∈ t.subtrees, w.root ≠ p → ∀ k ∈ w.kids, (b.node k.root).sib = (a.node k.root).sib) : b.Holds t := by
  have hgraft : Tree.graft p (.mk p default []) t = t := graft_of_notMem hp
  rw [← hgraft]
  exact h.regraft hsize (fun hm => absurd hm hp) rfl hplain hsibs

theorem Spliced.sib_eq {p r : RecId} {pre cut ins post : List RecId} (h : Spliced a b p pre cut ins post)
    (hr : r ∉ pre ++ cut ++ ins) : (b.node r).sib = (a.node r).sib := by
  by_cases hp : r = p
  · rw [hp, h.parent]
  · rw [h.outside r fun hm => (List.mem_cons.mp hm).elim hp hr]

theorem Spliced.plain_eq {p r : RecId} {pre cut ins post : List RecId} (h : Spliced a b p pre cut ins post)
    (hr : r ≠ p) : (b.node r).plain = (a.node r).plain ∧ (b.node r).first = (a.node r).first ∧
      (b.node r).last = (a.node r).last := by
  rw [h.kid r hr]
  exact ⟨rfl, rfl, rfl⟩

namespace Grove

variable {cs : List (List Tree)} {ins pre cut post : List Tree} {u : Tree}

/-- A splice of trees, seen from the records at their roots. -/
abbrev SplicedAt (a b : Arena) (u : Tree) (pre cut ins post : List Tree) : Prop :=
  Spliced a b u.root (pre.map Tree.root) (cut.map Tree.root) (ins.map Tree.root) (post.map Tree.root)

theorem notMem_ins (h : a.Grove (ins :: cs)) (hu : u.Within cs.flatten) {k : Tree} (hk : k ∈ ins) :
    u.root ∉ k.recs := by
  obtain ⟨t, ht, hu⟩ := hu
  have hn := h.nodup
  rw [List.flatten_cons, List.flatMap_append, List.nodup_append] at hn
  exact fun hr => hn.2.2 _ (List.mem_flatMap.mpr ⟨k, hk, hr⟩) _
    (List.mem_flatMap.mpr ⟨t, ht, recs_subset hu u.root_mem_recs⟩) rfl

theorem sib_kid (h : a.Grove (ins :: cs)) (hu : u.Within cs.flatten) (hks : u.kids = pre ++ cut ++ post)
    (hs : SplicedAt a b u pre cut ins post) {w k : Tree} (hw : w.Within (ins :: cs).flatten) (hwu : w.root ≠ u.root)
    (hk : k ∈ w.kids) : (b.node k.root).sib = (a.node k.root).sib := by
  have hparent := h.parent_kid hw hk
  have hu' : u.Within (ins :: cs).flatten := hu.behind
  refine hs.sib_eq fun hm => ?_
  rw [← List.map_append, ← List.map_append] at hm
  obtain ⟨j, hj, hroot⟩ := List.mem_map.mp hm
  rw [← hroot] at hparent
  rcases List.mem_append.mp hj with hj | hj
  · have hju : j ∈ u.kids := hks ▸ List.mem_append_left _ hj
    rw [h.parent_kid hu' hju] at hparent
    exact hwu (Option.some.inj hparent).symm
  · rw [h.parent_root (List.mem_cons_self ..) hj] at hparent
    cases hparent

theorem sib_root (h : a.Grove (ins :: cs)) (hu : u.Within cs.flatten) (hks : u.kids = pre ++ cut ++ post)
    (hs : SplicedAt a b u pre cut ins post) {c : List Tree} {t : Tree} (hc : c ∈ cs) (ht : t ∈ c) :
    (b.node t.root).sib = (a.node t.root).sib := by
  have hparent := h.parent_root (List.mem_cons_of_mem ins hc) ht
  have hu' : u.Within (ins :: cs).flatten := hu.behind
  have htc : t.Within cs.flatten := within_of_mem (List.mem_flatten.mpr ⟨c, hc, ht⟩)
  refine hs.sib_eq fun hm => ?_
  rw [← List.map_append, ← List.map_append] at hm
  obtain ⟨j, hj, hroot⟩ := List.mem_map.mp hm
  rcases List.mem_append.mp hj with hj | hj
  · have hju : j ∈ u.kids := hks ▸ List.mem_append_left _ hj
    rw [← hroot, h.parent_kid hu' hju] at hparent
    cases hparent
  · exact h.notMem_ins htc hj (hroot ▸ j.root_mem_recs)

theorem keep (h : a.Grove (ins :: cs)) (hu : u.Within cs.flatten) (hks : u.kids = pre ++ cut ++ post)
    (hs : SplicedAt a b u pre cut ins post) {t : Tree} (ht : t.Within (ins :: cs).flatten) (hut : u.root ∉ t.recs) :
    b.Holds t := by
  refine (h.holds_within ht).keep (Nat.le_of_eq hs.size.symm) hut (fun r _ hr => hs.plain_eq hr) ?_
  intro w hw hwu k hk
  obtain ⟨x, hx, htx⟩ := ht
  exact h.sib_kid hu hks hs ⟨x, hx, subtrees_trans htx hw⟩ hwu hk

theorem holds_withKids (h : a.Grove (ins :: cs)) (hu : u.Within cs.flatten) (hks : u.kids = pre ++ cut ++ post)
    (hs : SplicedAt a b u pre cut ins post) : b.Holds (u.withKids (pre ++ ins ++ post)) := by
  have hu' : u.Within (ins :: cs).flatten := hu.behind
  have hn := h.nodup_within hu'
  have hfits := (h.holds_within hu').fits
  have hempty : (pre.map Tree.root ++ ins.map Tree.root ++ post.map Tree.root).isEmpty = (pre ++ ins ++ post).isEmpty := by
    rw [← List.map_append, ← List.map_append, List.isEmpty_map]
  have hkids := hs.kids
  rw [← List.map_append, ← List.map_append] at hkids
  refine holds_mk.mpr ⟨⟨?_, ?_, hfits.live, ?_, fun ht => ?_, joined_up.mp hkids.joined⟩, fun k hk => ?_⟩
  · exact hkids.lt _ (List.mem_cons_self ..)
  · rw [root_mk, op_mk, hs.parent, ← hempty, ← hfits.op]
    rfl
  · rw [root_mk, kids_mk, hkids.first, List.head?_map]
  · have hclass : (b.node u.root).opClass = u.op.opClass := by
      rw [hs.parent, ← hfits.op]
      rfl
    rw [root_mk, kids_mk, hkids.last (hclass ▸ ht), List.getLast?_map]
  · rw [List.mem_append, List.mem_append] at hk
    have hown : k ∈ u.kids → b.Holds k := fun hk =>
      h.keep hu hks hs (hu'.kid hk) fun hr => root_notMem_kids hn (List.mem_flatMap.mpr ⟨k, hk, hr⟩)
    rcases hk with (hk | hk) | hk
    · exact hown (by simp [hks, hk])
    · exact h.keep hu hks hs (within_of_mem (by simp [hk])) (h.notMem_ins hu hk)
    · exact hown (by simp [hks, hk])

theorem perm_splice (h : a.Grove (ins :: cs)) (hu : u.Within cs.flatten) (hks : u.kids = pre ++ cut ++ post) :
    ((ins :: cs).flatten.flatMap Tree.recs).Perm
      ((cut :: replant u (pre ++ ins ++ post) cs).flatten.flatMap Tree.recs) := by
  obtain ⟨t, ht, hut⟩ := hu
  have hn := h.nodup
  rw [List.flatten_cons, List.flatMap_append, List.nodup_append] at hn
  obtain ⟨xs, ys, hold, hnew⟩ := flatMap_graft hn.2.1 ht hut
  obtain ⟨xs', ys', hold', hnew'⟩ := recs_graft (nodup_of_mem hn.2.1 ht) hut
  have hrecs : u.recs = u.root :: u.kids.flatMap Tree.recs := by rw [← mk_root_op_kids u, recs_mk]; rfl
  rw [List.flatten_cons, List.flatten_cons, replant, ← List.map_flatten, List.flatMap_append, List.flatMap_append, hold, hnew,
    hold', hnew', hrecs, hks, withKids, recs_mk]
  simp only [List.flatMap_append]
  rw [List.perm_iff_count]
  intro r
  simp only [List.count_append, List.count_cons]
  omega

theorem spliced (h : a.Grove (ins :: cs)) (hu : u.Within cs.flatten) (hks : u.kids = pre ++ cut ++ post)
    (hs : SplicedAt a b u pre cut ins post) :
    b.Grove (cut :: replant u (pre ++ ins ++ post) cs) := by
  have hu' : u.Within (ins :: cs).flatten := hu.behind
  have hcut : ∀ k ∈ cut, k ∈ u.kids := fun k hk => by simp [hks, hk]
  have hflag : ∀ t : Tree, t.Within (ins :: cs).flatten → t.Flagged := fun t ht => h.flagged_within ht
  refine ⟨fun t ht => ?_, (h.perm_splice hu hks).nodup h.nodup, fun t ht => ?_, fun c hc => ?_⟩
  · rw [List.flatten_cons, replant, ← List.map_flatten, List.mem_append, List.mem_map] at ht
    rcases ht with ht | ⟨t, ht, rfl⟩
    · refine h.keep hu hks hs (hu'.kid (hcut t ht)) fun hr => ?_
      exact root_notMem_kids (h.nodup_within hu') (List.mem_flatMap.mpr ⟨t, hcut t ht, hr⟩)
    · have hin : t ∈ (ins :: cs).flatten := by simp only [List.flatten_cons, List.mem_append, ht, or_true]
      refine (h.holds t hin).regraft (Nat.le_of_eq hs.size.symm) (fun _ => h.holds_withKids hu hks hs) rfl
        (fun r _ hr => hs.plain_eq hr) fun w hw hwu k hk => h.sib_kid hu hks hs ⟨t, hin, hw⟩ hwu hk
  · rw [List.flatten_cons, replant, ← List.map_flatten, List.mem_append, List.mem_map] at ht
    rcases ht with ht | ⟨t, ht, rfl⟩
    · exact hflag t (hu'.kid (hcut t ht))
    · have hin : t ∈ (ins :: cs).flatten := by simp only [List.flatten_cons, List.mem_append, ht, or_true]
      refine (h.flagged t hin).graft (Flagged.withKids fun k hk => ?_)
      rw [List.mem_append, List.mem_append] at hk
      rcases hk with (hk | hk) | hk
      · exact hflag k (hu'.kid (by simp [hks, hk]))
      · exact h.flagged k (by simp [hk])
      · exact hflag k (hu'.kid (by simp [hks, hk]))
  · rcases List.mem_cons.mp hc with rfl | hc
    · exact hs.cut_off
    · obtain ⟨c, hc', rfl⟩ := List.mem_map.mp hc
      rw [map_root_graft c (root_withKids u _)]
      refine (h.sealed c (List.mem_cons_of_mem ins hc')).congr fun r hr => ?_
      obtain ⟨t, ht, rfl⟩ := List.mem_map.mp hr
      exact h.sib_root hu hks hs hc' ht

theorem nodup_kids_ins (h : a.Grove (ins :: cs)) (hu : u.Within cs.flatten) :
    (u.root :: (u.kids ++ ins).map Tree.root).Nodup := by
  have hu' : u.Within (ins :: cs).flatten := hu.behind
  have hn := h.nodup
  rw [List.flatten_cons, List.flatMap_append, List.nodup_append] at hn
  have hkids := (h.kidList hu').nodup
  rw [List.map_append, ← List.cons_append, List.nodup_append]
  refine ⟨hkids, nodup_roots hn.1, fun r hr q hq hrq => ?_⟩
  obtain ⟨i, hi, rfl⟩ := List.mem_map.mp hq
  subst hrq
  rcases List.mem_cons.mp hr with he | hr
  · exact h.notMem_ins hu hi (he ▸ i.root_mem_recs)
  · obtain ⟨k, hk, he⟩ := List.mem_map.mp hr
    exact h.notMem_ins (hu.kid hk) hi (he ▸ i.root_mem_recs)

theorem splice {after : List Tree} {del : Int} (h : a.Grove (ins :: cs)) (hu : u.Within cs.flatten)
    (hks : u.kids = pre ++ after) (hd : -1 ≤ del) :
    ∃ b, TreeM.splice (some u.root) (pre.getLast?.map Tree.root) del (ins.head?.map Tree.root) a =
        .ok ((dropped del after).head?.map Tree.root) b ∧
      SplicedAt a b u pre (dropped del after) ins (kept del after) ∧
      b.Grove (dropped del after :: replant u (pre ++ ins ++ kept del after) cs) := by
  have hu' : u.Within (ins :: cs).flatten := hu.behind
  have hkl := h.kidList hu'
  rw [hks, List.map_append] at hkl
  have hn := h.nodup_kids_ins hu
  rw [hks, List.map_append, List.map_append] at hn
  have hlt : ∀ r ∈ ins.map Tree.root, r < a.recs.size := by
    intro r hr
    obtain ⟨i, hi, rfl⟩ := List.mem_map.mp hr
    exact (h.holds i (by simp [hi])).fits.lt
  obtain ⟨b, hrun, hs⟩ := TreeM.splice_ok hkl hd (h.sealed ins (List.mem_cons_self ..)) hlt hn
  rw [List.getLast?_map, List.head?_map, ← map_dropped, List.head?_map] at hrun
  rw [← map_dropped, ← map_kept] at hs
  refine ⟨b, hrun, hs, h.spliced hu ?_ hs⟩
  rw [List.append_assoc, dropped_append_kept, hks]

end Grove

theorem Spliced.regrown {p : RecId} {pre cut ins post : List RecId} (h : Spliced a b p pre cut ins post) :
    Regrown a b (p :: (pre ++ cut ++ ins)) where
  toLocal := h.toLocal
  next r := by
    by_cases hr : r = p
    · rw [hr, h.parent]
    · rw [h.kid r hr]
  other r := by
    by_cases hr : r = p
    · rw [hr, h.parent]
    · rw [h.kid r hr]

theorem splice_undone {p : RecId} {pre after ins : List RecId} (hk : a.KidList p (pre ++ after))
    (hi : a.Joined {} ins) (hs : Spliced a b p pre [] ins after) :
    TreeM.splice (some p) pre.getLast? ins.length none b = .ok ins.head? a := by
  have hcut : dropped ins.length (ins ++ after) = ins ∧ kept ins.length (ins ++ after) = after := by
    rw [dropped, kept, if_neg (by omega), if_neg (by omega), Int.toNat_natCast]
    exact ⟨List.take_left, List.drop_left⟩
  have hkids := hs.kids
  rw [List.append_assoc] at hkids
  have hcount : (-1 : Int) ≤ ins.length := by omega
  obtain ⟨c, hrun, hs'⟩ := TreeM.splice_ok hkids hcount (show b.Joined {} [] from trivial) (by simp)
    (by simpa using hkids.nodup)
  rw [hcut.1, hcut.2] at hs'
  rw [hcut.1] at hrun
  have hback : c = a := hs.undone hs' (by rwa [List.append_nil]) hi
  rwa [hback] at hrun

/-- **Splicing.** In a well-formed forest, the kids behind a place under an op are dropped, as many as asked
for or all of them, and a sealed chain that shares no record with the forest comes to stand there. The kids
that are dropped are answered as a sealed chain without a parent. The op knows its new kids, the last of
which leads to it, and all other trees are as before, with no link of the order of execution changed. Taking
a chain out again where it was put in leaves the arena as it was. -/
theorem splice_kids {cs : List (List Tree)} {ins pre after : List Tree} {u : Tree} {del : Int}
    (h : a.Grove (ins :: cs)) (hu : u.Within cs.flatten) (hks : u.kids = pre ++ after) (hd : -1 ≤ del) :
    (∃ b, TreeM.splice (some u.root) (pre.getLast?.map Tree.root) del (ins.head?.map Tree.root) a =
          .ok ((dropped del after).head?.map Tree.root) b ∧
        b.kids u.root = (pre ++ ins ++ kept del after).map Tree.root ∧
        b.KidList u.root ((pre ++ ins ++ kept del after).map Tree.root) ∧
        b.Joined {} ((dropped del after).map Tree.root) ∧
        (∀ k ∈ dropped del after, b.parent? k.root = none) ∧
        b.Grove (dropped del after :: replant u (pre ++ ins ++ kept del after) cs) ∧
        Grove.SplicedAt a b u pre (dropped del after) ins (kept del after) ∧
        Regrown a b (u.root :: (pre ++ dropped del after ++ ins).map Tree.root)) ∧
      ∃ b, TreeM.splice (some u.root) (pre.getLast?.map Tree.root) 0 (ins.head?.map Tree.root) a = .ok none b ∧
        TreeM.splice (some u.root) (pre.getLast?.map Tree.root) ins.length none b =
          .ok (ins.head?.map Tree.root) a := by
  constructor
  · obtain ⟨b, hrun, hs, hg⟩ := h.splice hu hks hd
    have hkids : b.KidList u.root ((pre ++ ins ++ kept del after).map Tree.root) := by
      simpa only [List.map_append] using hs.kids
    refine ⟨b, hrun, ?_, hkids, hs.cut_off, fun k hk => hg.parent_root (List.mem_cons_self ..) hk, hg, hs, ?_⟩
    · exact hkids.kids_eq
    · simpa only [List.map_append] using hs.regrown
  · have hu' : u.Within (ins :: cs).flatten := hu.behind
    have hkl := h.kidList hu'
    rw [hks, List.map_append] at hkl
    obtain ⟨b, hrun, hs, -⟩ := h.splice hu hks (show (-1 : Int) ≤ 0 by decide)
    refine ⟨b, hrun, ?_⟩
    have hback := splice_undone hkl (h.sealed ins (List.mem_cons_self ..)) hs
    rwa [List.getLast?_map, List.head?_map, List.length_map] at hback

/-- Two list ops side by side, with two kids and with one. -/
def twoLists : Arena where
  recs := #[{ code := .list, flags := Flags.kids, first := some 1, last := some 2, id := 1 },
    { code := .const, sib := .next (some 2), id := 2 }, { code := .const, sib := .up 0, id := 3 },
    { code := .list, flags := Flags.kids, first := some 4, last := some 4, id := 4 },
    { code := .const, sib := .up 3, id := 5 }]
  group? := some { live := 5 }

def headed (a : Arena) (r : RecId) (ks : List Tree) : Tree := .mk r (a.node r).plain ks

theorem twoLists_grove : twoLists.Grove [[twoLists.headed 3 [twoLists.headed 4 []]],
    [twoLists.headed 0 [twoLists.headed 1 [], twoLists.headed 2 []]]] := by
  have hconst : ∀ r ∈ [1, 2, 4], twoLists.Holds (twoLists.headed r []) ∧ (twoLists.headed r []).Flagged := by
    intro r hr
    simp only [List.mem_cons, List.not_mem_nil, or_false] at hr
    rcases hr with rfl | rfl | rfl <;>
      exact ⟨holds_mk.mpr ⟨⟨by decide, rfl, by decide, rfl, fun _ => rfl, trivial⟩, by simp⟩,
        flagged_mk.mpr ⟨by decide, by simp⟩⟩
  obtain ⟨h1, f1⟩ := hconst 1 (by decide)
  obtain ⟨h2, f2⟩ := hconst 2 (by decide)
  obtain ⟨h4, f4⟩ := hconst 4 (by decide)
  have h3 : twoLists.Holds (twoLists.headed 3 [twoLists.headed 4 []]) :=
    holds_mk.mpr ⟨⟨by decide, rfl, by decide, rfl, fun _ => rfl, rfl⟩, by simpa using h4⟩
  have h0 : twoLists.Holds (twoLists.headed 0 [twoLists.headed 1 [], twoLists.headed 2 []]) :=
    holds_mk.mpr ⟨⟨by decide, rfl, by decide, rfl, fun _ => rfl, rfl, rfl⟩, by simp [h1, h2]⟩
  have f3 : (twoLists.headed 3 [twoLists.headed 4 []]).Flagged := flagged_mk.mpr ⟨by decide, by simpa using f4⟩
  have f0 : (twoLists.headed 0 [twoLists.headed 1 [], twoLists.headed 2 []]).Flagged :=
    flagged_mk.mpr ⟨by decide, by simp [f1, f2]⟩
  refine ⟨by simp [h0, h3], by decide, by simp [f0, f3], fun c hc => ?_⟩
  simp only [List.mem_cons, List.not_mem_nil, or_false] at hc
  rcases hc with rfl | rfl <;> exact ⟨rfl, trivial⟩

/-- Between the two kids comes the other op, and the second kid is dropped. -/
theorem splice_kids_twoLists : ∃ b, TreeM.splice (some 0) (some 1) 1 (some 3) twoLists = .ok (some 2) b ∧
    b.kids 0 = [1, 3] ∧ b.parent? 2 = none := by
  have hin : (twoLists.headed 0 [twoLists.headed 1 [], twoLists.headed 2 []]).Within
      [[twoLists.headed 0 [twoLists.headed 1 [], twoLists.headed 2 []]]].flatten := within_of_mem (by simp)
  have hks : (twoLists.headed 0 [twoLists.headed 1 [], twoLists.headed 2 []]).kids =
      [twoLists.headed 1 []] ++ [twoLists.headed 2 []] := rfl
  obtain ⟨⟨b, hrun, hkids, -, -, hloose, -⟩, -⟩ := splice_kids twoLists_grove hin hks (show (-1 : Int) ≤ 1 by decide)
  exact ⟨b, hrun, hkids, hloose (twoLists.headed 2 []) (by simp [dropped])⟩

end Arena

end OpTree
