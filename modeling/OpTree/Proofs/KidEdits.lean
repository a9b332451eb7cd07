import OpTree.Proofs.Groves
import OpTree.Proofs.Accounts

/-!
# Edits of kid lists

What the operations that are made of splices do in a forest that is held in a slab group: appending,
prepending, replacing, detaching, wrapping and merging as operations on lists of kids, with the count of
live records in the group.
-/

namespace OpTree

set_option autoImplicit false

namespace Tree

variable {u v t : Tree} {ts : List Tree} {cs : List (List Tree)}

theorem withKids_withKids (u : Tree) (ks ls : List Tree) : (u.withKids ks).withKids ls = u.withKids ls := by
  simp only [withKids, root_mk, op_mk, Flags.withKids_withKids]

theorem graft_graft {p : RecId} {v' : Tree} (t : Tree) (hv : v.root = p) :
    graft p v' (graft p v t) = graft p v' t := by
  induction t using induct with
  | h q o ks ih =>
    by_cases hq : q = p
    · rw [graft_of_root (t := mk q o ks) hq, graft_of_root (t := mk q o ks) hq, graft_of_root hv]
    · rw [graft_mk_of_ne hq, graft_mk_of_ne hq, graft_mk_of_ne hq, List.map_map]
      exact congrArg _ (List.map_congr_left ih)

theorem graft_self (hn : t.recs.Nodup) (hu : u ∈ t.subtrees) : graft u.root u t = t := by
  induction t using induct with
  | h q o ks ih =>
    by_cases hq : q = u.root
    · rw [graft_of_root (t := mk q o ks) hq]
      exact eq_of_root_eq hn hu (self_mem_subtrees _) hq.symm
    · rw [graft_mk_of_ne hq]
      congr 1
      refine (List.map_congr_left fun k hk => ?_).trans (List.map_id ks)
      have hkn := nodup_of_mem (nodup_kids hn) hk
      by_cases hm : u.root ∈ k.recs
      · obtain ⟨w, hw, hwu⟩ := List.mem_map.mp hm
        have hwt := subtrees_trans (kid_mem_subtrees (t := mk q o ks) hk) hw
        exact ih k hk hkn (eq_of_root_eq hn hwt hu hwu ▸ hw)
      · exact graft_of_notMem hm

theorem mem_graft {p : RecId} (hp : p ∈ t.recs) : v ∈ (graft p v t).subtrees := by
  induction t using induct with
  | h q o ks ih =>
    by_cases hq : q = p
    · rw [graft_of_root (t := mk q o ks) hq]
      exact self_mem_subtrees v
    · rw [recs_mk, List.mem_cons, List.mem_flatMap] at hp
      obtain ⟨k, hk, hm⟩ := hp.resolve_left fun he => hq he.symm
      rw [graft_mk_of_ne hq]
      exact subtrees_trans (kid_mem_subtrees (List.mem_map_of_mem hk)) (ih k hk hm)

theorem replant_replant (u : Tree) (ks ls : List Tree) (cs : List (List Tree)) :
    replant (u.withKids ks) ls (replant u ks cs) = replant u ls cs := by
  rw [replant, replant, replant, List.map_map]
  refine List.map_congr_left fun c _ => ?_
  rw [Function.comp_apply, List.map_map]
  refine List.map_congr_left fun t _ => ?_
  rw [Function.comp_apply, withKids_withKids, root_withKids, graft_graft t (root_withKids u ks)]

theorem replant_of_notMem {ks : List Tree} (h : u.root ∉ cs.flatten.flatMap recs) : replant u ks cs = cs := by
  refine (List.map_congr_left fun c hc => ?_).trans (List.map_id cs)
  refine (List.map_congr_left fun t ht => graft_of_notMem fun hm => h ?_).trans (List.map_id c)
  exact List.mem_flatMap.mpr ⟨t, List.mem_flatten.mpr ⟨c, hc, ht⟩, hm⟩

theorem replant_root {ks : List Tree} (h : u.root ∉ cs.flatten.flatMap recs) :
    replant u ks ([u] :: cs) = [u.withKids ks] :: cs := by
  have hcons : replant u ks ([u] :: cs) = [graft u.root (u.withKids ks) u] :: replant u ks cs := rfl
  rw [hcons, graft_of_root rfl, replant_of_notMem h]

theorem replant_self (hu : u.Flagged) (hn : (cs.flatten.flatMap recs).Nodup) (hw : u.Within cs.flatten) :
    replant u u.kids cs = cs := by
  refine (List.map_congr_left fun c hc => ?_).trans (List.map_id cs)
  refine (List.map_congr_left fun t ht => ?_).trans (List.map_id c)
  have htc : t ∈ cs.flatten := List.mem_flatten.mpr ⟨c, hc, ht⟩
  rw [hu.withKids_self]
  obtain ⟨x, hx, hux⟩ := hw
  by_cases hm : u.root ∈ t.recs
  · obtain rfl := eq_of_mem_recs hn htc hx hm (recs_subset hux u.root_mem_recs)
    exact graft_self (nodup_of_mem hn htc) hux
  · exact graft_of_notMem hm

theorem within_replant (ks : List Tree) (h : u.Within cs.flatten) :
    (u.withKids ks).Within (replant u ks cs).flatten := by
  obtain ⟨t, ht, hu⟩ := h
  refine ⟨graft u.root (u.withKids ks) t, ?_, mem_graft (recs_subset hu u.root_mem_recs)⟩
  rw [replant, ← List.map_flatten]
  exact List.mem_map_of_mem ht

theorem Within.mem_recs (h : u.Within ts) : u.root ∈ ts.flatMap recs := by
  obtain ⟨t, ht, hu⟩ := h
  exact List.mem_flatMap.mpr ⟨t, ht, recs_subset hu u.root_mem_recs⟩

end Tree

namespace Arena

open OpTree.Tree

variable {a b : Arena} {g : Group} {cs cs' : List (List Tree)} {ins pre cut post : List Tree} {u old : Tree}

theorem alloc_apply {size : Int} (hg : a.group? = some g) (hr : g.released = false) :
    TreeM.alloc size a =
      if a.canAlloc g size then .ok (a.alloc g size).1 (a.alloc g size).2 else .error (.fatal none) a := by
  rw [TreeM.alloc, bind_of_ok (TreeM.get_apply a), hg]
  simp only [hr, Bool.false_eq_true, if_false]
  rw [bind_of_ok (TreeM.get_apply a)]
  cases a.canAlloc g size <;> rfl

theorem new_of_alloc {t : Opcode} {fl : Flags} {w : RecId} {c : Arena} (h : TreeM.alloc t.size a = .ok w c) :
    TreeM.new t fl a = .ok w (({ c with seq := c.seq + 1 } : Arena).update w fun n =>
      { n with code := t, flags := fl, id := c.seq + 1 }) := by
  rw [TreeM.new, bind_of_ok h]
  rfl

/-- Whether there is memory for a record depends on the links and sizes of free records alone. -/
theorem canAlloc_congr (h : ∀ r, (b.node r).next = (a.node r).next ∧ (b.node r).size = (a.node r).size)
    (size : Int) : b.canAlloc g size = a.canAlloc g size := by
  have hfind : ∀ size scan prev o, b.findFree size scan prev o = a.findFree size scan prev o := by
    intro size scan prev o
    induction scan generalizing prev o with
    | zero => rfl
    | succ scan ih =>
      cases o with
      | none => rfl
      | some r => rw [findFree, findFree, (h r).1, (h r).2, ih]
  simp only [canAlloc, reuse?, Option.isSome_map, hfind]

/-- A well-formed forest that is held in a slab group, beside the free list of the group. -/
structure Stocked (a : Arena) (g : Group) (cs : List (List Tree)) : Prop extends Grove a cs where
  group : a.group? = some g
  unreleased : g.released = false
  free : ∃ fs, a.FreeList fs
  slab : ∀ r ∈ cs.flatten.flatMap Tree.recs, (a.node r).static = false

theorem live_scrap : (a.scrap g).2.live = g.live := by
  unfold Arena.scrap
  simp only
  split
  · rfl
  · exact Group.live_carve g _

theorem released_scrap : (a.scrap g).2.released = g.released := by
  unfold Arena.scrap
  simp only
  split
  · rfl
  · exact Group.released_carve g _

theorem FreeList.alloc_live {fs : List RecId} {size : Int} {r : RecId} (h : a.FreeList fs) (hg : a.group? = some g)
    (hr : a.alloc g size = (r, b)) :
    (b.node r).static = false ∧ ∃ g', b.group? = some g' ∧ g'.live = g.live + 1 ∧ g'.released = g.released := by
  unfold Arena.alloc at hr
  simp only at hr
  split at hr
  · rename_i q hq
    obtain ⟨l, l', -, -, hre⟩ := h.reused hg (hq.trans (congrArg some hr))
    obtain ⟨o, hgroup⟩ := hre.group
    exact ⟨by rw [hre.node], _, hgroup, rfl, rfl⟩
  · unfold Arena.carve at hr
    simp only at hr
    split at hr
    · simp only [Prod.mk.injEq] at hr
      obtain ⟨rfl, rfl⟩ := hr
      refine ⟨congrArg Node.static (node_push_self _), _, rfl, ?_, ?_⟩
      · simp only [grow]
        rw [live_scrap]
      · simp only [Group.released_carve, grow]
        rw [released_scrap]
    · simp only [Prod.mk.injEq] at hr
      obtain ⟨rfl, rfl⟩ := hr
      exact ⟨congrArg Node.static (node_push_self _), _, rfl, by simp, by simp⟩

namespace Stocked

theorem stand (h : a.Stocked g cs) : a.Stand cs.flatten := ⟨h.holds, h.nodup, h.free⟩

theorem perm (h : a.Stocked g cs) (hp : cs.Perm cs') : a.Stocked g cs' where
  holds t ht := h.holds t (hp.flatten.mem_iff.mpr ht)
  nodup := (hp.flatten.flatMap_right _).nodup h.nodup
  flagged t ht := h.flagged t (hp.flatten.mem_iff.mpr ht)
  sealed c hc := h.sealed c (hp.mem_iff.mpr hc)
  group := h.group
  unreleased := h.unreleased
  free := h.free
  slab r hr := h.slab r ((hp.flatten.flatMap_right _).mem_iff.mpr hr)

theorem nil_cons : a.Stocked g ([] :: cs) ↔ a.Stocked g cs := by
  constructor <;> intro h
  · exact ⟨⟨h.holds, h.nodup, h.flagged, fun c hc => h.sealed c (List.mem_cons_of_mem _ hc)⟩, h.group, h.unreleased,
      h.free, h.slab⟩
  · refine ⟨⟨h.holds, h.nodup, h.flagged, fun c hc => ?_⟩, h.group, h.unreleased, h.free, h.slab⟩
    rcases List.mem_cons.mp hc with rfl | hc
    · trivial
    · exact h.sealed c hc

theorem spliced (h : a.Stocked g (ins :: cs)) (hu : u.Within cs.flatten) (hks : u.kids = pre ++ cut ++ post)
    (hs : Grove.SplicedAt a b u pre cut ins post) : b.Stocked g (cut :: replant u (pre ++ ins ++ post) cs) := by
  have hu' : u.Within (ins :: cs).flatten := hu.behind
  have hlink : ∀ r, (b.node r).next = (a.node r).next ∧ (b.node r).code = (a.node r).code ∧
      (b.node r).static = (a.node r).static := by
    intro r
    by_cases hr : r = u.root
    · rw [hr, hs.parent]
      exact ⟨rfl, rfl, rfl⟩
    · rw [hs.kid r hr]
      exact ⟨rfl, rfl, rfl⟩
  refine ⟨h.toGrove.spliced hu hks hs, ?_, h.unreleased, ?_, fun r hr => ?_⟩
  · rw [hs.rest]
    exact h.group
  · obtain ⟨fs, hfs⟩ := h.free
    refine ⟨fs, fun g' hg' => ?_, hfs.nodup, fun r hr => hs.size.symm ▸ hfs.lt r hr, fun r hr => ?_⟩
    · rw [hs.rest] at hg'
      exact (hfs.chain g' hg').congr fun r _ => (hlink r).1
    · exact (hlink r).2.1.trans (hfs.freed r hr)
  · have hr' := (h.perm_splice hu hks).mem_iff.mpr hr
    exact (hlink r).2.2.trans (h.slab r hr')

theorem splice {after : List Tree} {del : Int} (h : a.Stocked g (ins :: cs)) (hu : u.Within cs.flatten)
    (hks : u.kids = pre ++ after) (hd : -1 ≤ del) :
    ∃ b, TreeM.splice (some u.root) (pre.getLast?.map Tree.root) del (ins.head?.map Tree.root) a =
        .ok ((dropped del after).head?.map Tree.root) b ∧
      Grove.SplicedAt a b u pre (dropped del after) ins (kept del after) ∧
      b.Stocked g (dropped del after :: replant u (pre ++ ins ++ kept del after) cs) := by
  obtain ⟨b, hrun, hs, -⟩ := h.toGrove.splice hu hks hd
  refine ⟨b, hrun, hs, h.spliced hu ?_ hs⟩
  rw [List.append_assoc, dropped_append_kept, hks]

theorem insert (h : a.Stocked g (ins :: cs)) (hu : u.Within cs.flatten) (hks : u.kids = pre ++ post) :
    ∃ b, TreeM.splice (some u.root) (pre.getLast?.map Tree.root) 0 (ins.head?.map Tree.root) a = .ok none b ∧
      b.Stocked g (replant u (pre ++ ins ++ post) cs) := by
  obtain ⟨b, hrun, -, hb⟩ := h.splice hu hks (show (-1 : Int) ≤ 0 by decide)
  exact ⟨b, hrun, nil_cons.mp hb⟩

theorem prevOf?_eq (h : a.Stocked g cs) (hu : u.Within cs.flatten) (hks : u.kids = pre ++ old :: post) :
    a.prevOf? u.root (some old.root) = pre.getLast?.map Tree.root := by
  have hkids := (h.kidList hu).kids_eq
  have hn := (List.nodup_cons.mp (h.kidList hu).nodup).2
  rw [hks, List.map_append, List.map_cons] at hkids hn
  have hbefore : ∀ r ∈ pre.map Tree.root, (some r != some old.root) = true := by
    intro r hr
    have hne := (List.nodup_append.mp hn).2.2 r hr old.root (List.mem_cons_self ..)
    simpa using hne
  rw [prevOf?, hkids, List.takeWhile_append_of_pos hbefore, List.takeWhile_cons, if_neg (by simp), List.append_nil,
    List.getLast?_map]

theorem replace (h : a.Stocked g (ins :: cs)) (hu : u.Within cs.flatten) (hks : u.kids = pre ++ old :: post) :
    ∃ b, TreeM.replace u.root (some old.root) (ins.head?.map Tree.root) a = .ok (some old.root) b ∧
      Grove.SplicedAt a b u pre [old] ins post ∧ b.Stocked g ([old] :: replant u (pre ++ ins ++ post) cs) := by
  have hu' : u.Within (ins :: cs).flatten := hu.behind
  obtain ⟨b, hrun, hs, hb⟩ := h.splice hu hks (show (-1 : Int) ≤ 1 by decide)
  refine ⟨b, ?_, hs, hb⟩
  rw [TreeM.replace, bind_of_ok (TreeM.get_apply a), h.prevOf?_eq hu' hks]
  exact hrun

theorem append (h : a.Stocked g (ins :: cs)) (hu : u.Within cs.flatten) :
    ∃ b, TreeM.append u.root (ins.head?.map Tree.root) a = .ok () b ∧
      b.Stocked g (replant u (u.kids ++ ins) cs) := by
  have hu' : u.Within (ins :: cs).flatten := hu.behind
  obtain ⟨b, hrun, hb⟩ := h.insert hu (List.append_nil u.kids).symm
  rw [List.append_nil] at hb
  refine ⟨b, ?_, hb⟩
  rw [TreeM.append, bind_of_ok (TreeM.get_apply a), (h.holds_within hu').last?_eq (h.nodup_within hu'),
    bind_of_ok hrun]
  rfl

theorem prepend (h : a.Stocked g (ins :: cs)) (hu : u.Within cs.flatten) :
    ∃ b, TreeM.prepend u.root (ins.head?.map Tree.root) a = .ok () b ∧
      b.Stocked g (replant u (ins ++ u.kids) cs) := by
  obtain ⟨b, hrun, hb⟩ := h.insert hu (List.nil_append u.kids).symm
  refine ⟨b, ?_, hb⟩
  have hrun' : TreeM.splice (some u.root) none 0 (ins.head?.map Tree.root) a = .ok none b := hrun
  rw [TreeM.prepend, bind_of_ok hrun']
  rfl

theorem detach (h : a.Stocked g cs) (hu : u.Within cs.flatten) (hks : u.kids = pre ++ old :: post) :
    ∃ b, TreeM.detach old.root a = .ok (some old.root) b ∧ b.Stocked g ([old] :: replant u (pre ++ post) cs) := by
  obtain ⟨b, hrun, -, hb⟩ := (nil_cons.mpr h).replace hu hks
  rw [List.append_nil] at hb
  refine ⟨b, ?_, hb⟩
  have hparent : a.parent? old.root = some u.root := h.parent_kid hu (by simp [hks])
  have hrun' : TreeM.parent? old.root a = .ok (some u.root) a := by
    rw [TreeM.parent?, bind_of_ok (TreeM.get_apply a), hparent]
    rfl
  rw [TreeM.detach, bind_of_ok hrun']
  exact hrun

theorem new {t : Opcode} {fl : Flags} (h : a.Stocked g cs) (ht : t ≠ .freed) (hfl : fl.has Flags.kids = false) :
    (∃ w b g', TreeM.new t fl a = .ok w b ∧ g'.live = g.live + 1 ∧
        b.Stocked g' ([.mk w { code := t, flags := fl, id := a.seq + 1 } []] :: cs)) ∨
      a.canAlloc g t.size = false ∧ TreeM.new t fl a = .error (.fatal none) a := by
  have halloc := @alloc_apply a g t.size h.group h.unreleased
  cases hc : a.canAlloc g t.size with
  | false =>
    rw [hc, if_neg Bool.false_ne_true] at halloc
    exact Or.inr ⟨rfl, by rw [TreeM.new, TreeM.bind_apply, halloc]⟩
  | true =>
    rw [hc, if_pos rfl] at halloc
    obtain ⟨fs, hfs⟩ := h.free
    obtain ⟨⟨w, c⟩, hwc⟩ : ∃ p, a.alloc g t.size = p := ⟨_, rfl⟩
    rw [hwc] at halloc
    obtain ⟨hstatic, g', hg', hlive, hrel⟩ := hfs.alloc_live h.group hwc
    have hw : w < c.recs.size := (hfs.alloc h.group hwc).lt
    obtain ⟨b, hrun, hbg, hbs⟩ : ∃ b, TreeM.new t fl a = .ok w b ∧ b.group? = some g' ∧
        (b.node w).static = false := by
      refine ⟨_, new_of_alloc halloc, hg', ?_⟩
      rw [node_update_self (show w < ({ c with seq := c.seq + 1 } : Arena).recs.size from hw)]
      exact hstatic
    obtain ⟨hstand, hsib, -, -, hkeep, -⟩ := TreeM.new_stand h.stand ht hrun
    refine Or.inl ⟨w, b, g', hrun, hlive, ⟨⟨hstand.holds, hstand.nodup, fun u hu => ?_, fun c hc => ?_⟩, hbg,
      hrel.trans h.unreleased, hstand.free, fun r hr => ?_⟩⟩
    · rcases List.mem_cons.mp hu with rfl | hu
      · exact flagged_mk.mpr ⟨hfl, by simp⟩
      · exact h.flagged u hu
    · rcases List.mem_cons.mp hc with rfl | hc
      · exact ⟨hsib, trivial⟩
      · refine (h.sealed c hc).congr fun r hr => ?_
        obtain ⟨u, hu, rfl⟩ := List.mem_map.mp hr
        rw [hkeep u (List.mem_flatten.mpr ⟨c, hc, hu⟩) _ u.root_mem_recs]
    · rw [List.flatten_cons, List.flatMap_append, List.mem_append] at hr
      rcases hr with hr | hr
      · obtain rfl : r = w := by simpa using hr
        exact hbs
      · obtain ⟨u, hu, hru⟩ := List.mem_flatMap.mp hr
        rw [hkeep u hu r hru]
        exact h.slab r hr

theorem spared {g' : Group} (h : a.Stocked g cs) (hb : b.Stand cs.flatten) (hs : TreeM.Spares a b cs.flatten)
    (hg : b.group? = some g') (hr : g'.released = false) : b.Stocked g' cs := by
  refine ⟨⟨hb.holds, hb.nodup, h.flagged, fun c hc => ?_⟩, hg, hr, hb.free, fun r hr => ?_⟩
  · refine (h.sealed c hc).congr fun r hr => ?_
    obtain ⟨u, hu, rfl⟩ := List.mem_map.mp hr
    rw [hs.node u (List.mem_flatten.mpr ⟨c, hc, hu⟩) _ u.root_mem_recs]
  · obtain ⟨u, hu, hru⟩ := List.mem_flatMap.mp hr
    rw [hs.node u hu r hru]
    exact h.slab r hr

theorem rest {c : List Tree} (h : a.Stocked g (c :: cs)) : a.Stocked g cs where
  holds t ht := h.holds t (List.mem_append_right c ht)
  nodup := h.nodup.sublist ((List.sublist_append_right c cs.flatten).flatMap _)
  flagged t ht := h.flagged t (List.mem_append_right c ht)
  sealed c' hc := h.sealed c' (List.mem_cons_of_mem c hc)
  group := h.group
  unreleased := h.unreleased
  free := h.free
  slab r hr := h.slab r (((List.sublist_append_right c cs.flatten).flatMap _).subset hr)

theorem notMem_rest {c : List Tree} {r : RecId} (h : a.Stocked g (c :: cs)) (hr : r ∈ c.flatMap Tree.recs) :
    r ∉ cs.flatten.flatMap Tree.recs := by
  have hn := h.nodup
  rw [List.flatten_cons, List.flatMap_append, List.nodup_append] at hn
  exact fun hm => hn.2.2 r hr r hm rfl

theorem free_op {o : Node} {r : RecId} (h : a.Stocked g ([.mk r o []] :: cs)) :
    ∃ b g', (do TreeM.destroy r; TreeM.free r) a = .ok () b ∧ g'.live = g.live - 1 ∧ b.Stocked g' cs := by
  have hr : r ∉ cs.flatten.flatMap Tree.recs := h.notMem_rest (by simp)
  have hholds : a.Holds (.mk r o []) := h.holds _ (by simp)
  have hlt : r < a.recs.size := hholds.fits.lt
  have hlive : (a.node r).code ≠ .freed := hholds.live (by simp)
  have hnode : (a.update r Node.destroyed).node r = (a.node r).destroyed := node_update_self hlt _
  have hcode : (a.node r).destroyed.code = (a.node r).code ∧ (a.node r).destroyed.static = (a.node r).static := by
    unfold Node.destroyed
    split <;> exact ⟨rfl, rfl⟩
  obtain ⟨hstand, hsp⟩ := TreeM.update_stand (f := Node.destroyed) h.rest.stand hr hlive
  have hlive' : ((a.update r Node.destroyed).node r).code ≠ .freed := by rwa [hnode, hcode.1]
  have hstatic : ((a.update r Node.destroyed).node r).static = false := by
    rw [hnode, hcode.2]
    exact h.slab r (by simp)
  have hgroup : (a.update r Node.destroyed).group? = some g := h.group
  obtain ⟨hstand', hsp'⟩ := TreeM.freeList_cons hstand hr (by simpa using hlt) hlive' hstatic hgroup
  refine ⟨_, _, ?_, rfl, h.rest.spared hstand' (hsp.trans hsp') rfl h.unreleased⟩
  rw [TreeM.destroy, bind_of_ok (TreeM.update_apply ..), TreeM.free, bind_of_ok (TreeM.node_apply ..),
    if_neg hlive', if_neg (by rw [hstatic]; exact Bool.false_ne_true), TreeM.freeInGroup,
    bind_of_ok (TreeM.node_apply ..), if_neg hlive', bind_of_ok (TreeM.get_apply _), hstatic, hgroup]
  rfl

theorem wrap {kid : Tree} {t : Opcode} (h : a.Stocked g cs) (hu : u.Within cs.flatten)
    (hks : u.kids = pre ++ kid :: post) (ht : t ≠ .freed) :
    (∃ w b g', TreeM.wrap u.root kid.root t a = .ok w b ∧ g'.live = g.live + 1 ∧
        b.Stocked g' (replant u (pre ++ Tree.withKids
          (.mk w { code := t, flags := kid.op.flags &&& Flags.wantMask, id := a.seq + 1 } []) [kid] :: post) cs)) ∨
      a.canAlloc g t.size = false ∧ ∃ b, TreeM.wrap u.root kid.root t a = .error (.fatal none) b := by
  obtain ⟨b₁, hcut, hs, h₁⟩ := (nil_cons.mpr h).splice hu hks (show (-1 : Int) ≤ 1 by decide)
  rw [List.append_nil] at h₁
  replace h₁ : b₁.Stocked g ([kid] :: replant u (pre ++ post) cs) := h₁
  replace hcut : TreeM.splice (some u.root) (pre.getLast?.map Tree.root) 1 none a = .ok (some kid.root) b₁ := hcut
  have hprev := h.prevOf?_eq hu hks
  have hflags : (b₁.node kid.root).flags = kid.op.flags := by
    rw [← (h₁.holds kid (by simp)).fits.op]
    rfl
  have hroom : b₁.canAlloc g t.size = a.canAlloc g t.size := by
    refine canAlloc_congr (fun r => ?_) _
    by_cases hr : r = u.root
    · rw [hr, hs.parent]
      exact ⟨rfl, rfl⟩
    · rw [hs.kid r hr]
      exact ⟨rfl, rfl⟩
  have hseq : b₁.seq = a.seq := by rw [hs.rest]
  have hwant : (kid.op.flags &&& Flags.wantMask).has Flags.kids = false := Flags.has_and_of_disjoint _ (by decide)
  have hstart : TreeM.wrap u.root kid.root t a = (do
      let w ← TreeM.new t (kid.op.flags &&& Flags.wantMask)
      let _ ← TreeM.splice (some w) none 0 (some kid.root)
      let _ ← TreeM.splice (some u.root) (pre.getLast?.map Tree.root) 0 (some w)
      return w) b₁ := by
    rw [TreeM.wrap, bind_of_ok (TreeM.get_apply a), hprev, bind_of_ok hcut,
      bind_of_ok (TreeM.node_apply ..), hflags]
  rw [hstart, ← hroom, ← hseq]
  rcases h₁.new ht hwant with ⟨w, b₂, g', hnew, hlive, h₂⟩ | ⟨hfull, hnew⟩
  · refine Or.inl ⟨w, ?_⟩
    rw [bind_of_ok hnew]
    generalize hleaf : Tree.mk w { code := t, flags := kid.op.flags &&& Flags.wantMask, id := b₁.seq + 1 } [] = leaf at h₂ ⊢
    have hroot : leaf.root = w := by rw [← hleaf]; rfl
    have hnil : leaf.kids = [] ++ [] := by rw [← hleaf]; rfl
    replace h₂ := h₂.perm (.swap ..)
    obtain ⟨b₃, hunder, h₃⟩ := h₂.insert (within_of_mem (List.mem_cons_self ..)) hnil
    rw [replant_root (h₂.rest.notMem_rest (by simp [leaf.root_mem_recs]))] at h₃
    obtain ⟨b₄, hback, h₄⟩ := h₃.insert (within_replant _ hu) (kids_withKids u (pre ++ post))
    rw [replant_replant] at h₄
    have hunder' : TreeM.splice (some w) none 0 (some kid.root) b₂ = .ok none b₃ := by
      rw [← hroot]
      exact hunder
    have hback' : TreeM.splice (some u.root) (pre.getLast?.map Tree.root) 0 (some w) b₃ = .ok none b₄ := by
      rw [← hroot]
      exact hback
    refine ⟨b₄, g', ?_, hlive, by simpa using h₄⟩
    rw [bind_of_ok hunder', bind_of_ok hback']
    rfl
  · exact Or.inr ⟨hfull, b₁, by rw [TreeM.bind_apply, hnew]⟩

theorem merge {f l : Tree} (h : a.Stocked g ([l] :: cs)) (hf : f.Within cs.flatten) (hcode : f.op.code = l.op.code) :
    ∃ b g', TreeM.merge (some f.root) (some l.root) a = .ok (some f.root) b ∧ g'.live = g.live - 1 ∧
      b.Stocked g' (replant f (f.kids ++ l.kids) cs) := by
  have hl : l.Within ([l] :: cs).flatten := within_of_mem (by simp)
  have hf' : f.Within ([l] :: cs).flatten := hf.behind
  have hcodes : (a.node f.root).code = (a.node l.root).code := by
    rw [← Node.plain_code, (h.holds_within hf').fits.op, hcode, ← (h.holds_within hl).fits.op]
    rfl
  have hapart : l.root ∉ cs.flatten.flatMap Tree.recs := h.notMem_rest (by simp [l.root_mem_recs])
  obtain ⟨b₁, hstrip, -, h₁⟩ := (nil_cons.mpr h).splice hl (List.nil_append l.kids).symm (show (-1 : Int) ≤ -1 by decide)
  replace hstrip : TreeM.splice (some l.root) none (-1) none a = .ok (l.kids.head?.map Tree.root) b₁ := hstrip
  replace h₁ : b₁.Stocked g (l.kids :: replant l [] ([l] :: cs)) := h₁
  rw [replant_root hapart] at h₁
  have hstart : TreeM.merge (some f.root) (some l.root) a =
      (if (l.kids.head?.map Tree.root).isSome then do
        TreeM.append f.root (l.kids.head?.map Tree.root)
        TreeM.destroy l.root
        TreeM.free l.root
        return some f.root
      else do
        TreeM.destroy l.root
        TreeM.free l.root
        return some f.root) b₁ := by
    rw [TreeM.merge, bind_of_ok (TreeM.node_apply ..), bind_of_ok (TreeM.node_apply ..),
      if_neg (not_not_intro hcodes)]
    dsimp only
    rw [bind_of_ok hstrip]
  have hmoved : ∃ b₂, b₂.Stocked g ([l.withKids []] :: replant f (f.kids ++ l.kids) cs) ∧
      TreeM.merge (some f.root) (some l.root) a = (do
        TreeM.destroy l.root
        TreeM.free l.root
        return some f.root) b₂ := by
    rw [hstart]
    cases hk : l.kids with
    | nil =>
      rw [hk] at h₁
      have hsame : replant f (f.kids ++ []) cs = cs := by
        rw [List.append_nil]
        exact replant_self (h.flagged_within hf') h.rest.nodup hf
      refine ⟨b₁, by rw [hsame]; exact nil_cons.mp h₁, rfl⟩
    | cons k ks =>
      rw [hk] at h₁
      have hf₁ : f.Within ([l.withKids []] :: cs).flatten := hf.behind
      obtain ⟨b₂, happend, h₂⟩ := h₁.append hf₁
      have hfl : f.root ∉ (l.withKids []).recs := by
        rw [withKids, recs_mk, List.flatMap_nil, List.mem_singleton]
        exact fun he => hapart (he ▸ hf.mem_recs)
      have hcons : replant f (f.kids ++ k :: ks) ([l.withKids []] :: cs) =
          [graft f.root (f.withKids (f.kids ++ k :: ks)) (l.withKids [])] :: replant f (f.kids ++ k :: ks) cs := rfl
      rw [hcons, graft_of_notMem hfl] at h₂
      refine ⟨b₂, h₂, ?_⟩
      have hsome : ((k :: ks).head?.map Tree.root).isSome = true := rfl
      rw [if_pos hsome]
      exact bind_of_ok happend
  obtain ⟨b₂, h₂, hmove⟩ := hmoved
  obtain ⟨b₃, g', hfree, hlive, h₃⟩ := h₂.free_op
  refine ⟨b₃, g', ?_, hlive, h₃⟩
  obtain ⟨⟨⟩, c, hdestroy, hfree⟩ := bind_eq_ok.mp hfree
  have hroot : (l.withKids []).root = l.root := rfl
  rw [hmove, bind_of_ok hdestroy, bind_of_ok hfree]
  rfl

theorem merge_fails {f l : Tree} (h : a.Stocked g cs) (hf : f.Within cs.flatten) (hl : l.Within cs.flatten)
    (hcode : f.op.code ≠ l.op.code) : TreeM.merge (some f.root) (some l.root) a =
      .error (.broken (utf8 "merge: " ++ f.op.code.nameBytes ++ utf8 " and " ++ l.op.code.nameBytes)) a := by
  have hfc : (a.node f.root).code = f.op.code := by rw [← Node.plain_code, (h.holds_within hf).fits.op]
  have hlc : (a.node l.root).code = l.op.code := by rw [← Node.plain_code, (h.holds_within hl).fits.op]
  rw [TreeM.merge, bind_of_ok (TreeM.node_apply ..), bind_of_ok (TreeM.node_apply ..), hfc, hlc,
    if_pos hcode]
  rfl

end Stocked

/-- **Editing kids.** In a well-formed forest that is held in a slab group, appending and prepending put a
sealed chain behind and before the kids of an op, replacing puts it in the place of one of the kids, and
detaching takes a kid out; the kid is then a chain of its own. Wrapping puts a new op between an op and one of
its kids, if there is memory for it. Merging moves the kids of a loose op behind those of an op of the same
type and frees the loose one. All other trees stay well-formed, and the count of live records is changed by
the ops that are made and freed alone. -/
theorem kid_edits (a : Arena) (g : Group) :
    (∀ {cs : List (List Tree)} {ins : List Tree} {u : Tree}, a.Stocked g (ins :: cs) → u.Within cs.flatten →
      (∃ b, TreeM.append u.root (ins.head?.map Tree.root) a = .ok () b ∧
        b.Stocked g (replant u (u.kids ++ ins) cs)) ∧
      (∃ b, TreeM.prepend u.root (ins.head?.map Tree.root) a = .ok () b ∧
        b.Stocked g (replant u (ins ++ u.kids) cs)) ∧
      ∀ pre old post, u.kids = pre ++ old :: post →
        ∃ b, TreeM.replace u.root (some old.root) (ins.head?.map Tree.root) a = .ok (some old.root) b ∧
          b.Stocked g ([old] :: replant u (pre ++ ins ++ post) cs)) ∧
    (∀ {cs : List (List Tree)} {u kid : Tree} {pre post : List Tree}, a.Stocked g cs → u.Within cs.flatten →
      u.kids = pre ++ kid :: post →
      (∃ b, TreeM.detach kid.root a = .ok (some kid.root) b ∧ b.Stocked g ([kid] :: replant u (pre ++ post) cs)) ∧
      ∀ t ≠ Opcode.freed,
        (∃ w b g', TreeM.wrap u.root kid.root t a = .ok w b ∧ g'.live = g.live + 1 ∧
          b.Stocked g' (replant u (pre ++ Tree.withKids
            (.mk w { code := t, flags := kid.op.flags &&& Flags.wantMask, id := a.seq + 1 } []) [kid] :: post) cs)) ∨
        a.canAlloc g t.size = false ∧ ∃ b, TreeM.wrap u.root kid.root t a = .error (.fatal none) b) ∧
    (∀ {cs : List (List Tree)} {f l : Tree}, a.Stocked g ([l] :: cs) → f.Within cs.flatten →
      f.op.code = l.op.code →
      ∃ b g', TreeM.merge (some f.root) (some l.root) a = .ok (some f.root) b ∧ g'.live = g.live - 1 ∧
        b.Stocked g' (replant f (f.kids ++ l.kids) cs)) ∧
    (∀ {cs : List (List Tree)} {f l : Tree}, a.Stocked g cs → f.Within cs.flatten → l.Within cs.flatten →
      f.op.code ≠ l.op.code → TreeM.merge (some f.root) (some l.root) a =
        .error (.broken (utf8 "merge: " ++ f.op.code.nameBytes ++ utf8 " and " ++ l.op.code.nameBytes)) a) ∧
    ∀ r? : Option RecId, TreeM.merge none r? a = .ok r? a ∧ TreeM.merge r? none a = .ok r? a := by
  refine ⟨fun h hu => ⟨h.append hu, h.prepend hu, fun pre old post hks => ?_⟩,
    fun h hu hks => ⟨h.detach hu hks, fun t ht => h.wrap hu hks ht⟩, fun h hf hcode => h.merge hf hcode,
    fun h hf hl hcode => h.merge_fails hf hl hcode, fun r? => ⟨rfl, ?_⟩⟩
  · obtain ⟨b, hrun, -, hb⟩ := h.replace hu hks
    exact ⟨b, hrun, hb⟩
  · cases r? <;> rfl

theorem twoLists_stocked : twoLists.Stocked { live := 5 } [[twoLists.headed 3 [twoLists.headed 4 []]],
    [twoLists.headed 0 [twoLists.headed 1 [], twoLists.headed 2 []]]] := by
  refine ⟨twoLists_grove, rfl, rfl, ⟨[], fun g hg => ?_, List.nodup_nil, nofun, nofun⟩, by decide⟩
  obtain rfl := Option.some.inj hg
  rfl

/-- The one op gets the kid of the other one. -/
theorem kid_edits_twoLists :
    (∃ b, TreeM.append 0 (some 3) twoLists = .ok () b ∧ b.group? = some { live := 5 }) ∧
    (∃ b, TreeM.detach 1 twoLists = .ok (some 1) b ∧ b.parent? 1 = none) ∧
    (∃ b g', TreeM.merge (some 0) (some 3) twoLists = .ok (some 0) b ∧ b.group? = some g' ∧ g'.live = 4) ∧
    TreeM.merge (some 0) (some 1) twoLists = .error (.broken (utf8 "merge: list and const")) twoLists := by
  have h := twoLists_stocked
  obtain ⟨hchain, hkid, hmerge, hfail, -⟩ := kid_edits twoLists { live := 5 }
  have hin : (twoLists.headed 0 [twoLists.headed 1 [], twoLists.headed 2 []]).Within
      [[twoLists.headed 0 [twoLists.headed 1 [], twoLists.headed 2 []]]].flatten := within_of_mem (by simp)
  have hin' := @Within.behind _ [twoLists.headed 3 [twoLists.headed 4 []]] _ hin
  refine ⟨?_, ?_, ?_, ?_⟩
  · obtain ⟨⟨b, hrun, hb⟩, -⟩ := hchain h hin
    exact ⟨b, hrun, hb.group⟩
  · obtain ⟨⟨b, hrun, hb⟩, -⟩ := hkid h hin' (List.nil_append _).symm
    exact ⟨b, hrun, hb.parent_root (List.mem_cons_self ..) (List.mem_singleton_self (twoLists.headed 1 []))⟩
  · obtain ⟨b, g', hrun, hlive, hb⟩ := hmerge h hin rfl
    exact ⟨b, g', hrun, hb.group, hlive⟩
  · exact hfail h hin' (hin'.kid (List.mem_cons_self ..)) (by decide)

/-- Two list ops of which the first one is the only kid of a third one, and the other one stands alone. -/
def listUnderList : Arena where
  recs := #[{ code := .list, flags := Flags.kids, first := some 1, last := some 1, id := 1 },
    { code := .list, sib := .up 0, id := 2 }, { code := .list, id := 3 }]
  group? := some { live := 3 }

/-- An op that is merged into another one must not have a parent: the parent is left with a freed kid. -/
theorem not_merge_kid : ¬ ∀ (a : Arena) (g : Group) (cs : List (List Tree)) (f l : Tree), a.Stocked g cs →
    f.Within cs.flatten → l.Within cs.flatten → f.root ≠ l.root → f.op.code = l.op.code →
    ∃ b g' cs', TreeM.merge (some f.root) (some l.root) a = .ok (some f.root) b ∧ b.Stocked g' cs' ∧
      ∀ w : Tree, w.Within cs.flatten → w.root ≠ l.root →
        ∃ w' : Tree, w'.Within cs'.flatten ∧ w'.root = w.root := by
  intro hall
  have hh : listUnderList.Stocked { live := 3 } [[listUnderList.headed 0 [listUnderList.headed 1 []]],
      [listUnderList.headed 2 []]] := by
    have h1 : listUnderList.Holds (listUnderList.headed 1 []) :=
      holds_mk.mpr ⟨⟨by decide, rfl, by decide, rfl, fun _ => rfl, trivial⟩, by simp⟩
    have h0 : listUnderList.Holds (listUnderList.headed 0 [listUnderList.headed 1 []]) :=
      holds_mk.mpr ⟨⟨by decide, rfl, by decide, rfl, fun _ => rfl, rfl⟩, by simpa using h1⟩
    have h2 : listUnderList.Holds (listUnderList.headed 2 []) :=
      holds_mk.mpr ⟨⟨by decide, rfl, by decide, rfl, fun _ => rfl, trivial⟩, by simp⟩
    have f1 : (listUnderList.headed 1 []).Flagged := flagged_mk.mpr ⟨by decide, by simp⟩
    have f0 : (listUnderList.headed 0 [listUnderList.headed 1 []]).Flagged := flagged_mk.mpr ⟨by decide, by simpa using f1⟩
    have f2 : (listUnderList.headed 2 []).Flagged := flagged_mk.mpr ⟨by decide, by simp⟩
    refine ⟨⟨by simp [h0, h2], by decide, by simp [f0, f2], fun c hc => ?_⟩, rfl, rfl,
      ⟨[], fun g hg => ?_, List.nodup_nil, nofun, nofun⟩, by decide⟩
    · simp only [List.mem_cons, List.not_mem_nil, or_false] at hc
      rcases hc with rfl | rfl <;> exact ⟨rfl, trivial⟩
    · obtain rfl := Option.some.inj hg
      rfl
  obtain ⟨b, g', cs', hrun, hb, hkeep⟩ := hall listUnderList _ _ (listUnderList.headed 2 []) (listUnderList.headed 1 []) hh
    (within_of_mem (by simp)) ⟨_, List.mem_cons_self .., kid_mem_subtrees (List.mem_cons_self ..)⟩ (by decide) rfl
  obtain ⟨w, hw, hroot⟩ := hkeep (listUnderList.headed 0 [listUnderList.headed 1 []]) (within_of_mem (by simp)) (by decide)
  obtain ⟨c, hrun', hfirst, hcode⟩ : ∃ c, TreeM.merge (some 2) (some 1) listUnderList = .ok (some 2) c ∧
      (c.node 0).first = some 1 ∧ (c.node 1).code = .freed := ⟨_, rfl, rfl, rfl⟩
  obtain rfl : b = c := (EStateM.Result.ok.inj (hrun.symm.trans hrun')).2
  have hw0 : w.root = 0 := hroot
  have hhw := hb.holds_within hw
  rw [← hw0, hhw.fits.first] at hfirst
  obtain ⟨k, hk, hk1⟩ := Option.map_eq_some_iff.mp hfirst
  exact (hhw.kid (List.mem_of_head? hk)).live k.root_mem_recs (hk1 ▸ hcode)

end Arena

end OpTree
