import OpTree.Proofs.Stripping

/-!
# Fusing a chain

What replacing a chain of element ops does to the tree: the op at the top stays with the first op of
the chain as its only kid, and all others are freed.
-/

namespace OpTree

set_option autoImplicit false

namespace TreeM

open Arena

variable {α β : Type}

/-- No op becomes visited, and the group stays where it is. -/
structure Faded (a b : Arena) : Prop where
  size : b.recs.size = a.recs.size
  marks : ∀ r, (b.node r).processed = true → (a.node r).processed = true
  held : a.Held → b.Held
  tune : b.tune = a.tune
  pad : b.pad = a.pad

def Fades (x : TreeM α) : Prop := ∀ ⦃a b : Arena⦄ ⦃v : α⦄, x a = .ok v b → Faded a b

theorem faded_of_kindred {a b : Arena} (h : a.Kindred b) : Faded a b where
  size := h.size
  marks r hr := h.processed r ▸ hr
  held := fun ⟨g, hg, hr⟩ => ⟨g, h.group.trans hg, hr⟩
  tune := by rw [h.rest]
  pad := by rw [h.rest]

theorem Steady.fades {x : TreeM α} (h : Steady x) : Fades x := fun _ _ _ hok => faded_of_kindred (h hok)

theorem Fades.bind {x : TreeM α} {f : α → TreeM β} (hx : Fades x) (hf : ∀ v, Fades (f v)) :
    Fades (x >>= f) := by
  intro a c v hok
  obtain ⟨u, b, hu, hv⟩ := bind_eq_ok.mp hok
  have h := hx hu
  have h' := hf u hv
  exact ⟨h'.size.trans h.size, fun r hr => h.marks r (h'.marks r hr), fun hg => h'.held (h.held hg),
    h'.tune.trans h.tune, h'.pad.trans h.pad⟩

theorem fades_ite {p : Prop} [Decidable p] {x y : TreeM α} (hx : Fades x) (hy : Fades y) :
    Fades (if p then x else y) := by
  split
  · exact hx
  · exact hy

theorem fades_update {r : RecId} {f : Node → Node} (h : ∀ n, (f n).processed = true → n.processed = true) :
    Fades (update r f) := by
  intro a b v hok
  cases hok
  refine ⟨size_update a r f, fun q hq => ?_, fun hg => hg, rfl, rfl⟩
  rcases node_update_cases (a := a) (r := r) (f := f) q with he | ⟨rfl, he⟩
  · exact he ▸ hq
  · exact h _ (he ▸ hq)

theorem fades_freeInGroup (r : RecId) : Fades (freeInGroup r) := by
  refine (steady_node r).fades.bind fun n => fades_ite (steady_pure ()).fades ?_
  intro a b v hok
  rw [bind_of_ok (get_apply a)] at hok
  cases hs : n.static <;> cases hg : a.group? <;> rw [hs, hg] at hok
  case false.some g =>
    cases hok
    refine ⟨size_update a r _, fun q hq => ?_, fun ⟨g', hg', hrefs, hrel⟩ => ?_, rfl, rfl⟩
    · rcases node_update_cases (a := a) (r := r) (f := fun n =>
        { code := .freed, ex := n.code, id := n.id, size := n.size, next := g.free }) q with he | ⟨rfl, he⟩
      · exact he ▸ hq
      · cases he ▸ hq
    · obtain rfl := Option.some.inj (hg.symm.trans hg')
      exact ⟨_, rfl, hrefs, hrel⟩
  all_goals exact absurd hok throw_ne_ok

theorem fades_freeStack (fuel : Nat) (stack : List RecId) : Fades (freeStack fuel stack) := by
  induction fuel generalizing stack with
  | zero =>
    cases stack with
    | nil => exact (steady_pure ()).fades
    | cons r stack => exact (steady_throw _).fades
  | succ fuel ih =>
    cases stack with
    | nil => exact (steady_pure ()).fades
    | cons r stack =>
      have hfree : Fades (free r) := (steady_node r).fades.bind fun n =>
        fades_ite (steady_pure ()).fades (fades_ite (fades_update fun _ h => h) (fades_freeInGroup r))
      have hrest : Fades (do
          let ks ← kids r
          destroy r
          free r
          freeStack fuel (ks.reverse ++ stack)) :=
        (steady_kids r).fades.bind fun _ => (steady_destroy r).fades.bind fun _ =>
          hfree.bind fun _ => ih _
      have hrefs : Fades (update r fun n => { n with refs := n.refs - 1 }) := fades_update fun _ h => h
      unfold freeStack
      refine (steady_node r).fades.bind fun n => fades_ite (ih stack) ?_
      exact fades_ite (hrefs.bind fun _ => fades_ite (ih stack) hrest) (fades_ite (ih stack) hrest)

theorem fades_freeAll (rs : List RecId) : Fades (rs.forM freeTree) := by
  induction rs with
  | nil => exact (steady_pure ()).fades
  | cons r rs ih =>
    exact (steady_get.fades.bind fun _ => fades_freeStack _ _).bind fun _ => ih

theorem freeAll_ok {a b : Arena} {ks ts : List Tree} (h : a.Stand (ks ++ ts))
    (hok : (ks.map Tree.root).forM freeTree a = .ok () b) : b.Stand ts ∧ Spares a b ts := by
  induction ks generalizing a with
  | nil =>
    cases hok
    exact ⟨h, Spares.refl _ ts⟩
  | cons k ks ih =>
    obtain ⟨⟨⟩, c, hk, hks⟩ := bind_eq_ok.mp hok
    obtain ⟨hc, hac⟩ := freeTree_ok h hk
    obtain ⟨hb, hcb⟩ := ih hc hks
    exact ⟨hb, (hac.mono (List.subset_append_right ks ts)).trans hcb⟩

theorem freeAll_runs {a : Arena} {ks ts : List Tree} (h : a.Stand (ks ++ ts)) (hg : a.group?.isSome = true) :
    ∃ b, (ks.map Tree.root).forM freeTree a = .ok () b := by
  induction ks generalizing a with
  | nil => exact ⟨a, rfl⟩
  | cons k ks ih =>
    obtain ⟨c, hk, hgc⟩ := freeTree_runs h hg
    obtain ⟨b, hb⟩ := ih (freeTree_ok h hk).1 hgc
    exact ⟨b, (bind_of_ok hk).trans hb⟩

end TreeM

namespace Peep

open Arena OpTree.Tree

variable {S : Course} {a b : Arena} {t u : Tree}

theorem Stem.head {s p : RecId} (h : Stem a s p) (hne : s ≠ p) : ∃ q, FirstKid a s q ∧ Stem a q p := by
  induction h with
  | refl => exact absurd rfl hne
  | @up k p h hk ih =>
    by_cases hsk : s = k
    · subst hsk
      exact ⟨p, hk, .refl⟩
    · obtain ⟨q, hq, hstem⟩ := ih hsk
      exact ⟨q, hq, hstem.up hk⟩

/-- The op `top` has become the fused one, and `s` its only kid. -/
structure Crowned (a b : Arena) (top s : RecId) (path : Path) : Prop where
  local_ : Local a b [top, s]
  holds : b.Holds (.mk top (b.node top).plain [.mk s (b.node s).plain []])
  code : (b.node top).code = .multideref
  path : (b.node top).path = some path
  sib : (b.node top).sib = (a.node top).sib
  next_top : (b.node top).next = (a.node top).next
  other_top : (b.node top).other = (a.node top).other
  processed_top : (b.node top).processed = (a.node top).processed
  null : (b.node s).code = .null
  next : (b.node s).next = some top
  other : (b.node s).other = (a.node s).other
  processed : (b.node s).processed = (a.node s).processed
  opClass : (b.node s).opClass = (a.node s).opClass
  shape : (b.node s).Shape 0
  shape_top : (b.node top).Shape 1
  id : (b.node s).id = (a.node s).id
  id_top : (b.node top).id = (a.node top).id

theorem crown {top s : RecId} {o o' : Node} {p : Priv} {path : Path} (htop : a.Holds (.mk top o []))
    (hs : a.Holds (.mk s o' [])) (hne : s ≠ top) (hloose : (a.node s).sib = {}) (hshape : (a.node s).Shape 0)
    (hpath : path.items ≠ []) : ∃ b, (do
      TreeM.retype top .multideref
      TreeM.update top fun n => { n with priv := p, path := some path }
      TreeM.append top (some s)
      TreeM.neutralize s
      TreeM.setNext s (some top) : TreeM Unit) a = .ok () b ∧ Crowned a b top s path := by
  have hlt : top < a.recs.size := htop.fits.lt
  have hlts : s < a.recs.size := hs.fits.lt
  have hkids : a.kids top = [] := htop.kids_eq (by simp)
  -- The new op before it gets its kid.
  obtain ⟨c, hc⟩ : ∃ c : Arena, c = (a.update top fun n => { n with code := .multideref, last := none }).update top
      fun n => { n with priv := p, path := some path } := ⟨_, rfl⟩
  have hctop : c.node top =
      { a.node top with code := .multideref, last := none, priv := p, path := some path } := by
    rw [hc, node_update_self (by rwa [size_update]), node_update_self hlt]
  have hcs : c.node s = a.node s := by rw [hc, node_update_of_ne hne, node_update_of_ne hne]
  have hcloc : Local a c [top, s] := by
    rw [hc]
    exact (Local.of_update (by simp)).trans (Local.of_update (s := [top]) (by simp)) (fun _ h => h) (by simp)
  have hcholds : c.Holds (.mk top (c.node top).plain []) := by
    refine holds_mk.mpr ⟨⟨by rwa [root_mk, hcloc.size], rfl, ?_, ?_, ?_, trivial⟩, by simp⟩
    · rw [op_mk, Node.plain_code, hctop]
      exact Opcode.noConfusion
    · rw [root_mk, hctop]
      exact htop.fits.first
    · intro _
      rw [root_mk, hctop]
      rfl
  have happ := append_apply hcholds (k := s) (by simp) (by rw [hcs, hloose])
  rw [kids_mk, List.getLast?_nil, Option.map_none, root_mk] at happ
  obtain ⟨l, hl, htop'⟩ := @attach_node_parent c _ _ none hne.symm (hcloc.size.symm ▸ hlt) nofun
  have hs' := @attach_node_kid c _ _ none hne.symm (hcloc.size.symm ▸ hlts) nofun
  have hloc' : Local c (c.attach top s none) [top, s] :=
    (attach_regrown (by simp) (by simp) (by simp)).toLocal
  rw [Option.isNone_none, if_pos rfl] at htop'
  -- The kid becomes a null op that leads to the new op.
  refine ⟨((c.attach top s none).update s Node.neutralized).update s
    fun n => { n with next := some top, real := true }, ?_, ?_⟩
  · simp only [TreeM.retype, TreeM.bind_apply, TreeM.kids_apply, hkids, List.getLast?_nil, ite_self,
      TreeM.update_apply, ← hc, happ]
    rfl
  generalize c.attach top s none = d at htop' hs' hloc'
  obtain ⟨b, hb⟩ : ∃ b : Arena, b = (d.update s Node.neutralized).update s
      fun n => { n with next := some top, real := true } := ⟨_, rfl⟩
  rw [← hb]
  have hbtop : b.node top = d.node top := by
    rw [hb, node_update_of_ne hne.symm, node_update_of_ne hne.symm]
  have hds : s < d.recs.size := by rwa [hloc'.size, hcloc.size]
  have hbs : b.node s = { (d.node s).neutralized with next := some top, real := true } := by
    rw [hb, node_update_self (by rwa [size_update]), node_update_self hds]
  have hneu : ∀ n : Node, n.neutralized.first = n.first ∧ n.neutralized.last = n.last ∧
      n.neutralized.sib = n.sib ∧ n.neutralized.other = n.other ∧ n.neutralized.processed = n.processed ∧
      n.neutralized.id = n.id := by
    intro n
    unfold Node.neutralized
    split <;> exact ⟨rfl, rfl, rfl, rfl, rfl, rfl⟩
  have hnull : (b.node s).code = .null := by
    rw [hbs]
    exact Node.neutralized_code _
  have hloc : Local a b [top, s] := by
    refine hcloc.trans (hloc'.trans ?_ (fun _ h => h) fun _ h => h) (fun _ h => h) fun _ h => h
    rw [hb]
    exact (Local.of_update (s := [s]) (by simp)).trans (Local.of_update (s := [s]) (by simp)) (by simp) (by simp)
  have hcode : (b.node top).code = .multideref := by rw [hbtop, htop', hctop]
  have hclass : (b.node s).opClass = (a.node s).opClass := by
    have hd : (d.node s).opClass = (a.node s).opClass := by
      rw [hs', hcs]
      rfl
    rw [hbs]
    exact (Node.opClass_neutralized (d.node s)).trans hd
  refine ⟨hloc, ?_, hcode, by rw [hbtop, htop', hctop], by rw [hbtop, htop', hctop], by rw [hbtop, htop', hctop],
    by rw [hbtop, htop', hctop], by rw [hbtop, htop', hctop], hnull, by rw [hbs], ?_, ?_, hclass, ?_, ?_, ?_,
    by rw [hbtop, htop', hctop]⟩
  · refine holds_mk.mpr ⟨⟨by rwa [root_mk, hloc.size], rfl, ?_, ?_, ?_, ?_⟩, fun k hk => ?_⟩
    · rw [op_mk, Node.plain_code, hcode]
      decide
    · rw [root_mk, hbtop, htop']
      rfl
    · intro ht
      rw [root_mk, hbtop, htop']
      refine hl ?_
      rw [op_mk, Node.opClass_plain, hbtop, htop'] at ht
      exact ht
    · change (b.node s).sib = .up top
      rw [hbs]
      exact (hneu (d.node s)).2.2.1.trans (by rw [hs'])
    · obtain rfl := List.mem_singleton.mp hk
      refine holds_mk.mpr ⟨⟨by rwa [root_mk, hloc.size], rfl, ?_, ?_, ?_, trivial⟩, by simp⟩
      · rw [op_mk, Node.plain_code, hnull]
        decide
      · rw [root_mk, hbs]
        refine (hneu (d.node s)).1.trans ?_
        rw [hs', hcs]
        exact hs.fits.first
      · intro ht
        rw [root_mk, hbs]
        refine (hneu (d.node s)).2.1.trans ?_
        rw [hs', hcs]
        refine hs.fits.last ?_
        rw [op_mk, Node.opClass_plain, hclass] at ht
        rw [← hs.fits.op, Node.opClass_plain]
        exact ht
  · rw [hbs]
    refine (hneu (d.node s)).2.2.2.1.trans ?_
    rw [hs', hcs]
  · rw [hbs]
    refine (hneu (d.node s)).2.2.2.2.1.trans ?_
    rw [hs', hcs]
  · have hd : (d.node s).Shape 0 := by
      rw [hs', hcs]
      exact hshape.alike ⟨rfl, rfl, rfl, rfl⟩
    rw [hbs]
    exact hd.neutralized.alike ⟨rfl, rfl, rfl, rfl⟩
  · rw [hbtop, htop', hctop]
    exact ⟨Flags.has_or_kids _, fun _ => rfl, fun _ => ⟨path, rfl, hpath⟩⟩
  · rw [hbs]
    refine (hneu (d.node s)).2.2.2.2.2.trans ?_
    rw [hs', hcs]

/-- A chain with its top `u`, its start `w` and the parent `x` of the start. -/
structure Chain (a : Arena) (t u x w : Tree) (js : List Tree) : Prop where
  mem : u ∈ t.subtrees
  inner : x ∈ u.subtrees
  kids : x.kids = w :: js
  leaf : w.kids = []
  start : u.start = w.root
  parent : a.parent? w.root = some x.root

theorem chain_of_stem {s top : RecId} (hw : Wired S a t) (hs : s ∈ t.recs)
    (hleaf : (a.node s).code.isLeaf = true) (hstem : Stem a s top) (hne : s ≠ top) :
    ∃ u x w js, Chain a t u x w js ∧ u.root = top ∧ w.root = s := by
  obtain ⟨w, hwt, rfl, hop⟩ := hw.subtree hs
  have hkids : w.kids = [] := hw.leaf w hwt (by rw [← hop]; exact hleaf)
  have hstart : w.start = w.root := by
    rw [← Tree.mk_root_op_kids w, hkids]
    rfl
  obtain ⟨u, hu, rfl, hwu, hus⟩ := hw.forest.stem hwt rfl hstem
  obtain ⟨q, hq, hqtop⟩ := hstem.head hne
  obtain ⟨x, hx, rfl, j, js, hxk, hj⟩ := hw.forest.firstKid hs hq
  have hjx : j ∈ x.subtrees := kid_mem_subtrees (by rw [hxk]; exact List.mem_cons_self ..)
  obtain rfl := eq_of_root_eq hw.nodup (subtrees_trans hx hjx) hwt hj
  obtain ⟨u', hu', hroot, hxu, -⟩ := hw.forest.stem hx rfl hqtop
  obtain rfl := eq_of_root_eq hw.nodup hu' hu hroot
  exact ⟨u', x, j, js, ⟨hu, hxu, hxk, hkids, hus.trans hstart, hq.parent⟩, rfl, rfl⟩

namespace Chain

variable {x w : Tree} {js : List Tree} {c d : Arena}

theorem recs_start (h : Chain a t u x w js) : w.recs = [w.root] := by
  rw [← Tree.mk_root_op_kids w, h.leaf]
  simp

theorem ne (h : Chain a t u x w js) (hn : t.recs.Nodup) : w.root ≠ u.root := by
  intro he
  have hxn : x.recs.Nodup := nodup_subtree hn (subtrees_trans h.mem h.inner)
  have hwx : w ∈ x.kids := by
    rw [h.kids]
    exact List.mem_cons_self ..
  have hwu : w ∈ u.subtrees := subtrees_trans h.inner (kid_mem_subtrees hwx)
  obtain rfl := eq_of_root_eq hn (subtrees_trans h.mem hwu) h.mem he
  have hmem : x.root ∈ w.recs := recs_subset h.inner x.root_mem_recs
  exact root_notMem_kids hxn (List.mem_flatMap.mpr ⟨w, hwx, hmem⟩)

def stump (c : Arena) (u x : Tree) (js : List Tree) : Tree :=
  Tree.graft x.root (.mk x.root (c.node x.root).plain js) u

theorem stump_holds (h : Chain a t u x w js) (hw : Wired S a t) (hb : Beheaded a c x w js) :
    c.Holds (stump c u x js) ∧ (stump c u x js).recs.Nodup ∧ (stump c u x js).root = u.root ∧
      ∀ r ∈ (stump c u x js).recs, r ∈ u.recs ∧ r ≠ w.root := by
  have hun : u.recs.Nodup := nodup_subtree hw.nodup h.mem
  have hxn : x.recs.Nodup := nodup_subtree hun h.inner
  have hu : a.Holds u := hw.holds.subtree h.mem
  have hrecs : ∀ o : Node, (Tree.mk x.root o js).recs = x.root :: js.flatMap Tree.recs := fun o => recs_mk _ _ _
  have hx : x.recs = x.root :: (w.recs ++ js.flatMap Tree.recs) := by
    rw [← Tree.mk_root_op_kids x, recs_mk, h.kids, List.flatMap_cons, root_mk]
  rw [hx, List.nodup_cons, List.mem_append, not_or] at hxn
  obtain ⟨⟨hxw, hxjs⟩, hwjs⟩ := hxn
  have hfit : Fitting u x (.mk x.root (c.node x.root).plain js) := by
    refine ⟨h.inner, hun, rfl, fun r hr => ?_, ?_⟩
    · rw [hx, List.mem_cons, List.mem_append]
      rw [hrecs, List.mem_cons] at hr
      exact hr.imp_right Or.inr
    · rw [hrecs]
      exact List.nodup_cons.mpr ⟨hxjs, (List.nodup_append.mp hwjs).2.1⟩
  have hwx : w.root ∈ x.recs := by
    rw [hx]
    exact List.mem_cons_of_mem _ (List.mem_append_left _ w.root_mem_recs)
  refine ⟨hu.graft hfit hb.holds (Nat.le_of_eq hb.local_.size.symm) (fun r _ hr => ?_) hb.root.sib,
    hfit.nodup_graft, root_graft u rfl, fun r hr => ?_⟩
  · refine SamePlace.of_eq (hb.local_.outside r fun hm => ?_)
    rcases List.mem_pair.mp hm with rfl | rfl
    · exact hr x.root_mem_recs
    · exact hr hwx
  · rcases hfit.mem_recs.mp hr with hr | ⟨hr, hrx⟩
    · refine ⟨recs_subset h.inner (hfit.recs hr), ?_⟩
      rintro rfl
      rw [hrecs, List.mem_cons] at hr
      rcases hr with he | hr
      · exact hxw (he ▸ w.root_mem_recs)
      · exact (List.nodup_append.mp hwjs).2.2 _ w.root_mem_recs _ hr rfl
    · exact ⟨hr, fun he => hrx (he ▸ hwx)⟩

/-- Everything below the top comes off. What is left are the start, the trees that are freed and the
rest of the tree. -/
theorem stand (h : Chain a t u x w js) (hw : Wired S a t) (hb : Beheaded a c x w js)
    (hs : Stripped c d (stump c u x js)) :
    d.Stand ((stump c u x js).kids ++ [w, Tree.graft u.root (.mk u.root (d.node u.root).plain []) t]) ∧
      Trimmed (a.node u.root) (d.node u.root) ∧ d.node w.root = { a.node w.root with sib := {} } ∧
      ∀ r ∈ t.recs, r ∉ u.recs → d.node r = a.node r := by
  obtain ⟨hc, hcn, hcr, hin⟩ := h.stump_holds hw hb
  have hxu : x.root ∈ u.recs := recs_subset h.inner x.root_mem_recs
  have hwu : w.root ∈ u.recs := by
    have hwx : w ∈ x.kids := by
      rw [h.kids]
      exact List.mem_cons_self ..
    exact recs_subset (subtrees_trans h.inner (kid_mem_subtrees hwx)) w.root_mem_recs
  have hsub : (stump c u x js).root :: (stump c u x js).kids.map Tree.root ⊆ (stump c u x js).recs := by
    intro r hr
    rcases List.mem_cons.mp hr with rfl | hr
    · exact root_mem_recs _
    · obtain ⟨k, hk, rfl⟩ := List.mem_map.mp hr
      exact recs_subset (kid_mem_subtrees hk) k.root_mem_recs
  have hloc : Local a d u.recs :=
    hb.local_.trans hs.local_ (by simp [hxu, hwu]) fun r hr => (hin r (hsub hr)).1
  have hroot : Trimmed (a.node u.root) (d.node u.root) := by
    have hcd := hs.root
    rw [hcr] at hcd
    refine Trimmed.trans ?_ hcd
    by_cases hux : u.root = x.root
    · rw [hux]
      exact hb.root
    · rw [hb.local_.outside u.root fun hm => by
        rcases List.mem_pair.mp hm with he | he
        · exact hux he
        · exact h.ne hw.nodup he.symm]
      exact Trimmed.refl _
  have hstart : d.node w.root = { a.node w.root with sib := {} } := by
    rw [hs.local_.outside w.root fun hm => (hin _ (hsub hm)).2 rfl, hb.kid]
  have hout : ∀ r ∈ t.recs, r ∉ u.recs → d.node r = a.node r := fun r _ hr => hloc.outside r hr
  have hsize := Nat.le_of_eq hloc.size.symm
  have hfit : Fitting t u (.mk u.root (d.node u.root).plain []) :=
    ⟨h.mem, hw.nodup, rfl, by simp [u.root_mem_recs], by simp⟩
  have hkidsrecs : ∀ r ∈ (stump c u x js).kids.flatMap Tree.recs, r ∈ u.recs ∧ r ≠ w.root ∧ r ≠ u.root := by
    intro r hr
    obtain ⟨hru, hrw⟩ := hin r ((stump c u x js).kids_recs_subset hr)
    exact ⟨hru, hrw, fun he => root_notMem_kids hcn (by rw [hcr]; exact he ▸ hr)⟩
  have hrestrecs : ∀ r ∈ (Tree.graft u.root (.mk u.root (d.node u.root).plain []) t).recs,
      r = u.root ∨ r ∉ u.recs := by
    intro r hr
    rcases hfit.mem_recs.mp hr with hr | ⟨-, hr⟩
    · exact Or.inl (by simpa using hr)
    · exact Or.inr hr
  refine ⟨⟨fun k hk => ?_, ?_, ?_⟩, hroot, hstart, hout⟩
  · rcases List.mem_append.mp hk with hk | hk
    · exact hs.holds_kid k hk
    · rcases List.mem_pair.mp hk with rfl | rfl
      · have hwa : a.Holds k := hw.holds.subtree (mem_subtrees_of_root hw.nodup (self_mem_subtrees t) ?_ ?_)
        · refine hwa.congr hsize ?_ (by rw [h.leaf]; nofun)
          rw [hstart]
          exact ⟨rfl, rfl, rfl⟩
        · have hkx : k ∈ x.kids := by
            rw [h.kids]
            exact List.mem_cons_self ..
          exact subtrees_trans h.mem (subtrees_trans h.inner (kid_mem_subtrees hkx))
        · exact recs_subset h.mem hwu
      · refine hw.holds.graft hfit ?_ hsize (fun r hr hru => SamePlace.of_eq (hout r hr hru)) hroot.sib
        have hd := hs.holds
        rw [hcr] at hd
        exact hd
  · rw [List.flatMap_append, List.nodup_append]
    refine ⟨nodup_kids hcn, ?_, fun r hr q hq => ?_⟩
    · rw [List.flatMap_cons, List.flatMap_cons, List.flatMap_nil, List.append_nil, h.recs_start,
        List.singleton_append, List.nodup_cons]
      refine ⟨fun hm => ?_, hfit.nodup_graft⟩
      exact (hrestrecs _ hm).elim (h.ne hw.nodup) fun hn => hn hwu
    · obtain ⟨hru, hrw, hrr⟩ := hkidsrecs r hr
      rintro rfl
      rw [List.flatMap_cons, List.flatMap_cons, List.flatMap_nil, List.append_nil, h.recs_start,
        List.singleton_append, List.mem_cons] at hq
      rcases hq with he | hq
      · exact hrw he
      · exact (hrestrecs _ hq).elim hrr fun hn => hn hru
  · exact hw.forest.toStand.freeList hloc (by simpa using recs_subset h.mem)

end Chain

theorem firm_of_access {n : Node}
    (h : n.code ∈ [Opcode.aelem, .aelemU, .helem, .existsElem, .deleteElem]) :
    n.Firm ∧ n.code.isLeaf = false ∧ n.opClass ≠ .logop := by
  simp only [List.mem_cons, List.not_mem_nil, or_false] at h
  have hclass : n.opClass = n.code.opClass := by
    have hc : n.code ≠ .null := by rcases h with h | h | h | h | h <;> simp [h]
    simp [Node.opClass, Node.isEx, hc]
  rcases h with h | h | h | h | h <;>
    exact ⟨⟨by simp [h], by simp [h], by simp [h], by rw [hclass, h]; decide⟩, by rw [h]; rfl,
      by rw [hclass, h]; decide⟩

theorem not_logop_of_leaf {n : Node} (h : n.code.isLeaf = true) : n.opClass ≠ .logop := by
  have hclass : n.code ≠ .null ∧ n.code.opClass ≠ .logop := by
    cases hc : n.code <;> rw [hc] at h <;> first | decide | cases h
  simp [Node.opClass, Node.isEx, hclass]

theorem not_binop_of_leaf {n : Node} (h : n.code.isLeaf = true) : n.opClass ≠ .binop := by
  have hclass : n.code ≠ .null ∧ n.code.opClass ≠ .binop := by
    cases hc : n.code <;> rw [hc] at h <;> first | decide | cases h
  simp [Node.opClass, Node.isEx, hclass]

theorem turn_of_leaf {n : Node} (h : n.code.isLeaf = true) : n.turn = .stays := by
  refine Node.turn_of_ne (fun hc => ?_) fun hc => ?_ <;> rw [hc] at h <;> cases h

theorem turn_of_access {n : Node} (h : n.code ∈ [Opcode.aelem, .aelemU, .helem, .existsElem, .deleteElem]) :
    n.turn = .stays := by
  refine Node.turn_of_ne (fun hc => ?_) fun hc => ?_ <;> rw [hc] at h <;> simp at h

theorem fuse_ok {s : RecId} {m : PathMatch} (hw : Wired S a t) (hs : s ∈ t.recs)
    (hleaf : (a.node s).code.isLeaf = true) (hstem : Stem a s m.top)
    (hcode : (a.node m.top).code ∈ [Opcode.aelem, .aelemU, .helem, .existsElem, .deleteElem])
    (hclear : ∀ u ∈ t.subtrees, u.op.Firm → u.start = s → ∀ r ∈ u.recs, (a.node r).processed = true → r = s)
    (hlevels : m.levels ≠ []) :
    ∃ u b, fuse s m a = .ok () b ∧ u.root = m.top ∧ Swapped a b t u s ∧
      (b.node m.top).path = some (pathOf a (a.node s) m.levels) := by
  obtain ⟨hfirm, hsolid, hlogop⟩ := firm_of_access hcode
  have hne : s ≠ m.top := fun he => by
    rw [← he, hleaf] at hsolid
    cases hsolid
  obtain ⟨u, x, w, js, h, hu, rfl⟩ := chain_of_stem hw hs hleaf hstem hne
  have hxn : x.recs.Nodup := nodup_subtree hw.nodup (subtrees_trans h.mem h.inner)
  have hx : a.Holds x := hw.holds.subtree (subtrees_trans h.mem h.inner)
  have hprev : a.prevOf? x.root (some w.root) = none := by
    rw [prevOf?, hx.kids_eq hxn, h.kids, List.map_cons, List.takeWhile_cons]
    simp
  obtain ⟨c, hcut, hb⟩ := hx.behead hxn h.kids
  obtain ⟨hc, hcn, hcr, -⟩ := h.stump_holds hw hb
  obtain ⟨d, hstrip, hst⟩ := hc.strip hcn
  rw [hcr, hu] at hstrip
  obtain ⟨hstand, hroot, hstart, hout⟩ := h.stand hw hb hst
  have hrep : TreeM.replace x.root (some w.root) none a = .ok (some w.root) c := by
    rw [TreeM.replace, bind_of_ok (TreeM.get_apply a), hprev]
    exact hcut
  have hcd := (TreeM.steady_splice _ _ _ _ hcut).trans (TreeM.steady_splice _ _ _ _ hstrip)
  have hheld : d.Held := (TreeM.faded_of_kindred hcd).held hw.held
  obtain ⟨e, hfree⟩ := TreeM.freeAll_runs hstand (by
    obtain ⟨g, hg, -⟩ := hheld
    rw [hg]
    rfl)
  obtain ⟨hstand', hspare⟩ := TreeM.freeAll_ok hstand hfree
  have hfade := TreeM.fades_freeAll _ hfree
  have hsize := hfade.size
  -- The top and the start are left over, each without kids.
  have hfit : Fitting t u (.mk u.root (d.node u.root).plain []) :=
    ⟨h.mem, hw.nodup, rfl, by simp [u.root_mem_recs], by simp⟩
  have hkeep : ∀ r, r = u.root ∨ r ∈ t.recs ∧ r ∉ u.recs → e.node r = d.node r := by
    intro r hr
    refine hspare.node _ (by simp) r (hfit.mem_recs.mpr ?_)
    simpa using hr
  have hkeep' : e.node w.root = d.node w.root := hspare.node w (by simp) _ w.root_mem_recs
  have htop : e.Holds (.mk u.root (d.node u.root).plain []) := by
    have hd := hst.holds
    rw [hcr] at hd
    refine hd.of_samePlace (Nat.le_of_eq hsize.symm) fun r hr => SamePlace.of_eq (hkeep r (Or.inl ?_))
    simpa using hr
  have hbare : e.Holds (.mk w.root w.op []) := by
    have he := hstand'.holds w (by simp)
    rwa [← Tree.mk_root_op_kids w, h.leaf] at he
  rw [← hu] at hne hlogop
  have hwt : w ∈ t.subtrees := subtrees_trans h.mem (subtrees_trans h.inner (kid_mem_subtrees (by
    rw [h.kids]
    exact List.mem_cons_self ..)))
  have hshape : (e.node w.root).Shape 0 := by
    have hws := hw.shaped w hwt
    rw [← (hw.holds.subtree hwt).fits.op, h.leaf, Node.shape_plain] at hws
    rw [hkeep', hstart]
    exact hws.alike ⟨rfl, rfl, rfl, rfl⟩
  have hpath : (pathOf a (a.node w.root) m.levels).items ≠ [] := by
    rw [pathOf_eq]
    obtain ⟨l, ls, hls⟩ := List.exists_cons_of_ne_nil hlevels
    rw [hls]
    exact List.cons_ne_nil _ _
  obtain ⟨b, hcrowned, hcrown⟩ := crown (p := pathPriv (a.node u.root)) htop hbare hne (by rw [hkeep', hstart]) hshape
    hpath
  have hchain : freeChain ((Chain.stump c u x js).kids.head?.map Tree.root) d = .ok () e := by
    rw [freeChain, bind_of_ok (TreeM.get_apply d), hst.siblings]
    exact hfree
  have hok : fuse w.root m a = .ok () b := by
    rw [fuse, bind_of_ok (TreeM.get_apply a), h.parent, bind_of_ok (TreeM.need_some _ a),
      bind_of_ok hrep, bind_of_ok hstrip]
    rw [bind_of_ok hchain, ← hu]
    exact hcrowned
  have hwu : w.root ∈ u.recs := by
    rw [← h.start]
    exact u.start_mem_recs
  have houtside : ∀ r ∈ t.recs, r ∉ u.recs → b.node r = a.node r := by
    intro r hr hru
    rw [hcrown.local_.outside r fun hm => by
      rcases List.mem_pair.mp hm with rfl | rfl
      · exact hru u.root_mem_recs
      · exact hru hwu, hkeep r (Or.inr ⟨hr, hru⟩), hout r hr hru]
  have hetop : Trimmed (a.node u.root) (e.node u.root) := by
    rw [hkeep u.root (Or.inl rfl)]
    exact hroot
  have hstart' : e.node w.root = { a.node w.root with sib := {} } := hkeep'.trans hstart
  have hut : u.root ∈ t.recs := recs_subset h.mem u.root_mem_recs
  have hother : ∀ r ∈ t.recs, (a.node r).opClass ≠ .logop → (a.node r).other = none := fun r hr hc =>
    (hw.other r hr).resolve_right hc
  have hfit' : Fitting t u (.mk u.root (b.node u.root).plain [.mk w.root (b.node w.root).plain []]) := by
    refine ⟨h.mem, hw.nodup, rfl, ?_, ?_⟩
    · simp [u.root_mem_recs, hwu]
    · simp [hne.symm]
  have hsize' : b.recs.size = a.recs.size := hcrown.local_.size.trans (hsize.trans hcd.size)
  refine ⟨u, b, hok, hu, ⟨h.mem, ?_, ?_, h.start, hne, Node.not_passes_of_leaf hleaf, ?_, houtside, hcrown.null,
    ?_, hcrown.code, hcrown.next, hcrown.next_top.trans hetop.next, ?_, ?_, ?_,
    hcrown.processed_top.trans hetop.processed, ?_, ?_, hcrown.shape, hcrown.shape_top, ?_,
    hcrown.id_top.trans hetop.id, ?_, ?_, ?_, hsize', ?_, turn_of_leaf hleaf, turn_of_access (hu ▸ hcode)⟩,
    hu ▸ hcrown.path⟩
  · rw [← hw.holds.subtree h.mem |>.fits.op]
    exact Node.firm_plain.mpr (hu ▸ hfirm)
  · intro he
    rw [← hu, he, hw.code_root] at hcode
    simp at hcode
  · refine ⟨⟨fun v hv => ?_, ?_, ?_⟩, fun v hv => ?_⟩
    · obtain rfl := List.mem_singleton.mp hv
      refine hw.holds.graft hfit' hcrown.holds (Nat.le_of_eq hsize'.symm)
        (fun r hr hru => SamePlace.of_eq (houtside r hr hru)) ?_
      exact hcrown.sib.trans hetop.sib
    · rw [List.flatMap_singleton]
      exact hfit'.nodup_graft
    · refine hstand'.freeList hcrown.local_ fun r hr => List.mem_flatMap.mpr ?_
      rcases List.mem_pair.mp hr with rfl | rfl
      · exact ⟨_, List.mem_cons_of_mem _ (List.mem_singleton_self _), hfit.mem_recs.mpr (Or.inl (by simp))⟩
      · exact ⟨w, List.mem_cons_self .., w.root_mem_recs⟩
    · obtain rfl := List.mem_singleton.mp hv
      rw [root_graft t hfit'.root]
      have hloose := hw.forest.loose t (by simp)
      by_cases ht : t.root ∈ u.recs
      · have htu : t = u := by
          by_contra hne'
          exact root_notMem_below hw.nodup h.mem (fun he => hne' (eq_of_root_eq hw.nodup
            (self_mem_subtrees t) h.mem he.symm)) ht
        subst htu
        rw [hcrown.sib, hetop.sib, hloose]
      · rw [houtside _ t.root_mem_recs ht, hloose]
  · rw [hcrown.opClass, hstart']
    exact not_logop_of_leaf hleaf
  · rw [hcrown.other, hstart']
    exact hother _ hs (not_logop_of_leaf hleaf)
  · rw [hcrown.other_top, hetop.other]
    exact hother _ hut hlogop
  · rw [hcrown.processed, hstart']
  · exact hclear u h.mem (by
      rw [← hw.holds.subtree h.mem |>.fits.op]
      exact Node.firm_plain.mpr (hu ▸ hfirm)) h.start
  · intro r hr
    rw [← hcd.processed r]
    refine hfade.marks r ?_
    by_cases htop : r = u.root
    · rw [htop] at hr ⊢
      exact hcrown.processed_top ▸ hr
    · by_cases hw : r = w.root
      · rw [hw] at hr ⊢
        exact hcrown.processed ▸ hr
      · rwa [hcrown.local_.outside r (by simp [htop, hw])] at hr
  · rw [hcrown.id, hstart']
  · exact (hfade.held hheld).of_local hcrown.local_
  · exact hcrown.local_.tune_eq.trans (hfade.tune.trans (TreeM.faded_of_kindred hcd).tune)
  · exact hcrown.local_.pad_eq.trans (hfade.pad.trans (TreeM.faded_of_kindred hcd).pad)
  · refine Node.recalls_of_null hcrown.null ?_
    rw [hcrown.opClass, hstart']
    exact not_binop_of_leaf hleaf

end Peep

end OpTree
