import OpTree.Proofs.Forest
import OpTree.Proofs.Sequencing
import OpTree.Op.Splice

/-!
# Adding kids and editing ops

What appending a tree to another one and changing the data of an op do to the trees an arena
holds. Neither touches the order of execution.
-/

namespace OpTree

set_option autoImplicit false

namespace TreeM

variable {α β : Type}

theorem bind_apply (x : TreeM α) (f : α → TreeM β) (a : Arena) :
    (x >>= f) a = match x a with
      | .ok u b => f u b
      | .error e b => .error e b := by
  simp only [bind, EStateM.bind]
  cases x a <;> rfl

theorem map_apply (f : α → β) (x : TreeM α) (a : Arena) :
    (f <$> x) a = match x a with
      | .ok u b => .ok (f u) b
      | .error e b => .error e b := by
  simp only [Functor.map, EStateM.map]
  cases x a <;> rfl

theorem ite_apply (p : Prop) [Decidable p] (x y : TreeM α) (a : Arena) :
    (if p then x else y) a = if p then x a else y a := by split <;> rfl

@[simp] theorem pure_eq_ok {v w : α} {a b : Arena} :
    (pure v : TreeM α) a = .ok w b ↔ v = w ∧ a = b := by
  change EStateM.Result.ok v a = .ok w b ↔ _
  simp

@[simp] theorem pure_apply (v : α) (a : Arena) : (pure v : TreeM α) a = .ok v a := rfl
@[simp] theorem need_some (r : RecId) (a : Arena) : need (some r) a = .ok r a := rfl
@[simp] theorem get_apply (a : Arena) : (get : TreeM Arena) a = .ok a a := rfl
@[simp] theorem node_apply (r : RecId) (a : Arena) : node r a = .ok (a.node r) a := rfl
@[simp] theorem kids_apply (r : RecId) (a : Arena) : kids r a = .ok (a.kids r) a := rfl
@[simp] theorem update_apply (r : RecId) (f : Node → Node) (a : Arena) :
    update r f a = .ok () (a.update r f) := rfl

theorem throw_ne_ok {e : Failure} {v : α} {a b : Arena} : (throw e : TreeM α) a ≠ .ok v b := nofun

end TreeM

namespace Arena

variable {a b c : Arena}

structure Local (a b : Arena) (s : List RecId) : Prop where
  rest : b = { a with recs := b.recs }
  size : b.recs.size = a.recs.size
  outside : ∀ r ∉ s, b.node r = a.node r

theorem Local.refl (a : Arena) (s : List RecId) : Local a a s := ⟨rfl, rfl, fun _ _ => rfl⟩

theorem Local.tune_eq {s : List RecId} (h : Local a b s) : b.tune = a.tune := by rw [h.rest]

theorem Local.pad_eq {s : List RecId} (h : Local a b s) : b.pad = a.pad := by rw [h.rest]

theorem Local.trans {s t u : List RecId} (h : Local a b s) (h' : Local b c t) (hs : s ⊆ u)
    (ht : t ⊆ u) : Local a c u where
  rest := by rw [h'.rest, h.rest]
  size := h'.size.trans h.size
  outside r hr := (h'.outside r fun hm => hr (ht hm)).trans (h.outside r fun hm => hr (hs hm))

theorem Local.of_update {r : RecId} {f : Node → Node} {s : List RecId} (hr : r ∈ s) :
    Local a (a.update r f) s where
  rest := rfl
  size := size_update a r f
  outside q hq := node_update_of_ne (fun h : q = r => hq (h ▸ hr)) f

/-- Only the tree part of the records in `s` differs. -/
structure Regrown (a b : Arena) (s : List RecId) : Prop extends Local a b s where
  next : ∀ r, (b.node r).next = (a.node r).next
  other : ∀ r, (b.node r).other = (a.node r).other

theorem Regrown.refl (a : Arena) (s : List RecId) : Regrown a a s :=
  ⟨Local.refl a s, fun _ => rfl, fun _ => rfl⟩

theorem Regrown.trans {s t u : List RecId} (h : Regrown a b s) (h' : Regrown b c t) (hs : s ⊆ u)
    (ht : t ⊆ u) : Regrown a c u where
  toLocal := h.toLocal.trans h'.toLocal hs ht
  next r := (h'.next r).trans (h.next r)
  other r := (h'.other r).trans (h.other r)

theorem Regrown.of_update {r : RecId} {f : Node → Node} {s : List RecId} (hr : r ∈ s)
    (hnext : ∀ n, (f n).next = n.next) (hother : ∀ n, (f n).other = n.other) :
    Regrown a (a.update r f) s where
  toLocal := Local.of_update hr
  next q := by
    by_cases h : q = r
    · subst h
      by_cases hlt : q < a.recs.size
      · rw [node_update_self hlt, hnext]
      · simp [update, node, hlt]
    · rw [node_update_of_ne h]
  other q := by
    by_cases h : q = r
    · subst h
      by_cases hlt : q < a.recs.size
      · rw [node_update_self hlt, hother]
      · simp [update, node, hlt]
    · rw [node_update_of_ne h]

theorem Regrown.update {r : RecId} {f : Node → Node} {s : List RecId} (h : Regrown a b s)
    (hr : r ∈ s) (hnext : ∀ n, (f n).next = n.next) (hother : ∀ n, (f n).other = n.other) :
    Regrown a (b.update r f) s :=
  h.trans (Regrown.of_update hr hnext hother) (fun _ h => h) fun _ h => h

/-- The arena after `k` became the last kid of `p`, behind `last?`. -/
def attach (a : Arena) (p k : RecId) (last? : Option RecId) : Arena :=
  let a := a.update k fun n => { n with sib := .next none }
  let a := match last? with
    | some s => a.update s fun n => { n with sib := .next (some k) }
    | none => a.update p fun n => { n with first := some k, flags := n.flags ||| Flags.kids }
  let a := if (a.node p).opClass.tracksLast then a.update p fun n => { n with last := some k } else a
  a.update k fun n => { n with sib := .up p }

theorem lastSibling_of_last {k : RecId} (h : (a.node k).sib.more = false) : a.lastSibling k = k := by
  have : (a.node k).sibling? = none := by simp [Node.sibling?, Sib.sibling?, h]
  simp [lastSibling, bound, siblingsFrom, this]

theorem SibChain.getLast {p : RecId} {ks : List RecId} {k : RecId} (h : a.SibChain p ks)
    (hk : ks.getLast? = some k) : (a.node k).sib = .up p := by
  induction ks with
  | nil => simp at hk
  | cons j ks ih =>
    cases ks with
    | nil =>
      obtain rfl : j = k := by simpa using hk
      exact h
    | cons l ks => exact ih h.2 (by simpa [List.getLast?_cons_cons] using hk)

theorem Holds.last?_eq {t : Tree} (h : a.Holds t) (hn : t.recs.Nodup) :
    a.last? t.root = t.kids.getLast?.map Tree.root := by
  have hop : (a.node t.root).opClass = t.op.opClass := by
    rw [← Node.opClass_plain, h.fits.op]
  simp only [last?, hop]
  split
  · exact h.fits.last ‹_›
  · have hsib : a.siblingsFrom a.bound _ = _ := siblingsFrom_eq h.fits.sibs ?_
    · rw [h.fits.first]
      cases hk : t.kids with
      | nil => rfl
      | cons k ks =>
        rw [hk] at hsib
        simp only [List.map_cons, List.head?_cons] at hsib
        simp only [List.head?_cons, Option.map_some, lastSibling, hsib]
        simp only [List.getLastD_eq_getLast?, ← List.map_cons, List.getLast?_map]
        simp [List.getLast?_cons]
    · have h1 := h.length_recs_le hn
      have h2 := length_map_root_le t.kids
      cases t
      simp only [Tree.kids_mk, Tree.recs_mk, List.length_cons, List.length_map] at *
      simp only [bound]
      omega

theorem append_apply {t : Tree} {k : RecId} (h : a.Holds t) (hn : t.recs.Nodup)
    (hloose : (a.node k).sib = {}) :
    TreeM.append t.root (some k) a = .ok () (a.attach t.root k (t.kids.getLast?.map Tree.root)) := by
  have hlast := h.last?_eq hn
  have hks : a.lastSibling k = k := lastSibling_of_last (by simp [hloose])
  cases hl : t.kids.getLast? with
  | none =>
    have hnil : t.kids = [] := List.getLast?_eq_none_iff.mp hl
    have hfirst : (a.node t.root).first = none := by simp [h.fits.first, hnil]
    rw [hl] at hlast
    simp only [Option.map_none] at hlast
    simp only [TreeM.append, TreeM.splice, TreeM.bind_apply, TreeM.get_apply, hlast]
    simp [TreeM.bind_apply, TreeM.map_apply, TreeM.ite_apply, hfirst, hks, attach]
    generalize Arena.update (Arena.update a k _) t.root _ = b
    cases (b.node t.root).opClass.tracksLast <;> rfl
  | some l =>
    have hl' : (t.kids.map Tree.root).getLast? = some l.root := by simp [hl]
    have hsib : (a.node l.root).sib = .up t.root := h.fits.sibs.getLast hl'
    have hnone : (a.node l.root).sibling? = none := by simp [Node.sibling?, hsib, Sib.sibling?, Sib.up]
    rw [hl] at hlast
    simp only [Option.map_some] at hlast
    simp only [TreeM.append, TreeM.splice, TreeM.bind_apply, TreeM.get_apply, hlast]
    simp [TreeM.bind_apply, TreeM.map_apply, TreeM.ite_apply, hnone, hks, attach]
    generalize Arena.update (Arena.update a k _) l.root _ = b
    cases (b.node t.root).opClass.tracksLast <;> rfl

section Attach

variable {p k : RecId} {last? : Option RecId}

theorem attach_node_of_ne {r : RecId} (hp : r ≠ p) (hk : r ≠ k) (hl : last? ≠ some r) :
    (a.attach p k last?).node r = a.node r := by
  unfold attach
  rw [node_update_of_ne hk]
  cases last? with
  | none =>
    dsimp only
    split <;> simp only [node_update_of_ne hp, node_update_of_ne hk]
  | some s =>
    have hs : r ≠ s := fun h => hl (h ▸ rfl)
    dsimp only
    split <;> simp only [node_update_of_ne hp, node_update_of_ne hk, node_update_of_ne hs]

theorem attach_node_kid (hpk : p ≠ k) (hk : k < a.recs.size) (hl : last? ≠ some k) :
    (a.attach p k last?).node k = { a.node k with sib := .up p } := by
  unfold attach
  rw [node_update_self (by cases last? <;> dsimp only <;> split <;> simpa using hk)]
  cases last? with
  | none =>
    dsimp only
    split <;> simp only [node_update_of_ne hpk.symm, node_update_self hk]
  | some s =>
    have hs : k ≠ s := fun h => hl (h ▸ rfl)
    dsimp only
    split <;> simp only [node_update_of_ne hpk.symm, node_update_of_ne hs, node_update_self hk]

theorem attach_node_last {s : RecId} (hsp : s ≠ p) (hsk : s ≠ k) (hs : s < a.recs.size) :
    (a.attach p k (some s)).node s = { a.node s with sib := .next (some k) } := by
  unfold attach
  rw [node_update_of_ne hsk]
  dsimp only
  split <;>
    simp only [node_update_of_ne hsp, node_update_self (a := a.update k _) (r := s) (by simpa using hs),
      node_update_of_ne hsk]

theorem attach_node_parent (hpk : p ≠ k) (hp : p < a.recs.size) (hl : last? ≠ some p) :
    ∃ l, ((a.node p).opClass.tracksLast = true → l = some k) ∧
      (a.attach p k last?).node p =
        if last?.isNone then
          { a.node p with first := some k, flags := (a.node p).flags ||| Flags.kids, last := l }
        else { a.node p with last := l } := by
  unfold attach
  rw [node_update_of_ne hpk]
  cases last? with
  | none =>
    dsimp only
    simp only [node_update_self (a := a.update k _) (r := p) (by simpa using hp),
      node_update_of_ne hpk]
    split
    · refine ⟨some k, fun _ => rfl, ?_⟩
      simp only [node_update_self (a := Arena.update (a.update k _) p _) (r := p) (by simpa using hp),
        node_update_self (a := a.update k _) (r := p) (by simpa using hp), node_update_of_ne hpk]
      rfl
    · refine ⟨(a.node p).last, fun h => absurd h ‹_›, ?_⟩
      simp only [node_update_self (a := a.update k _) (r := p) (by simpa using hp),
        node_update_of_ne hpk]
      rfl
  | some s =>
    have hs : p ≠ s := fun h => hl (h ▸ rfl)
    dsimp only
    simp only [node_update_of_ne hs, node_update_of_ne hpk]
    split
    · refine ⟨some k, fun _ => rfl, ?_⟩
      simp only [node_update_self (a := Arena.update (a.update k _) s _) (r := p) (by simpa using hp),
        node_update_of_ne hs, node_update_of_ne hpk]
      rfl
    · refine ⟨(a.node p).last, fun h => absurd h ‹_›, ?_⟩
      simp only [node_update_of_ne hs, node_update_of_ne hpk]
      rfl

theorem attach_regrown {s : List RecId} (hp : p ∈ s) (hk : k ∈ s) (hl : ∀ r, last? = some r → r ∈ s) :
    Regrown a (a.attach p k last?) s := by
  unfold attach
  have hstart := (Regrown.refl a s).update (f := fun n => { n with sib := .next none }) hk
    (fun _ => rfl) fun _ => rfl
  refine Regrown.update ?_ hk (fun _ => rfl) fun _ => rfl
  cases last? with
  | none =>
    have hmid := hstart.update hp (f := fun n =>
      { n with first := some k, flags := n.flags ||| Flags.kids }) (fun _ => rfl) fun _ => rfl
    dsimp only
    split
    · exact hmid.update hp (fun _ => rfl) fun _ => rfl
    · exact hmid
  | some r =>
    have hmid := hstart.update (hl r rfl) (f := fun n => { n with sib := .next (some k) })
      (fun _ => rfl) fun _ => rfl
    dsimp only
    split
    · exact hmid.update hp (fun _ => rfl) fun _ => rfl
    · exact hmid

end Attach

theorem SibChain.snoc {p k : RecId} {ks : List RecId} (h : a.SibChain p ks)
    (hinit : ∀ j ∈ ks, ks.getLast? ≠ some j → (b.node j).sib = (a.node j).sib)
    (hlast : ∀ j, ks.getLast? = some j → (b.node j).sib = ⟨some k, true⟩)
    (hk : (b.node k).sib = .up p) (hn : ks.Nodup) : b.SibChain p (ks ++ [k]) := by
  induction ks with
  | nil => exact hk
  | cons j ks ih =>
    cases ks with
    | nil => exact ⟨hlast j rfl, hk⟩
    | cons l ks =>
      have hlast' : (j :: l :: ks).getLast? = (l :: ks).getLast? := List.getLast?_cons_cons
      have hj : (l :: ks).getLast? ≠ some j := fun hj =>
        (List.nodup_cons.mp hn).1 (List.mem_of_getLast? hj)
      refine ⟨(hinit j (List.mem_cons_self ..) (hlast' ▸ hj)).trans h.1, ?_⟩
      refine ih h.2 (fun i hi hne => hinit i (List.mem_cons_of_mem _ hi) (hlast' ▸ hne)) ?_
        (List.nodup_cons.mp hn).2
      exact fun i hi => hlast i (hlast' ▸ hi)

theorem nodup_roots {ks : List Tree} (h : (ks.flatMap Tree.recs).Nodup) :
    (ks.map Tree.root).Nodup := by
  induction ks with
  | nil => exact List.nodup_nil
  | cons k ks ih =>
    rw [List.flatMap_cons, List.nodup_append] at h
    refine List.nodup_cons.mpr ⟨fun hm => ?_, ih h.2.1⟩
    obtain ⟨j, hj, hjk⟩ := List.mem_map.mp hm
    have : k.root ∈ ks.flatMap Tree.recs := List.mem_flatMap.mpr ⟨j, hj, hjk ▸ j.root_mem_recs⟩
    exact h.2.2 _ k.root_mem_recs _ this rfl

theorem Holds.snoc {t u : Tree} (ht : a.Holds t) (hu : a.Holds u) (hn : (t.recs ++ u.recs).Nodup) :
    (a.attach t.root u.root (t.kids.getLast?.map Tree.root)).Holds (t.snoc u) := by
  obtain ⟨htn, -, hdisj⟩ := List.nodup_append.mp hn
  have hpk : t.root ≠ u.root := hdisj _ t.root_mem_recs _ u.root_mem_recs
  have hkid : ∀ k ∈ t.kids, k.root ∈ t.recs := fun k hk =>
    Tree.recs_subset (Tree.kid_mem_subtrees hk) k.root_mem_recs
  have hroots : ∀ k ∈ t.kids, k.root ≠ t.root := fun k hk h =>
    Tree.root_notMem_kids htn (List.mem_flatMap.mpr ⟨k, hk, h ▸ k.root_mem_recs⟩)
  have hlast : ∀ r, t.kids.getLast?.map Tree.root = some r → ∃ k ∈ t.kids, k.root = r := by
    intro r hr
    obtain ⟨k, hk, rfl⟩ := Option.map_eq_some_iff.mp hr
    exact ⟨k, List.mem_of_getLast? hk, rfl⟩
  have hlast_ne : ∀ r, r ∉ t.recs ∨ r = t.root → t.kids.getLast?.map Tree.root ≠ some r := by
    intro r hr h
    obtain ⟨k, hk, rfl⟩ := hlast r h
    exact hr.elim (fun hr => hr (hkid k hk)) (hroots k hk)
  have hu_notMem : u.root ∉ t.recs := fun h => hdisj _ h _ u.root_mem_recs rfl
  have hnode_kid := attach_node_kid hpk hu.fits.lt (hlast_ne _ (Or.inl hu_notMem))
  obtain ⟨l, hl, hnode⟩ := attach_node_parent hpk ht.fits.lt (hlast_ne _ (Or.inr rfl))
  have hgrown : Regrown a (a.attach t.root u.root (t.kids.getLast?.map Tree.root))
      (t.recs ++ u.recs) := by
    refine attach_regrown (List.mem_append_left _ t.root_mem_recs)
      (List.mem_append_right _ u.root_mem_recs) fun r hr => ?_
    obtain ⟨k, hk, rfl⟩ := hlast r hr
    exact List.mem_append_left _ (hkid k hk)
  have hsize := hgrown.size
  have hother : ∀ r, r ≠ t.root → r ≠ u.root → t.kids.getLast?.map Tree.root ≠ some r →
      (a.attach t.root u.root (t.kids.getLast?.map Tree.root)).node r = a.node r :=
    fun r h1 h2 h3 => attach_node_of_ne h1 h2 h3
  have hnode_last : ∀ k, t.kids.getLast? = some k →
      (a.attach t.root u.root (t.kids.getLast?.map Tree.root)).node k.root =
        { a.node k.root with sib := .next (some u.root) } := by
    intro k hk
    have hmem := List.mem_of_getLast? hk
    rw [hk]
    refine attach_node_last (hroots k hmem) ?_ (ht.lt (hkid k hmem))
    exact hdisj _ (hkid k hmem) _ u.root_mem_recs
  generalize a.attach t.root u.root (t.kids.getLast?.map Tree.root) = b at *
  -- below the kids nothing changes, and of the kids only the links to their right
  have hdeep : ∀ k ∈ t.kids, ∀ r ∈ k.kids.flatMap Tree.recs, b.node r = a.node r := by
    intro k hk r hr
    have hrk : r ∈ k.recs := by
      cases k
      simpa using Or.inr hr
    have hrt : r ∈ t.recs := Tree.recs_subset (Tree.kid_mem_subtrees hk) hrk
    refine hother r ?_ (hdisj _ hrt _ u.root_mem_recs) fun h => ?_
    · rintro rfl
      exact Tree.root_notMem_kids htn (List.mem_flatMap.mpr ⟨k, hk, hrk⟩)
    · obtain ⟨j, hj, rfl⟩ := hlast r h
      exact Tree.root_notMem_grandkids htn hk hj hr
  have hkids : ∀ k ∈ t.kids, b.Holds k := by
    intro k hk
    refine (ht.kid hk).congr (Nat.le_of_eq hsize.symm) ?_ fun j hj r hr =>
      SamePlace.of_eq (hdeep k hk r (List.mem_flatMap.mpr ⟨j, hj, hr⟩))
    by_cases hkl : t.kids.getLast?.map Tree.root = some k.root
    · obtain ⟨j, hj, hjk⟩ := Option.map_eq_some_iff.mp hkl
      rw [← hjk, hnode_last j hj]
      exact ⟨rfl, rfl, rfl⟩
    · rw [hother k.root (hroots k hk) (hdisj _ (hkid k hk) _ u.root_mem_recs) hkl]
      exact ⟨rfl, rfl, rfl⟩
  have hu' : b.Holds u := by
    refine hu.congr (Nat.le_of_eq hsize.symm) (by rw [hnode_kid]; exact ⟨rfl, rfl, rfl⟩) ?_
    intro j hj r hr
    have hru : r ∈ u.recs := Tree.recs_subset (Tree.kid_mem_subtrees hj) hr
    have hrt : r ∉ t.recs := fun h => hdisj _ h _ hru rfl
    refine SamePlace.of_eq (hother r ?_ ?_ (hlast_ne r (Or.inl hrt)))
    · rintro rfl
      exact hrt t.root_mem_recs
    · rintro rfl
      exact Tree.root_notMem_kids (List.nodup_append.mp hn).2.1 (List.mem_flatMap.mpr ⟨j, hj, hr⟩)
  refine holds_mk.mpr ⟨⟨?_, ?_, ?_, ?_, ?_, ?_⟩, ?_⟩
  · exact hsize ▸ ht.fits.lt
  · rw [Tree.root_mk, Tree.op_mk, hnode, ← ht.fits.op]
    cases hk : t.kids <;> rfl
  · rw [Tree.op_mk]
    split <;> exact ht.fits.live
  · rw [Tree.root_mk, Tree.kids_mk, hnode]
    cases hk : t.kids with
    | nil => rfl
    | cons k ks =>
      have := ht.fits.first
      simp_all
  · intro htrack
    have hclass : (a.node t.root).opClass = t.op.opClass := by
      rw [← Node.opClass_plain, ht.fits.op]
    rw [← Tree.opClass_snoc t u] at hclass
    have hlk : l = some u.root := hl (hclass ▸ htrack)
    rw [Tree.root_mk, Tree.kids_mk, hnode, hlk]
    split <;> simp
  · rw [Tree.root_mk, Tree.kids_mk, List.map_append]
    refine ht.fits.sibs.snoc ?_ ?_ (by rw [hnode_kid]) (nodup_roots (Tree.nodup_kids htn))
    · intro r hr hne
      obtain ⟨k, hk, rfl⟩ := List.mem_map.mp hr
      rw [hother k.root (hroots k hk) (hdisj _ (hkid k hk) _ u.root_mem_recs)]
      simpa using hne
    · intro r hr
      rw [List.getLast?_map] at hr
      obtain ⟨k, hk, rfl⟩ := Option.map_eq_some_iff.mp hr
      rw [hnode_last k hk]
      rfl
  · intro k hk
    rcases List.mem_append.mp hk with hk | hk
    · exact hkids k hk
    · obtain rfl := List.mem_singleton.mp hk
      exact hu'

/-- An edit that changes only what the op is, and not the kind of links it keeps. -/
structure DataEdit (f : Node → Node) : Prop where
  plain : ∀ n, (f n).plain = (f n.plain).plain
  first : ∀ n, (f n).first = n.first
  last : ∀ n, (f n).last = n.last
  sib : ∀ n, (f n).sib = n.sib
  next : ∀ n, (f n).next = n.next
  other : ∀ n, (f n).other = n.other
  live : ∀ n, n.code ≠ .freed → (f n).code ≠ .freed
  tracks : ∀ n, (f n).opClass.tracksLast = n.opClass.tracksLast

theorem Holds.mapOps {g : RecId → Node → Node} {t : Tree} (h : a.Holds t)
    (hsize : a.recs.size ≤ b.recs.size)
    (hop : ∀ u ∈ t.subtrees, (b.node u.root).plain = g u.root u.op ∧ (g u.root u.op).code ≠ .freed ∧
      (g u.root u.op).opClass.tracksLast = u.op.opClass.tracksLast)
    (hlinks : ∀ r ∈ t.recs, (b.node r).first = (a.node r).first ∧ (b.node r).last = (a.node r).last)
    (hsibs : ∀ u ∈ t.subtrees, ∀ k ∈ u.kids, (b.node k.root).sib = (a.node k.root).sib) :
    b.Holds (t.mapOps g) := by
  intro v hv
  rw [Tree.subtrees_mapOps] at hv
  obtain ⟨u, hu, rfl⟩ := List.mem_map.mp hv
  have hfit := h u hu
  have hur : u.root ∈ t.recs := List.mem_map.mpr ⟨u, hu, rfl⟩
  have hroots : Tree.root ∘ Tree.mapOps g = Tree.root := by
    funext k
    simp
  refine ⟨?_, ?_, ?_, ?_, ?_, ?_⟩
  · simpa using Nat.lt_of_lt_of_le hfit.lt hsize
  · rw [Tree.root_mapOps, Tree.op_mapOps, (hop u hu).1]
  · rw [Tree.op_mapOps]
    exact (hop u hu).2.1
  · rw [Tree.root_mapOps, Tree.kids_mapOps, List.head?_map, Option.map_map, hroots,
      (hlinks _ hur).1, hfit.first]
  · rw [Tree.root_mapOps, Tree.kids_mapOps, Tree.op_mapOps, List.getLast?_map, Option.map_map, hroots,
      (hlinks _ hur).2, (hop u hu).2.2]
    exact hfit.last
  · rw [Tree.root_mapOps, Tree.kids_mapOps, Tree.map_root_mapOps]
    refine hfit.sibs.congr fun r hr => ?_
    obtain ⟨k, hk, rfl⟩ := List.mem_map.mp hr
    exact hsibs u hu k hk

theorem DataEdit.holds {f : Node → Node} (hf : DataEdit f) {t : Tree} (h : a.Holds t) (r : RecId) :
    (a.update r f).Holds (t.modify r fun n => (f n).plain) := by
  have hnode : ∀ q < a.recs.size,
      (a.update r f).node q = if q = r then f (a.node q) else a.node q := by
    intro q hq
    split
    · subst r
      exact node_update_self hq f
    · exact node_update_of_ne ‹_› f
  refine h.mapOps (Nat.le_of_eq (size_update a r f).symm) (fun u hu => ?_) (fun q hq => ?_)
    fun u hu k hk => ?_
  · have hfit := h u hu
    rw [hnode _ hfit.lt]
    split
    · exact ⟨by rw [hf.plain, hfit.op], hf.live _ hfit.live, hf.tracks _⟩
    · exact ⟨hfit.op, hfit.live, rfl⟩
  · rw [hnode q (h.lt hq)]
    split
    · exact ⟨hf.first _, hf.last _⟩
    · exact ⟨rfl, rfl⟩
  · rw [hnode _ ((h.subtree hu).kid hk).fits.lt]
    split
    · exact hf.sib _
    · rfl

theorem DataEdit.regrown {f : Node → Node} (hf : DataEdit f) {r : RecId} {s : List RecId}
    (hr : r ∈ s) : Regrown a (a.update r f) s := Regrown.of_update hr hf.next hf.other

end Arena

end OpTree
