import OpTree.Proofs.Tree

/-!
# Trees in an arena

When an arena holds a tree: the links of its records spell out the kids. A forest is what stands in
an arena while trees are built: trees that share no record, none of them under a parent, beside a
free list whose records belong to no tree.
-/

namespace OpTree

set_option autoImplicit false

namespace Arena

variable {a a' : Arena}

@[simp] theorem size_update (a : Arena) (r : RecId) (f : Node → Node) :
    (a.update r f).recs.size = a.recs.size := by simp [update]

theorem node_update_self {r : RecId} (h : r < a.recs.size) (f : Node → Node) :
    (a.update r f).node r = f (a.node r) := by
  simp only [update, node, Array.getD_eq_getD_getElem?, Array.getElem?_modify]
  simp [h]

theorem node_update_of_ne {r s : RecId} (h : s ≠ r) (f : Node → Node) :
    (a.update r f).node s = a.node s := by
  simp [update, node, Array.getD_eq_getD_getElem?, Array.getElem?_modify, Ne.symm h]

theorem node_of_le {r : RecId} (h : a.recs.size ≤ r) : a.node r = default := by
  simp [node, Array.getD, Nat.not_lt.mpr h]

theorem node_update_cases {r : RecId} {f : Node → Node} (q : RecId) :
    (a.update r f).node q = a.node q ∨ q = r ∧ (a.update r f).node q = f (a.node q) := by
  by_cases hq : q = r
  · subst hq
    by_cases hlt : q < a.recs.size
    · exact Or.inr ⟨rfl, node_update_self hlt f⟩
    · refine Or.inl ?_
      rw [node_of_le (by simpa using hlt), node_of_le (by simpa using hlt)]
  · exact Or.inl (node_update_of_ne hq f)

theorem update_congr {r : RecId} {f g : Node → Node} (h : f (a.node r) = g (a.node r)) :
    a.update r f = a.update r g := by
  have hrecs : a.recs.modify r f = a.recs.modify r g := by
    ext i hi hi'
    · simp
    · simp only [Array.getElem_modify]
      split
      · rename_i he
        subst he
        have hr : r < a.recs.size := by simpa using hi
        simpa [node, Array.getD, hr] using h
      · rfl
  simp only [update, hrecs]

theorem update_id (a : Arena) (r : RecId) : a.update r (fun n => n) = a := by
  have hrecs : a.recs.modify r (fun n => n) = a.recs := by
    ext i hi hi'
    · simp
    · simp [Array.getElem_modify]
  simp only [update, hrecs]

theorem update_update (r : RecId) (f g : Node → Node) : (a.update r f).update r g = a.update r (g ∘ f) := by
  have hrecs : (a.recs.modify r f).modify r g = a.recs.modify r (g ∘ f) := by
    ext i hi hi'
    · simp
    · simp only [Array.getElem_modify]
      split <;> rfl
  simp only [update, hrecs]

/-- The links of the kids of `p`: each leads to the next one, the last one to `p`. -/
def SibChain (a : Arena) (p : RecId) : List RecId → Prop
  | [] => True
  | [k] => (a.node k).sib = .up p
  | k :: l :: ks => (a.node k).sib = ⟨some l, true⟩ ∧ SibChain a p (l :: ks)

/-- The record at the root of a tree has the tree's op and kids. -/
structure Fits (a : Arena) (t : Tree) : Prop where
  lt : t.root < a.recs.size
  op : (a.node t.root).plain = t.op
  live : t.op.code ≠ .freed
  first : (a.node t.root).first = t.kids.head?.map Tree.root
  last : t.op.opClass.tracksLast = true → (a.node t.root).last = t.kids.getLast?.map Tree.root
  sibs : a.SibChain t.root (t.kids.map Tree.root)

/-- The arena holds a tree. -/
def Holds (a : Arena) (t : Tree) : Prop := ∀ u ∈ t.subtrees, a.Fits u

theorem SibChain.congr {p : RecId} {ks : List RecId} (h : ∀ k ∈ ks, (a'.node k).sib = (a.node k).sib)
    (hs : a.SibChain p ks) : a'.SibChain p ks := by
  induction ks with
  | nil => trivial
  | cons k ks ih =>
    have hk := h k (List.mem_cons_self ..)
    have hrest := fun j hj => h j (List.mem_cons_of_mem k hj)
    cases ks with
    | nil => exact hk.trans hs
    | cons l ks => exact ⟨hk.trans hs.1, ih hrest hs.2⟩

theorem holds_mk {r : RecId} {n : Node} {ks : List Tree} :
    a.Holds (.mk r n ks) ↔ a.Fits (.mk r n ks) ∧ ∀ k ∈ ks, a.Holds k := by
  constructor
  · intro h
    refine ⟨h _ (Tree.self_mem_subtrees _), fun k hk u hu => h u ?_⟩
    exact Tree.mem_subtrees_mk.mpr (Or.inr ⟨k, hk, hu⟩)
  · rintro ⟨hr, hk⟩ u hu
    rcases Tree.mem_subtrees_mk.mp hu with rfl | ⟨k, hmem, hu⟩
    · exact hr
    · exact hk k hmem u hu

theorem Holds.fits {t : Tree} (h : a.Holds t) : a.Fits t := h t (Tree.self_mem_subtrees t)

theorem Holds.kid {t k : Tree} (h : a.Holds t) (hk : k ∈ t.kids) : a.Holds k :=
  fun _ hu => h _ (Tree.subtrees_trans (Tree.kid_mem_subtrees hk) hu)

theorem Holds.subtree {t u : Tree} (h : a.Holds t) (hu : u ∈ t.subtrees) : a.Holds u :=
  fun _ hv => h _ (Tree.subtrees_trans hu hv)

theorem Holds.lt {t : Tree} (h : a.Holds t) {r : RecId} (hr : r ∈ t.recs) : r < a.recs.size := by
  obtain ⟨u, hu, rfl⟩ := List.mem_map.mp hr
  exact (h u hu).lt

theorem Holds.live {t : Tree} (h : a.Holds t) {r : RecId} (hr : r ∈ t.recs) :
    (a.node r).code ≠ .freed := by
  obtain ⟨u, hu, rfl⟩ := List.mem_map.mp hr
  have hcode : u.op.code = (a.node u.root).code := by rw [← (h u hu).op, Node.plain_code]
  exact hcode ▸ (h u hu).live

def SamePlace (a a' : Arena) (r : RecId) : Prop :=
  (a'.node r).plain = (a.node r).plain ∧ (a'.node r).first = (a.node r).first ∧
    (a'.node r).last = (a.node r).last ∧ (a'.node r).sib = (a.node r).sib

theorem SamePlace.of_eq {r : RecId} (h : a'.node r = a.node r) : SamePlace a a' r := by
  simp [SamePlace, h]

theorem Fits.congr {t : Tree} (h : a.Fits t) (hsize : a.recs.size ≤ a'.recs.size)
    (hplace : (a'.node t.root).plain = (a.node t.root).plain ∧
      (a'.node t.root).first = (a.node t.root).first ∧ (a'.node t.root).last = (a.node t.root).last)
    (hkids : ∀ k ∈ t.kids, (a'.node k.root).sib = (a.node k.root).sib) : a'.Fits t where
  lt := Nat.lt_of_lt_of_le h.lt hsize
  op := hplace.1.trans h.op
  live := h.live
  first := hplace.2.1.trans h.first
  last ht := hplace.2.2.trans (h.last ht)
  sibs := by
    refine h.sibs.congr fun k hk => ?_
    obtain ⟨u, hu, rfl⟩ := List.mem_map.mp hk
    exact hkids u hu

theorem Holds.congr {t : Tree} (h : a.Holds t) (hsize : a.recs.size ≤ a'.recs.size)
    (hroot : (a'.node t.root).plain = (a.node t.root).plain ∧
      (a'.node t.root).first = (a.node t.root).first ∧ (a'.node t.root).last = (a.node t.root).last)
    (hrecs : ∀ k ∈ t.kids, ∀ r ∈ k.recs, SamePlace a a' r) : a'.Holds t := by
  cases t with
  | mk r n ks =>
    intro u hu
    rcases Tree.mem_subtrees_mk.mp hu with rfl | ⟨k, hk, hu⟩
    · refine h.fits.congr hsize hroot fun k hk => ?_
      exact (hrecs k hk _ k.root_mem_recs).2.2.2
    · have hin : ∀ v ∈ k.subtrees, SamePlace a a' v.root := fun v hv =>
        hrecs k hk _ (List.mem_map.mpr ⟨v, hv, rfl⟩)
      have hplace := hin u hu
      refine ((h.kid hk) u hu).congr hsize ⟨hplace.1, hplace.2.1, hplace.2.2.1⟩ fun j hj => ?_
      exact (hin j (Tree.subtrees_trans hu (Tree.kid_mem_subtrees hj))).2.2.2

theorem Holds.of_samePlace {t : Tree} (h : a.Holds t) (hsize : a.recs.size ≤ a'.recs.size)
    (hrecs : ∀ r ∈ t.recs, SamePlace a a' r) : a'.Holds t := by
  have hroot := hrecs _ t.root_mem_recs
  refine h.congr hsize ⟨hroot.1, hroot.2.1, hroot.2.2.1⟩ fun k hk r hr => hrecs r ?_
  exact Tree.recs_subset (Tree.kid_mem_subtrees hk) hr

theorem length_le_size {rs : List RecId} (h : ∀ r ∈ rs, r < a.recs.size) (hn : rs.Nodup) :
    rs.length ≤ a.recs.size := by
  have hsub : rs ⊆ List.range a.recs.size := fun r hr => List.mem_range.mpr (h r hr)
  simpa using (List.subperm_of_subset hn hsub).length_le

theorem Holds.length_recs_le {t : Tree} (h : a.Holds t) (hn : t.recs.Nodup) :
    t.recs.length ≤ a.recs.size := length_le_size (fun _ hr => h.lt hr) hn

theorem length_map_root_le (ks : List Tree) : ks.length ≤ (ks.flatMap Tree.recs).length := by
  induction ks with
  | nil => simp
  | cons k ks ih =>
    have := List.length_pos_of_mem k.root_mem_recs
    simp only [List.length_cons, List.flatMap_cons, List.length_append]
    omega

theorem siblingsFrom_eq {p : RecId} {ks : List RecId} {fuel : Nat} (h : a.SibChain p ks)
    (hf : ks.length ≤ fuel) : a.siblingsFrom fuel ks.head? = ks := by
  induction ks generalizing fuel with
  | nil => cases fuel <;> rfl
  | cons k ks ih =>
    cases fuel with
    | zero => simp at hf
    | succ fuel =>
      simp only [List.length_cons, Nat.add_le_add_iff_right] at hf
      cases ks with
      | nil =>
        have hsib : (a.node k).sibling? = none := by
          have : (a.node k).sib = .up p := h
          simp [Node.sibling?, this, Sib.sibling?, Sib.up]
        simp only [List.head?_cons, siblingsFrom, hsib]
      | cons l ks =>
        have hsib : (a.node k).sibling? = some l := by
          simp [Node.sibling?, h.1, Sib.sibling?]
        simp only [List.head?_cons, siblingsFrom, hsib]
        exact congrArg (k :: ·) (ih h.2 hf)

theorem siblingsFrom_congr {fuel : Nat} {k? : Option RecId}
    (h : ∀ r ∈ a.siblingsFrom fuel k?, (a'.node r).sibling? = (a.node r).sibling?) :
    a'.siblingsFrom fuel k? = a.siblingsFrom fuel k? := by
  induction fuel generalizing k? with
  | zero => cases k? <;> rfl
  | succ fuel ih =>
    cases k? with
    | none => rfl
    | some k =>
      have hk := h k (List.mem_cons_self ..)
      rw [siblingsFrom, siblingsFrom, hk]
      exact congrArg (k :: ·) (ih fun r hr => h r (List.mem_cons_of_mem k hr))

theorem Holds.kids_eq {t : Tree} (h : a.Holds t) (hn : t.recs.Nodup) :
    a.kids t.root = t.kids.map Tree.root := by
  have hlen : (t.kids.map Tree.root).length ≤ a.bound := by
    have h1 := h.length_recs_le hn
    have h2 := length_map_root_le t.kids
    cases t
    simp only [Tree.kids_mk, Tree.recs_mk, List.length_cons, List.length_map] at *
    simp only [bound]
    omega
  rw [kids, h.fits.first, ← List.head?_map]
  exact siblingsFrom_eq h.fits.sibs hlen

def treeFrom (a : Arena) : Nat → RecId → Tree
  | 0, r => .mk r (a.node r).plain []
  | fuel + 1, r => .mk r (a.node r).plain ((a.kids r).map (a.treeFrom fuel))

/-- The tree at a record. -/
def tree (a : Arena) (r : RecId) : Tree := a.treeFrom a.bound r

theorem Holds.treeFrom_eq {t : Tree} {fuel : Nat} (h : a.Holds t) (hn : t.recs.Nodup)
    (hf : t.height ≤ fuel) : a.treeFrom fuel t.root = t := by
  induction t using Tree.induct generalizing fuel with
  | h r o ks ih =>
    have hop : (a.node r).plain = o := h.fits.op
    have hkids : a.kids r = ks.map Tree.root := h.kids_eq hn
    cases fuel with
    | zero => exact absurd hf (by simp [Tree.height])
    | succ fuel =>
      simp only [Tree.height, Nat.add_le_add_iff_right] at hf
      rw [Tree.root_mk, treeFrom, hop, hkids, List.map_map]
      congr 1
      refine (List.map_congr_left fun k hk => ?_).trans (List.map_id ks)
      exact ih k hk (h.kid hk) (Tree.nodup_of_mem (Tree.nodup_kids hn) hk)
        (Nat.le_trans (Tree.height_le_heightAll hk) hf)

theorem Holds.tree_eq {t : Tree} (h : a.Holds t) (hn : t.recs.Nodup) : a.tree t.root = t := by
  refine h.treeFrom_eq hn ?_
  have h1 := t.height_le_length_recs
  have h2 := h.length_recs_le hn
  simp only [bound]
  omega

end Arena

end OpTree
