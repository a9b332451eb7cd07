import OpTree.Proofs.Grafting
import OpTree.Proofs.Fusion

/-!
# Cutting off kids

An op loses its first kids or all of them. The tree without them is well formed, and the kids
stand beside it.
-/

namespace OpTree

set_option autoImplicit false

namespace Arena

open OpTree.Tree

variable {a b : Arena} {t u : Tree}

theorem SibChain.of_append {p : RecId} {ks ls : List RecId} (h : a.SibChain p (ks ++ ls)) :
    a.SibChain p ls := by
  induction ks with
  | nil => exact h
  | cons k ks ih =>
    refine ih ?_
    cases hks : ks ++ ls with
    | nil => trivial
    | cons j js =>
      rw [List.cons_append, hks] at h
      exact h.2

theorem Holds.parent?_eq {k : Tree} (h : a.Holds u) (hn : u.recs.Nodup) (hk : k ∈ u.kids) :
    a.parent? k.root = some u.root := by
  obtain ⟨pre, post, hsplit⟩ := List.append_of_mem hk
  have hchain := h.fits.sibs
  rw [hsplit, List.map_append] at hchain
  replace hchain : a.SibChain u.root ((k :: post).map Tree.root) := hchain.of_append
  have hlen : ((k :: post).map Tree.root).length ≤ a.bound := by
    have hle := length_map_root_le u.kids
    have hsub := h.length_recs_le hn
    rw [← Tree.mk_root_op_kids u, recs_mk, List.length_cons] at hsub
    rw [hsplit, List.length_append] at hle
    rw [List.length_map, bound]
    rw [hsplit] at hsub
    omega
  have hsibs : a.siblingsFrom a.bound (some k.root) = (k :: post).map Tree.root :=
    siblingsFrom_eq hchain hlen
  obtain ⟨l, hl⟩ : ∃ l, ((k :: post).map Tree.root).getLast? = some l :=
    Option.isSome_iff_exists.mp (by simp [List.getLast?_isSome])
  rw [parent?, lastSibling, hsibs, List.getLastD_eq_getLast?, hl, Option.getD_some,
    hchain.getLast hl]
  rfl

theorem exists_parent {r : RecId} (hr : r ∈ t.recs) :
    r = t.root ∨ ∃ u ∈ t.subtrees, ∃ k ∈ u.kids, k.root = r := by
  induction t using induct with
  | h q o ks ih =>
    rw [recs_mk, List.mem_cons, List.mem_flatMap] at hr
    rcases hr with rfl | ⟨k, hk, hr⟩
    · exact Or.inl rfl
    · refine Or.inr ?_
      rcases ih k hk hr with rfl | ⟨u, hu, j, hj, rfl⟩
      · exact ⟨_, self_mem_subtrees _, k, hk, rfl⟩
      · exact ⟨u, subtrees_trans (kid_mem_subtrees hk) hu, j, hj, rfl⟩

theorem Forest.parent_mem {r p : RecId} (hf : a.Forest [t]) (hr : r ∈ t.recs) (hp : a.parent? r = some p) :
    ∃ u ∈ t.subtrees, u.root = p ∧ ∃ k ∈ u.kids, k.root = r := by
  have hh : a.Holds t := hf.holds t (by simp)
  have hn : t.recs.Nodup := by simpa using hf.nodup
  rcases exists_parent hr with rfl | ⟨u, hu, k, hk, rfl⟩
  · have hloose := hf.loose t (by simp)
    rw [parent?, lastSibling_of_last (by rw [hloose]), hloose] at hp
    cases hp
  · rw [(hh.subtree hu).parent?_eq (nodup_subtree hn hu) hk] at hp
    exact ⟨u, hu, Option.some.inj hp, k, hk, rfl⟩

theorem Forest.firstKid {k p : RecId} (hf : a.Forest [t]) (hk : k ∈ t.recs) (h : Peep.FirstKid a k p) :
    ∃ u ∈ t.subtrees, u.root = p ∧ ∃ j js, u.kids = j :: js ∧ j.root = k := by
  obtain ⟨u, hu, rfl, -⟩ := hf.parent_mem hk h.parent
  have hfits := ((hf.holds t (by simp)).subtree hu).fits
  obtain ⟨j, js, hkids, hj⟩ := Build.kids_of_first (hfits.first ▸ h.first)
  exact ⟨u, hu, rfl, j, js, hkids, hj⟩

theorem Forest.stem {s p : RecId} {w : Tree} (hf : a.Forest [t]) (hw : w ∈ t.subtrees) (hs : w.root = s)
    (h : Peep.Stem a s p) : ∃ u ∈ t.subtrees, u.root = p ∧ w ∈ u.subtrees ∧ u.start = w.start := by
  have hn : t.recs.Nodup := by simpa using hf.nodup
  induction h with
  | refl => exact ⟨w, hw, hs, self_mem_subtrees w, rfl⟩
  | up _ hk ih =>
    obtain ⟨x, hx, rfl, hwx, hstart⟩ := ih
    obtain ⟨u, hu, rfl, j, js, hkids, hj⟩ := hf.firstKid (recs_subset hx x.root_mem_recs) hk
    have hju : j ∈ u.subtrees := kid_mem_subtrees (by rw [hkids]; exact List.mem_cons_self ..)
    obtain rfl := eq_of_root_eq hn (subtrees_trans hu hju) hx hj
    refine ⟨u, hu, rfl, subtrees_trans hju hwx, ?_⟩
    rw [← hstart, ← Tree.mk_root_op_kids u, hkids]
    rfl

def withFirst (rest : Option RecId) (n : Node) : Node :=
  { n with first := rest,
           flags := if rest.isSome then n.flags ||| Flags.kids else n.flags &&& ~~~Flags.kids }

theorem withFirst_none : withFirst none = fun n => { n with first := none, flags := n.flags &&& ~~~Flags.kids } :=
  rfl

theorem withFirst_some (r : RecId) :
    withFirst (some r) = fun n => { n with first := some r, flags := n.flags ||| Flags.kids } := rfl

/-- The arena after the kids of `p` up to `l?` have been cut off. -/
def cut (a : Arena) (p : RecId) (l? rest : Option RecId) : Arena :=
  let a := match l? with
    | some l => a.update l fun n => { n with sib := {} }
    | none => a
  if rest.isNone && ((a.update p (withFirst rest)).node p).opClass.tracksLast then
    (a.update p (withFirst rest)).update p fun n => { n with last := none }
  else a.update p (withFirst rest)

theorem splice_front {p f : RecId} {del : Int} (hf : (a.node p).first = some f) (hd : del = -1 ∨ 0 < del) :
    TreeM.splice (some p) none del none a =
      .ok (some f) (a.cut p (some (TreeM.lastDeleted a a.bound (del - 1) f))
        (a.node (TreeM.lastDeleted a a.bound (del - 1) f)).sibling?) := by
  have hlow : ¬ del < -1 := by omega
  have hne : del ≠ 0 := by omega
  generalize hl : TreeM.lastDeleted a a.bound (del - 1) f = l
  generalize hr : (a.node l).sibling? = rest
  simp only [TreeM.splice, if_neg hlow, TreeM.bind_apply, TreeM.node_apply, TreeM.pure_apply, hf, hne,
    ne_eq, not_false_eq_true, if_true, TreeM.get_apply, hl, hr, TreeM.update_apply, TreeM.need_some]
  cases rest with
  | some r => simp [cut, withFirst_some]
  | none =>
    simp only [cut, withFirst_none, Option.isNone_none, if_true, Option.isSome_none, Bool.true_and, Bool.false_eq_true,
      if_false, TreeM.bind_apply, TreeM.node_apply, TreeM.ite_apply]
    split <;> rfl

theorem splice_none {p : RecId} (hf : (a.node p).first = none) :
    TreeM.splice (some p) none (-1) none a = .ok none (a.cut p none none) := by
  simp only [TreeM.splice, TreeM.bind_apply, TreeM.node_apply, TreeM.pure_apply, hf,
    TreeM.update_apply, TreeM.need_some, cut, withFirst_none, Option.isNone_none, if_true, Option.isSome_none,
    Bool.true_and, Bool.false_eq_true, if_false, TreeM.ite_apply, Int.lt_irrefl]
  split <;> rfl

section Cut

variable {p : RecId} {l? rest : Option RecId}

theorem cut_local {s : List RecId} (hp : p ∈ s) (hl : ∀ l, l? = some l → l ∈ s) :
    Local a (a.cut p l? rest) s := by
  have hstep : ∀ {b : Arena} (f : Node → Node), Local a b s → Local a (b.update p f) s := fun f h =>
    h.trans (Local.of_update hp) (fun _ h => h) fun _ h => h
  unfold cut
  cases l? with
  | none =>
    dsimp only
    split
    · exact hstep _ (hstep _ (Local.refl a s))
    · exact hstep _ (Local.refl a s)
  | some l =>
    have hfirst : Local a (a.update l fun n => { n with sib := {} }) s := Local.of_update (hl l rfl)
    dsimp only
    split
    · exact hstep _ (hstep _ hfirst)
    · exact hstep _ hfirst

theorem cut_node_last {l : RecId} (hp : l ≠ p) (hl : l < a.recs.size) :
    (a.cut p (some l) rest).node l = { a.node l with sib := {} } := by
  unfold cut
  dsimp only
  split <;> simp only [node_update_of_ne hp, node_update_self hl]

theorem cut_node_parent (hp : p < a.recs.size) (hl : l? ≠ some p) :
    ∃ fl la, (a.cut p l? rest).node p = { a.node p with first := rest, flags := fl, last := la } ∧
      (rest ≠ none → la = (a.node p).last) ∧
      (rest = none → (a.node p).opClass.tracksLast = true → la = none) := by
  obtain ⟨b, hb, hs, hcut⟩ : ∃ b : Arena, b.node p = a.node p ∧ b.recs.size = a.recs.size ∧
      a.cut p l? rest = if rest.isNone && ((b.update p (withFirst rest)).node p).opClass.tracksLast then
        (b.update p (withFirst rest)).update p fun n => { n with last := none }
      else b.update p (withFirst rest) := by
    cases l? with
    | none => exact ⟨a, rfl, rfl, rfl⟩
    | some l => exact ⟨_, node_update_of_ne (fun h : p = l => hl (h ▸ rfl)) _, size_update a l _, rfl⟩
  have hnode : (b.update p (withFirst rest)).node p = withFirst rest (a.node p) := by
    rw [node_update_self (hs ▸ hp), hb]
  rw [hcut, hnode]
  split
  · rename_i hc
    rw [Bool.and_eq_true, Option.isNone_iff_eq_none] at hc
    refine ⟨(withFirst rest (a.node p)).flags, none, ?_, fun h => absurd hc.1 h, fun _ _ => rfl⟩
    rw [node_update_self (by simpa [hs] using hp), hnode]
    rfl
  · rename_i hc
    rw [Bool.and_eq_true, Option.isNone_iff_eq_none] at hc
    exact ⟨_, (a.node p).last, hnode, fun _ => rfl, fun hr ht => hc ⟨hr, ht⟩ |>.elim⟩

end Cut

theorem lastDeleted_one (fuel : Nat) (f : RecId) : TreeM.lastDeleted a fuel (1 - 1) f = f := by
  cases fuel <;> rfl

theorem lastDeleted_all {p k : RecId} {ks : List RecId} {fuel : Nat} {del : Int} (h : a.SibChain p (k :: ks))
    (hf : (k :: ks).length ≤ fuel) (hd : del < 0) :
    (k :: ks).getLast? = some (TreeM.lastDeleted a fuel del k) := by
  induction ks generalizing k fuel del with
  | nil =>
    obtain ⟨fuel, rfl⟩ : ∃ n, fuel = n + 1 := ⟨fuel - 1, by rw [List.length_singleton] at hf; omega⟩
    have hsib : (a.node k).sibling? = none := by rw [Node.sibling?, h]; rfl
    rw [TreeM.lastDeleted, if_neg (by omega), hsib]
    rfl
  | cons j ks ih =>
    rw [List.length_cons] at hf
    obtain ⟨fuel, rfl⟩ : ∃ n, fuel = n + 1 := ⟨fuel - 1, by omega⟩
    have hsib : (a.node k).sibling? = some j := by rw [Node.sibling?, h.1]; rfl
    rw [TreeM.lastDeleted, if_neg (by omega), hsib, List.getLast?_cons_cons]
    exact ih h.2 (by omega) (by omega)

/-- The op is the same up to the list of its kids. -/
structure Trimmed (n n' : Node) : Prop where
  code : n'.code = n.code
  ex : n'.ex = n.ex
  sib : n'.sib = n.sib
  next : n'.next = n.next
  other : n'.other = n.other
  processed : n'.processed = n.processed
  id : n'.id = n.id

theorem Trimmed.refl (n : Node) : Trimmed n n := ⟨rfl, rfl, rfl, rfl, rfl, rfl, rfl⟩

theorem Trimmed.trans {n n' n'' : Node} (h : Trimmed n n') (h' : Trimmed n' n'') : Trimmed n n'' :=
  ⟨h'.code.trans h.code, h'.ex.trans h.ex, h'.sib.trans h.sib, h'.next.trans h.next,
    h'.other.trans h.other, h'.processed.trans h.processed, h'.id.trans h.id⟩

structure Beheaded (a b : Arena) (x k : Tree) (ks : List Tree) : Prop where
  local_ : Local a b [x.root, k.root]
  root : Trimmed (a.node x.root) (b.node x.root)
  kid : b.node k.root = { a.node k.root with sib := {} }
  holds : b.Holds (.mk x.root (b.node x.root).plain ks)
  holds_kid : b.Holds k

theorem Holds.behead {x k : Tree} {ks : List Tree} (h : a.Holds x) (hn : x.recs.Nodup)
    (hx : x.kids = k :: ks) :
    ∃ b, TreeM.splice (some x.root) none 1 none a = .ok (some k.root) b ∧ Beheaded a b x k ks := by
  have hp : x.root < a.recs.size := h.fits.lt
  have hk : a.Holds k := h.kid (by rw [hx]; exact List.mem_cons_self ..)
  have hfirst : (a.node x.root).first = some k.root := by rw [h.fits.first, hx]; rfl
  have hroots := root_notMem_kids hn
  have hkids := nodup_kids hn
  rw [hx, List.flatMap_cons] at hroots hkids
  obtain ⟨hpk, hpks⟩ := not_or.mp (mt List.mem_append.mpr hroots)
  obtain ⟨hkn, -, hdisj⟩ := List.nodup_append.mp hkids
  have hkp : k.root ≠ x.root := fun h => hpk (h ▸ k.root_mem_recs)
  have hsibs := h.fits.sibs
  rw [hx, List.map_cons] at hsibs
  have hrest : (a.node k.root).sibling? = ks.head?.map Tree.root := by
    rw [Node.sibling?]
    cases ks with
    | nil =>
      rw [show (a.node k.root).sib = .up x.root from hsibs]
      rfl
    | cons j ks =>
      rw [hsibs.1]
      rfl
  refine ⟨_, splice_front hfirst (by decide), ?_⟩
  rw [lastDeleted_one, hrest]
  have hloc : Local a (a.cut x.root (some k.root) (ks.head?.map Tree.root)) [x.root, k.root] :=
    cut_local (by simp) (by simp)
  obtain ⟨fl, la, hnode, hla, hla'⟩ := @cut_node_parent a _ (some k.root)
    (ks.head?.map Tree.root) hp fun h => hkp (Option.some.inj h)
  have hkid := @cut_node_last a _ (ks.head?.map Tree.root) _ hkp hk.fits.lt
  generalize a.cut x.root (some k.root) (ks.head?.map Tree.root) = b at hloc hnode hkid ⊢
  have hother : ∀ j ∈ ks, ∀ r ∈ j.recs, b.node r = a.node r := by
    intro j hj r hr
    have hr' : r ∈ ks.flatMap Tree.recs := List.mem_flatMap.mpr ⟨j, hj, hr⟩
    refine hloc.outside r fun hm => ?_
    rcases List.mem_pair.mp hm with rfl | rfl
    · exact hpks hr'
    · exact hdisj _ k.root_mem_recs _ hr' rfl
  have hsize := Nat.le_of_eq hloc.size.symm
  refine ⟨hloc, ?_, hkid, holds_mk.mpr ⟨⟨?_, rfl, ?_, ?_, ?_, ?_⟩, fun j hj => ?_⟩, ?_⟩
  · rw [hnode]
    exact ⟨rfl, rfl, rfl, rfl, rfl, rfl, rfl⟩
  · exact Nat.lt_of_lt_of_le hp hsize
  · have hlive := h.fits.live
    rw [← h.fits.op] at hlive
    rw [op_mk, Node.plain_code, hnode]
    exact hlive
  · rw [root_mk, hnode, kids_mk]
  · intro ht
    rw [op_mk, Node.opClass_plain, hnode] at ht
    rw [root_mk, hnode, kids_mk]
    cases ks with
    | nil => exact hla' rfl ht
    | cons j ks =>
      have hlast := h.fits.last (by rw [← h.fits.op, Node.opClass_plain]; exact ht)
      rw [hx, List.getLast?_cons_cons] at hlast
      exact (hla (by simp)).trans hlast
  · have hs : a.SibChain x.root (ks.map Tree.root) := @SibChain.of_append a x.root [k.root] _ hsibs
    refine hs.congr fun r hr => ?_
    obtain ⟨j, hj, rfl⟩ := List.mem_map.mp hr
    rw [hother j hj _ j.root_mem_recs]
  · have hj' : a.Holds j := h.kid (by rw [hx]; exact List.mem_cons_of_mem _ hj)
    exact hj'.of_samePlace hsize fun r hr => SamePlace.of_eq (hother j hj r hr)
  · refine hk.congr hsize ?_ fun j hj r hr => SamePlace.of_eq (hloc.outside r fun hm => ?_)
    · rw [hkid]
      exact ⟨rfl, rfl, rfl⟩
    · have hrk : r ∈ k.kids.flatMap Tree.recs := List.mem_flatMap.mpr ⟨j, hj, hr⟩
      rcases List.mem_pair.mp hm with rfl | rfl
      · exact hpk (k.kids_recs_subset hrk)
      · exact root_notMem_kids hkn hrk

theorem Holds.lastDeleted {k : Tree} {ks : List Tree} (h : a.Holds u) (hn : u.recs.Nodup)
    (hk : u.kids = k :: ks) :
    ∃ j ∈ u.kids, j.root = TreeM.lastDeleted a a.bound (-1 - 1) k.root ∧ (a.node j.root).sib = .up u.root := by
  have hsibs := h.fits.sibs
  have hlen : (u.kids.map Tree.root).length ≤ a.bound := by
    have h1 := h.length_recs_le hn
    have h2 := length_map_root_le u.kids
    rw [← Tree.mk_root_op_kids u, recs_mk, List.length_cons] at h1
    rw [List.length_map, bound]
    omega
  have hlast : (u.kids.map Tree.root).getLast? = some (TreeM.lastDeleted a a.bound (-1 - 1) k.root) := by
    rw [hk, List.map_cons] at hlen hsibs ⊢
    exact lastDeleted_all hsibs hlen (by decide)
  obtain ⟨j, hj, hroot⟩ := List.mem_map.mp (List.mem_of_getLast? hlast)
  exact ⟨j, hj, hroot, hroot ▸ hsibs.getLast hlast⟩

structure Stripped (a b : Arena) (u : Tree) : Prop where
  local_ : Local a b (u.root :: u.kids.map Tree.root)
  root : Trimmed (a.node u.root) (b.node u.root)
  holds : b.Holds (.mk u.root (b.node u.root).plain [])
  holds_kid : ∀ k ∈ u.kids, b.Holds k
  siblings : b.siblingsFrom b.bound (u.kids.head?.map Tree.root) = u.kids.map Tree.root

theorem Fits.stripped {fl : Flags} {la : Option RecId} (h : a.Fits u) (hsize : a.recs.size ≤ b.recs.size)
    (hnode : b.node u.root = { a.node u.root with first := none, flags := fl, last := la })
    (hla : (a.node u.root).opClass.tracksLast = true → la = none) :
    b.Holds (.mk u.root (b.node u.root).plain []) := by
  refine holds_mk.mpr ⟨⟨Nat.lt_of_lt_of_le h.lt hsize, rfl, ?_, ?_, ?_, trivial⟩, by simp⟩
  · have hlive := h.live
    rw [← h.op] at hlive
    rw [op_mk, Node.plain_code, hnode]
    exact hlive
  · rw [root_mk, hnode]
    rfl
  · intro ht
    rw [op_mk, Node.opClass_plain, hnode] at ht
    rw [root_mk, hnode]
    exact hla ht

theorem Holds.strip (h : a.Holds u) (hn : u.recs.Nodup) :
    ∃ b, TreeM.splice (some u.root) none (-1) none a = .ok (u.kids.head?.map Tree.root) b ∧
      Stripped a b u := by
  have hp : u.root < a.recs.size := h.fits.lt
  have hroots := root_notMem_kids hn
  have hfirst := h.fits.first
  have hchain := h.kids_eq hn
  rw [kids, hfirst] at hchain
  cases hk : u.kids with
  | nil =>
    rw [hk] at hfirst hchain
    refine ⟨_, splice_none hfirst, ?_⟩
    have hloc : Local a (a.cut u.root none none) [u.root] := cut_local (by simp) (by simp)
    obtain ⟨fl, la, hnode, -, hla⟩ := @cut_node_parent a u.root none none hp fun he => by cases he
    generalize a.cut u.root none none = b at hloc hnode ⊢
    refine ⟨by rw [hk]; exact hloc, by rw [hnode]; exact ⟨rfl, rfl, rfl, rfl, rfl, rfl, rfl⟩,
      h.fits.stripped (Nat.le_of_eq hloc.size.symm) hnode (hla rfl), ?_, ?_⟩
    · rw [hk]
      simp
    · rw [hk]
      cases b.bound <;> rfl
  | cons k ks =>
    have hkids := nodup_kids hn
    obtain ⟨j, hj, hroot, hsib⟩ := h.lastDeleted hn hk
    have hju : j.root ≠ u.root := fun he => hroots (List.mem_flatMap.mpr ⟨j, hj, he ▸ j.root_mem_recs⟩)
    have hnone : (a.node j.root).sibling? = none := by
      rw [Node.sibling?, hsib]
      rfl
    rw [hk] at hfirst
    refine ⟨_, splice_front hfirst (by decide), ?_⟩
    rw [← hroot, hnone]
    have hloc : Local a (a.cut u.root (some j.root) none) [u.root, j.root] := cut_local (by simp) (by simp)
    obtain ⟨fl, la, hnode, -, hla⟩ := @cut_node_parent a _ (some j.root) none hp
      fun h => hju (Option.some.inj h)
    have hlast := @cut_node_last a _ none _ hju (h.kid hj).fits.lt
    generalize a.cut u.root (some j.root) none = b at hloc hnode hlast ⊢
    have hsize := Nat.le_of_eq hloc.size.symm
    refine ⟨?_, by rw [hnode]; exact ⟨rfl, rfl, rfl, rfl, rfl, rfl, rfl⟩, h.fits.stripped hsize hnode (hla rfl),
      fun i hi => ?_, ?_⟩
    · refine (Local.refl a _).trans hloc (fun _ h => h) fun r hr => ?_
      rcases List.mem_pair.mp hr with rfl | rfl
      · exact List.mem_cons_self ..
      · exact List.mem_cons_of_mem _ (List.mem_map.mpr ⟨j, hj, rfl⟩)
    · refine (h.kid hi).congr hsize ?_ fun w hw r hr => SamePlace.of_eq (hloc.outside r fun hm => ?_)
      · by_cases hij : i.root = j.root
        · rw [hij, hlast]
          exact ⟨rfl, rfl, rfl⟩
        · have hiu : i.root ≠ u.root := fun he =>
            hroots (List.mem_flatMap.mpr ⟨i, hi, he ▸ i.root_mem_recs⟩)
          rw [hloc.outside i.root fun hm => by
            rcases List.mem_pair.mp hm with he | he
            · exact hiu he
            · exact hij he]
          exact ⟨rfl, rfl, rfl⟩
      · have hri : r ∈ i.recs := recs_subset (kid_mem_subtrees hw) hr
        rcases List.mem_pair.mp hm with rfl | rfl
        · exact hroots (List.mem_flatMap.mpr ⟨i, hi, hri⟩)
        · obtain rfl := eq_of_mem_recs hkids hj hi j.root_mem_recs hri
          exact root_notMem_kids (nodup_of_mem hkids hj) (List.mem_flatMap.mpr ⟨w, hw, hr⟩)
    · rw [bound, hloc.size, ← bound, siblingsFrom_congr fun r _ => ?_, hchain]
      by_cases hr : r = j.root
      · rw [hr, hnone, hlast]
        rfl
      · by_cases hru : r = u.root
        · rw [hru, hnode]
          rfl
        · rw [hloc.outside r fun hm => by
            rcases List.mem_pair.mp hm with he | he
            · exact hru he
            · exact hr he]

end Arena

end OpTree
