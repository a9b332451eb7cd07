import OpTree.Proofs.FreeList
import OpTree.Op.Linear

/-!
# Weaving

What the linearizer makes of a tree, whatever is linked in it already. It stops at linked ops and leaves
what is below them alone; the kids of all other ops are led on to each other and to the op.
-/

namespace OpTree

set_option autoImplicit false

namespace Arena

open OpTree.Tree

variable {a b c : Arena}

/-- Only the successors of the records in `s` differ. -/
structure Rethreaded (a b : Arena) (s : List RecId) : Prop extends Local a b s where
  node : ∀ r, b.node r = { a.node r with next := (b.node r).next, real := (b.node r).real }

theorem Rethreaded.refl (a : Arena) (s : List RecId) : Rethreaded a a s :=
  ⟨Local.refl a s, fun _ => rfl⟩

theorem Rethreaded.trans {s t u : List RecId} (h : Rethreaded a b s) (h' : Rethreaded b c t)
    (hs : s ⊆ u) (ht : t ⊆ u) : Rethreaded a c u where
  toLocal := h.toLocal.trans h'.toLocal hs ht
  node r := by rw [h'.node r, h.node r]

theorem Rethreaded.mono {s t : List RecId} (h : Rethreaded a b s) (hs : s ⊆ t) : Rethreaded a b t :=
  h.trans (Rethreaded.refl b t) hs fun _ hm => hm

theorem Rethreaded.of_update {r : RecId} {next : Option RecId} {real : Bool} {s : List RecId}
    (hr : r ∈ s) : Rethreaded a (a.update r fun n => { n with next := next, real := real }) s where
  toLocal := Local.of_update hr
  node q := by
    by_cases h : q = r
    · subst h
      by_cases hlt : q < a.recs.size
      · rw [node_update_self hlt]
      · simp [update, Arena.node, hlt]
    · rw [node_update_of_ne h]

theorem next_update {r : RecId} (h : r < a.recs.size) (next : Option RecId) (real : Bool) :
    ((a.update r fun n => { n with next := next, real := real }).node r).next = next := by
  rw [node_update_self h]

theorem Rethreaded.samePlace {s : List RecId} (h : Rethreaded a b s) (r : RecId) :
    SamePlace a b r := by
  rw [SamePlace, h.node r]
  exact ⟨rfl, rfl, rfl, rfl⟩

theorem Rethreaded.holds {s : List RecId} {t : Tree} (h : Rethreaded a b s) (hh : a.Holds t) :
    b.Holds t := hh.of_samePlace (Nat.le_of_eq h.size.symm) fun r _ => h.samePlace r

theorem Rethreaded.sib {s : List RecId} (h : Rethreaded a b s) (r : RecId) :
    (b.node r).sib = (a.node r).sib := by rw [h.node r]

theorem Rethreaded.other {s : List RecId} (h : Rethreaded a b s) (r : RecId) :
    (b.node r).other = (a.node r).other := by rw [h.node r]

/-- The op at `r` is the root of a floating tree that starts at `q`. -/
def Floats (a : Arena) (r q : RecId) : Prop := (a.node r).next = some q ∧ (a.node r).real = false

def Precedes (a : Arena) (r q : RecId) : Prop := (a.node r).next = some q ∧ (a.node r).real = true

theorem floats_update {r : RecId} (h : r < a.recs.size) (q : RecId) :
    (a.update r fun n => { n with next := some q, real := false }).Floats r q := by
  rw [Floats, node_update_self h]
  exact ⟨rfl, rfl⟩

theorem precedes_update {r : RecId} (h : r < a.recs.size) (q : RecId) :
    (a.update r fun n => { n with next := some q, real := true }).Precedes r q := by
  rw [Precedes, node_update_self h]
  exact ⟨rfl, rfl⟩

theorem Floats.again {r q : RecId} (h : a.Floats r q) :
    a.update r (fun n => { n with next := some q, real := false }) = a :=
  (update_congr (by rw [← h.1, ← h.2])).trans (update_id a r)

theorem Floats.refloat {r q : RecId} (h : a.Floats r q) :
    (a.update r fun n => { n with next := none, real := true }).update r
      (fun n => { n with next := some q, real := false }) = a := by
  rw [update_update]
  exact (update_congr (by rw [← h.1, ← h.2]; rfl)).trans (update_id a r)

theorem Precedes.congr {r q : RecId} (h : a.Precedes r q) (hr : b.node r = a.node r) : b.Precedes r q := by
  rwa [Precedes, hr]

/-- Trees lead on to each other, each to where `f` lets the next one start, the last one to `q`. -/
def Strung (a : Arena) (f : Tree → RecId) (q : RecId) : List Tree → Prop
  | [] => True
  | [k] => a.Precedes k.root q
  | k :: j :: ks => a.Precedes k.root (f j) ∧ Strung a f q (j :: ks)

theorem Strung.congr {f g : Tree → RecId} {q : RecId} {ks : List Tree} (h : a.Strung f q ks)
    (hfg : ∀ k ∈ ks, g k = f k) (hb : ∀ k ∈ ks, b.node k.root = a.node k.root) : b.Strung g q ks := by
  induction ks with
  | nil => trivial
  | cons k ks ih =>
    have hk := hb k (List.mem_cons_self ..)
    cases ks with
    | nil => exact Precedes.congr h hk
    | cons j ks =>
      refine ⟨?_, ih h.2 (fun i hi => hfg i (List.mem_cons_of_mem k hi)) fun i hi =>
        hb i (List.mem_cons_of_mem k hi)⟩
      rw [hfg j (by simp)]
      exact h.1.congr hk

theorem Strung.real {f : Tree → RecId} {q : RecId} {ks : List Tree} (h : a.Strung f q ks) {k : Tree}
    (hk : k ∈ ks) : (a.node k.root).real = true := by
  induction ks with
  | nil => cases hk
  | cons j ks ih =>
    cases ks with
    | nil =>
      obtain rfl := List.mem_singleton.mp hk
      exact h.2
    | cons i ks =>
      rcases List.mem_cons.mp hk with rfl | hk
      · exact h.1.2
      · exact ih h.2 hk

/-- Where a tree starts once it is woven: a linked tree keeps its start. -/
def entrance (a : Arena) : Tree → RecId
  | .mk r _ [] => (a.node r).next.getD r
  | .mk r _ (k :: _) => (a.node r).next.getD (entrance a k)

theorem entrance_mk (a : Arena) (r : RecId) (o : Node) (ks : List Tree) :
    a.entrance (.mk r o ks) = (a.node r).next.getD ((ks.head?.map a.entrance).getD r) := by
  cases ks <;> simp [entrance]

mutual

/-- The records of a tree that are not below a linked one. -/
def crown (a : Arena) : Tree → List RecId
  | .mk r _ ks => r :: if (a.node r).next.isSome then [] else crownAll a ks

def crownAll (a : Arena) : List Tree → List RecId
  | [] => []
  | k :: ks => crown a k ++ crownAll a ks

end

theorem crownAll_eq (a : Arena) (ks : List Tree) : a.crownAll ks = ks.flatMap a.crown := by
  induction ks with
  | nil => rfl
  | cons k ks ih => simp [crownAll, ih]

theorem crown_of_linked {t : Tree} (h : (a.node t.root).next ≠ none) : a.crown t = [t.root] := by
  cases t
  rw [root_mk] at h
  rw [crown, if_pos (Option.isSome_iff_ne_none.mpr h), root_mk]

theorem crown_mk {r : RecId} {o : Node} {ks : List Tree} (h : (a.node r).next = none) :
    a.crown (.mk r o ks) = r :: ks.flatMap a.crown := by
  rw [crown, h, crownAll_eq]
  rfl

theorem root_mem_crown (a : Arena) (t : Tree) : t.root ∈ a.crown t := by
  cases t
  exact List.mem_cons_self ..

theorem crown_subset (a : Arena) (t : Tree) : a.crown t ⊆ t.recs := by
  induction t using Tree.induct with
  | h r o ks ih =>
    intro q hq
    by_cases h : (a.node r).next = none
    · rw [crown_mk h] at hq
      rcases List.mem_cons.mp hq with rfl | hq
      · exact root_mem_recs _
      · obtain ⟨k, hk, hq⟩ := List.mem_flatMap.mp hq
        exact kid_recs_subset hk (ih k hk hq)
    · rw [crown_of_linked h] at hq
      exact List.mem_singleton.mp hq ▸ root_mem_recs _

theorem crown_kid {P : RecId → Prop} {r : RecId} {o : Node} {ks : List Tree} {k : Tree}
    (hn : (Tree.mk r o ks).recs.Nodup) (hr : (a.node r).next = none)
    (h : ∀ q ∈ (Tree.mk r o ks).recs, q ∉ a.crown (.mk r o ks) → P q) (hk : k ∈ ks) :
    ∀ q ∈ k.recs, q ∉ a.crown k → P q := by
  intro q hq hqk
  apply h q (kid_recs_subset hk hq)
  rw [crown_mk hr]
  intro hm
  rcases List.mem_cons.mp hm with rfl | hm
  · exact root_notMem_kids hn (List.mem_flatMap.mpr ⟨k, hk, hq⟩)
  · obtain ⟨j, hj, hm⟩ := List.mem_flatMap.mp hm
    obtain rfl := eq_of_mem_recs (nodup_kids hn) hk hj hq (crown_subset a j hm)
    exact hqk hm

theorem crown_linked {P : RecId → Prop} {t : Tree} (hn : t.recs.Nodup) (hl : (a.node t.root).next ≠ none)
    (h : ∀ q ∈ t.recs, q ∉ a.crown t → P q) : ∀ q ∈ t.kids.flatMap Tree.recs, P q := by
  intro q hq
  apply h q (t.kids_recs_subset hq)
  rw [crown_of_linked hl, List.mem_singleton]
  rintro rfl
  exact root_notMem_kids hn hq

theorem entrance_congr {t : Tree} (h : ∀ r ∈ t.recs, (b.node r).next = (a.node r).next) :
    b.entrance t = a.entrance t := by
  induction t using Tree.induct with
  | h r o ks ih =>
    rw [entrance_mk, entrance_mk, h r (root_mem_recs _)]
    cases ks with
    | nil => rfl
    | cons k ks =>
      have hk := ih k (by simp) fun q hq => h q (kid_recs_subset (by simp) hq)
      simp [hk]

theorem crown_congr {t : Tree} (h : ∀ r ∈ t.recs, (b.node r).next = (a.node r).next) :
    b.crown t = a.crown t := by
  induction t using Tree.induct with
  | h r o ks ih =>
    have hks : ks.flatMap b.crown = ks.flatMap a.crown :=
      List.flatMap_congr fun k hk => ih k hk fun q hq => h q (kid_recs_subset hk hq)
    rw [crown, crown, crownAll_eq, crownAll_eq, hks, h r (root_mem_recs _)]

/-- The links that weaving a tree of `a` has made below its root. -/
inductive Woven (a b : Arena) : Tree → Prop where
  | linked {t : Tree} (h : (a.node t.root).next ≠ none) : Woven a b t
  | op {r : RecId} {o : Node} {ks : List Tree} (h : (a.node r).next = none) (hks : ∀ k ∈ ks, Woven a b k)
      (hs : b.Strung a.entrance r ks) : Woven a b (.mk r o ks)

theorem Woven.congr {a' b' : Arena} {t : Tree} (h : Woven a b t)
    (ha : ∀ r ∈ t.recs, (a'.node r).next = (a.node r).next)
    (hb : ∀ r ∈ t.kids.flatMap Tree.recs, b'.node r = b.node r) : Woven a' b' t := by
  induction h with
  | @linked t h =>
    apply Woven.linked
    rwa [ha _ t.root_mem_recs]
  | @op r o ks h hks hs ih =>
    have hsub : ∀ k ∈ ks, ∀ q ∈ k.recs, (a'.node q).next = (a.node q).next := fun k hk q hq =>
      ha q (kid_recs_subset hk hq)
    have hmem : ∀ k ∈ ks, ∀ q ∈ k.recs, q ∈ ks.flatMap Tree.recs := fun k hk q hq =>
      List.mem_flatMap.mpr ⟨k, hk, hq⟩
    refine .op ((ha r (root_mem_recs _)).trans h) (fun k hk => ih k hk (hsub k hk) fun q hq => ?_) ?_
    · exact hb q (hmem k hk q (k.kids_recs_subset hq))
    · refine hs.congr (fun k hk => entrance_congr (hsub k hk)) fun k hk => ?_
      exact hb k.root (hmem k hk _ k.root_mem_recs)

theorem Woven.real {t : Tree} (h : Woven a b t) {r : RecId} (hr : r ∈ a.crown t) (hne : r ≠ t.root) :
    (b.node r).real = true := by
  induction h with
  | linked h =>
    rw [crown_of_linked h, List.mem_singleton] at hr
    exact absurd hr hne
  | @op q o ks h hks hs ih =>
    rw [crown_mk h] at hr
    obtain ⟨k, hk, hrk⟩ := List.mem_flatMap.mp ((List.mem_cons.mp hr).resolve_left hne)
    by_cases hroot : r = k.root
    · exact hroot ▸ hs.real hk
    · exact ih k hk hrk hroot

end Arena

namespace TreeM

open Arena OpTree.Tree

variable {a b c : Arena}

@[simp] theorem setNext_apply (r : RecId) (q : Option RecId) (a : Arena) :
    setNext r q a = .ok () (a.update r fun n => { n with next := q, real := true }) := rfl

@[simp] theorem float_apply (r : RecId) (q : Option RecId) (a : Arena) :
    float r q a = .ok () (a.update r fun n => { n with next := q, real := false }) := rfl

section Link

variable {f : Tree → RecId}

theorem linkKids_ok {r : RecId} {k : Tree} {ks : List Tree}
    (hlt : ∀ j ∈ k :: ks, j.root < a.recs.size) (hn : ((k :: ks).map Tree.root).Nodup)
    (hf : ∀ j ∈ ks, (a.node j.root).next = some (f j)) :
    ∃ b, linkKids r k.root (ks.map Tree.root) a = .ok () b ∧
      Rethreaded a b ((k :: ks).map Tree.root) ∧ b.Strung f r (k :: ks) := by
  induction ks generalizing k a with
  | nil => exact ⟨_, rfl, Rethreaded.of_update (by simp), precedes_update (hlt k (by simp)) _⟩
  | cons j ks ih =>
    have hkj : ∀ i ∈ j :: ks, i.root ≠ k.root := fun i hi he =>
      (List.nodup_cons.mp hn).1 (he ▸ List.mem_map.mpr ⟨i, hi, rfl⟩)
    have hstep : linkKids r k.root ((j :: ks).map Tree.root) a =
        linkKids r j.root (ks.map Tree.root)
          (a.update k.root fun n => { n with next := some (f j), real := true }) := by
      rw [List.map_cons, linkKids, bind_of_ok (node_apply _ _), hf j (by simp),
        bind_of_ok (setNext_apply _ _ _)]
    have hset : Rethreaded a (a.update k.root fun n => { n with next := some (f j), real := true })
        [k.root] := Rethreaded.of_update (by simp)
    have hself := precedes_update (hlt k (by simp)) (f j)
    generalize a.update k.root (fun n => { n with next := some (f j), real := true }) = c at *
    obtain ⟨b, hok, hcb, hs⟩ := ih (a := c) (k := j) (fun i hi => by
        rw [hset.size]
        exact hlt i (List.mem_cons_of_mem k hi)) (List.nodup_cons.mp hn).2 fun i hi => by
        rw [hset.outside i.root (by simpa using hkj i (List.mem_cons_of_mem j hi))]
        exact hf i (List.mem_cons_of_mem j hi)
    refine ⟨b, hstep.trans hok, hset.trans hcb (by simp) (by simp), hself.congr ?_, hs⟩
    exact hcb.outside _ (List.nodup_cons.mp hn).1

theorem link_of_nil {r : RecId} (hk : a.kids r = []) : link r a = float r (some r) a := by
  rw [link, bind_of_ok (kids_apply _ _), hk]

theorem link_of_cons {r k : RecId} {js : List RecId} (hk : a.kids r = k :: js) :
    link r a = (do
      float r (← node k).next
      linkKids r k js) a := by
  rw [link, bind_of_ok (kids_apply _ _), hk]

theorem link_ok {t : Tree} (hh : a.Holds t) (hn : t.recs.Nodup)
    (hf : ∀ k ∈ t.kids, (a.node k.root).next = some (f k)) :
    ∃ b, link t.root a = .ok () b ∧ Rethreaded a b (t.root :: t.kids.map Tree.root) ∧
      b.Floats t.root ((t.kids.head?.map f).getD t.root) ∧ b.Strung f t.root t.kids := by
  obtain ⟨r, o, ks⟩ := t
  have hkids : a.kids r = ks.map Tree.root := hh.kids_eq hn
  have hlt : r < a.recs.size := hh.fits.lt
  simp only [root_mk, kids_mk] at *
  cases ks with
  | nil => exact ⟨_, link_of_nil hkids, Rethreaded.of_update (by simp), floats_update hlt r, trivial⟩
  | cons k ks =>
    have hlink := link_of_cons hkids
    simp only [bind_of_ok (node_apply _ _), hf k (by simp), bind_of_ok (float_apply _ _ _)] at hlink
    have hroot : ∀ j ∈ k :: ks, j.root ≠ r := fun j hj he =>
      root_notMem_kids hn (List.mem_flatMap.mpr ⟨j, hj, he ▸ j.root_mem_recs⟩)
    have hset : Rethreaded a (a.update r fun n => { n with next := some (f k), real := false }) [r] :=
      Rethreaded.of_update (by simp)
    have hself := floats_update hlt (f k)
    generalize a.update r (fun n => { n with next := some (f k), real := false }) = c at *
    obtain ⟨b, hok, hcb, hs⟩ := linkKids_ok (r := r)
      (fun j hj => hset.size ▸ (hh.kid hj).fits.lt) (nodup_roots (nodup_kids hn)) fun j hj => by
        rw [hset.outside j.root (by simpa using hroot j (List.mem_cons_of_mem k hj))]
        exact hf j (List.mem_cons_of_mem k hj)
    refine ⟨b, hlink.trans hok, hset.trans hcb (by simp) (by simp), ?_, hs⟩
    have hr : r ∉ (k :: ks).map Tree.root := fun hm => by
      obtain ⟨j, hj, he⟩ := List.mem_map.mp hm
      exact hroot j hj he
    rwa [Floats, hcb.outside r hr]

end Link

/-- The visits to a tree: what they do and how many they are. -/
def Visits (root : RecId) (t : Tree) (a b : Arena) (cost : Nat) : Prop :=
  ∀ fuel, linearizeFrom root (fuel + cost + 1) t.root a = linearizeFrom root (fuel + 1) t.root b

section Visits

variable {root : RecId}

theorem visit_sibling {k l : RecId} {fuel : Nat} (hk : k ≠ root) (hn : (a.node k).next ≠ none)
    (hs : (a.node k).sib = ⟨some l, true⟩) :
    linearizeFrom root (fuel + 1) k a = linearizeFrom root fuel l a := by
  obtain ⟨q, hq⟩ := Option.ne_none_iff_exists'.mp hn
  rw [linearizeFrom, bind_of_ok (node_apply _ _)]
  simp only [hq, hs, hk, Option.isNone_some, Bool.false_eq_true, if_false, if_true]
  rw [bind_of_ok (need_some _ _)]

theorem visit_parent {k p : RecId} {fuel : Nat} (hk : k ≠ root) (hn : (a.node k).next ≠ none)
    (hs : (a.node k).sib = .up p) (hp : (a.node p).next = none) :
    linearizeFrom root (fuel + 1) k a = (do link p; linearizeFrom root fuel p) a := by
  obtain ⟨q, hq⟩ := Option.ne_none_iff_exists'.mp hn
  rw [linearizeFrom, bind_of_ok (node_apply _ _)]
  simp only [hq, hs, hk, Sib.up, Option.isNone_some, Bool.false_eq_true, if_false]
  rw [bind_of_ok (node_apply _ _)]
  simp only [hp, Option.isSome_none, Bool.false_eq_true, if_false]

theorem visit_first {r k : RecId} {fuel : Nat} (hn : (a.node r).next = none)
    (hf : (a.node r).first = some k) :
    linearizeFrom root (fuel + 1) r a = linearizeFrom root fuel k a := by
  rw [linearizeFrom, bind_of_ok (node_apply _ _)]
  simp only [hn, hf]

theorem visit_leaf {r : RecId} {fuel : Nat} (hlt : r < a.recs.size) (hn : (a.node r).next = none)
    (hf : (a.node r).first = none) :
    linearizeFrom root (fuel + 1) r a = linearizeFrom root (fuel + 1) r
      (a.update r fun n => { n with next := some r, real := false }) := by
  have hnext := next_update hlt (some r) false
  have hset : Rethreaded a (a.update r fun n => { n with next := some r, real := false }) [r] :=
    Rethreaded.of_update (List.mem_singleton.mpr rfl)
  have hsib := hset.sib r
  rw [linearizeFrom, bind_of_ok (node_apply _ _), bind_of_ok (node_apply _ _)]
  simp only [hn, hf, hnext, hsib, Option.isNone_none, Option.isNone_some, if_true,
    Bool.false_eq_true, if_false]
  rw [bind_of_ok (float_apply _ _ _)]

theorem visit_root {q : RecId} {fuel : Nat} (h : (a.node root).next = some q) :
    linearizeFrom root (fuel + 1) root a = .ok (some q) a := by
  rw [linearizeFrom, bind_of_ok (node_apply _ _)]
  simp only [h, Option.isNone_some, Bool.false_eq_true, if_false, if_true]
  rw [bind_of_ok (node_apply _ _), h]
  rfl

end Visits

end TreeM

namespace Arena

open OpTree.Tree TreeM

variable {a b c : Arena} {root : RecId}

/-- What linearizing has made of the tree `t`. A root that was linked is as it was. -/
structure Threaded (a b : Arena) (t : Tree) : Prop where
  rethreaded : Rethreaded a b (a.crown t)
  woven : Woven a b t
  next : (b.node t.root).next = some (a.entrance t)
  real : (b.node t.root).real = ((a.node t.root).next.isSome && (a.node t.root).real)

theorem Threaded.of_linked {t : Tree} (h : (a.node t.root).next ≠ none) : Threaded a a t where
  rethreaded := Rethreaded.refl a _
  woven := .linked h
  next := by
    obtain ⟨q, hq⟩ := Option.ne_none_iff_exists'.mp h
    cases t
    rw [root_mk] at hq
    rw [root_mk, entrance_mk, hq, Option.getD_some]
  real := by simp [Option.isSome_iff_ne_none.mpr h]

theorem Threaded.keep {t : Tree} (h : Threaded a b t) {r : RecId} (hr : r ∉ a.crown t) :
    b.node r = a.node r := h.rethreaded.outside r hr

/-- The walk over kids that are visited one after the other, up to the link of their parent. -/
theorem visits_kids {p : RecId} {k : Tree} {ks : List Tree}
    (hv : ∀ j ∈ k :: ks, ∀ a : Arena, a.Holds j → ∃ b cost,
      cost + 2 ≤ 2 * j.recs.length ∧ Threaded a b j ∧ Visits root j a b cost)
    (hh : ∀ j ∈ k :: ks, a.Holds j) (hs : a.SibChain p ((k :: ks).map Tree.root))
    (hn : ((k :: ks).flatMap Tree.recs).Nodup) (hp : (a.node p).next = none)
    (hpk : p ∉ (k :: ks).flatMap Tree.recs) (hroot : ∀ j ∈ k :: ks, j.root ≠ root) :
    ∃ b cost, cost + 2 ≤ 2 * ((k :: ks).flatMap Tree.recs).length ∧
      Rethreaded a b ((k :: ks).flatMap a.crown) ∧
      (∀ j ∈ k :: ks, Woven a b j ∧ (b.node j.root).next = some (a.entrance j)) ∧
      ∀ fuel, linearizeFrom root (fuel + cost + 1) k.root a =
        (do link p; linearizeFrom root fuel p) b := by
  induction ks generalizing k a with
  | nil =>
    obtain ⟨b, cost, hc, hab, hvis⟩ := hv k (by simp) a (hh k (by simp))
    refine ⟨b, cost, by simpa using hc, by simpa using hab.rethreaded, fun j hj => ?_, fun fuel => ?_⟩
    · obtain rfl := List.mem_singleton.mp hj
      exact ⟨hab.woven, hab.next⟩
    · rw [hvis fuel]
      refine visit_parent (hroot k (by simp)) (by simp [hab.next]) ((hab.rethreaded.sib _).trans hs) ?_
      rw [hab.keep fun hm => hpk (by simpa using crown_subset a k hm), hp]
  | cons j ks ih =>
    obtain ⟨b, cost, hc, hab, hvis⟩ := hv k (by simp) a (hh k (by simp))
    rw [List.flatMap_cons] at hn hpk
    have hdisj := (List.nodup_append.mp hn).2.2
    -- the other kids are as they were when their turn comes
    have hapart : ∀ i ∈ j :: ks, ∀ r ∈ i.recs, b.node r = a.node r := fun i hi r hri =>
      hab.keep fun hm => hdisj r (crown_subset a k hm) r (List.mem_flatMap.mpr ⟨i, hi, hri⟩) rfl
    have hcrown : (j :: ks).flatMap b.crown = (j :: ks).flatMap a.crown := List.flatMap_congr fun i hi =>
      crown_congr fun r hr => congrArg Node.next (hapart i hi r hr)
    have hpk' := List.mem_append.not.mp hpk
    obtain ⟨c, cost', hc', hbc, hl, hvis'⟩ := ih (k := j) (a := b)
      (fun i hi => hv i (List.mem_cons_of_mem k hi))
      (fun i hi => hab.rethreaded.holds (hh i (List.mem_cons_of_mem k hi)))
      (hs.2.congr fun r _ => hab.rethreaded.sib r) (List.nodup_append.mp hn).2.1
      (by rw [hab.keep fun hm => hpk' (Or.inl (crown_subset a k hm)), hp]) (fun hm => hpk' (Or.inr hm))
      fun i hi => hroot i (List.mem_cons_of_mem k hi)
    rw [hcrown] at hbc
    have hkeep : ∀ r ∈ k.recs, c.node r = b.node r := by
      intro r hr
      refine hbc.outside r fun hm => ?_
      obtain ⟨i, hi, hm⟩ := List.mem_flatMap.mp hm
      exact hdisj r hr r (List.mem_flatMap.mpr ⟨i, hi, crown_subset a i hm⟩) rfl
    refine ⟨c, cost + cost' + 1, ?_, ?_, ?_, fun fuel => ?_⟩
    · rw [List.flatMap_cons, List.length_append]
      omega
    · rw [List.flatMap_cons]
      exact hab.rethreaded.trans hbc (List.subset_append_left _ _) (List.subset_append_right _ _)
    · intro i hi
      rcases List.mem_cons.mp hi with rfl | hi
      · refine ⟨hab.woven.congr (fun _ _ => rfl) fun r hr => hkeep r (kids_recs_subset _ hr), ?_⟩
        rw [hkeep _ i.root_mem_recs, hab.next]
      · have hi' := hl i hi
        have hnext : ∀ r ∈ i.recs, (a.node r).next = (b.node r).next := fun r hr =>
          congrArg Node.next (hapart i hi r hr).symm
        refine ⟨hi'.1.congr hnext fun _ _ => rfl, ?_⟩
        rw [hi'.2, entrance_congr fun r hr => (hnext r hr).symm]
    · have hstep := hvis (fuel + cost' + 1)
      rw [show fuel + (cost + cost' + 1) + 1 = fuel + cost' + 1 + cost + 1 by omega, hstep,
        visit_sibling (l := j.root) (hroot k (by simp)) (by simp [hab.next])
          ((hab.rethreaded.sib _).trans hs.1)]
      exact hvis' fuel

theorem visits {t : Tree} (hh : a.Holds t) (hn : t.recs.Nodup) (hroot : root ∉ t.kids.flatMap Tree.recs) :
    ∃ b cost, cost + 2 ≤ 2 * t.recs.length ∧ Threaded a b t ∧ Visits root t a b cost := by
  induction t using Tree.induct generalizing a with
  | h r o ks ih =>
    -- an op that has a link is passed by with all that is below it; else its kids come first
    by_cases hnone : (a.node r).next = none
    · have hlt : r < a.recs.size := hh.fits.lt
      cases ks with
      | nil =>
        have hself := floats_update hlt r
        refine ⟨_, 0, by simp, ⟨Rethreaded.of_update (root_mem_crown a _), .op hnone (by simp) trivial,
          ?_, ?_⟩, fun fuel => visit_leaf hlt hnone hh.fits.first⟩
        · rw [root_mk, hself.1, entrance_mk, hnone]
          rfl
        · rw [root_mk, hself.2, hnone]
          rfl
      | cons k ks =>
        have hkn : ((k :: ks).flatMap Tree.recs).Nodup := nodup_kids hn
        have hrk : r ∉ (k :: ks).flatMap Tree.recs := root_notMem_kids hn
        have hkroot : ∀ j ∈ k :: ks, root ∉ j.recs := fun j hj hm =>
          hroot (List.mem_flatMap.mpr ⟨j, hj, hm⟩)
        have hvk : ∀ j ∈ k :: ks, ∀ a : Arena, a.Holds j → ∃ b cost,
            cost + 2 ≤ 2 * j.recs.length ∧ Threaded a b j ∧ Visits root j a b cost := fun j hj a hhj =>
          ih j hj hhj (nodup_of_mem hkn hj) fun hm => hkroot j hj (j.kids_recs_subset hm)
        obtain ⟨c, cost, hc, hac, hl, hvis⟩ := visits_kids hvk (fun j hj => hh.kid hj) hh.fits.sibs hkn
          hnone hrk fun j hj he => hkroot j hj (he ▸ j.root_mem_recs)
        obtain ⟨b, hlink, hcb, hfloat, hs⟩ := link_ok (hac.holds hh) hn fun j hj => (hl j hj).2
        have hfirst : (a.node r).first = some k.root := hh.fits.first
        refine ⟨b, cost + 2, ?_, ⟨?_, .op hnone (fun j hj => (hl j hj).1.congr (fun _ _ => rfl) ?_) hs,
          ?_, ?_⟩, fun fuel => ?_⟩
        · rw [recs_mk, List.length_cons]
          omega
        · rw [crown_mk hnone]
          refine hac.trans hcb (List.subset_cons_self ..) (List.cons_subset_cons r ?_)
          intro q hq
          obtain ⟨j, hj, rfl⟩ := List.mem_map.mp hq
          exact List.mem_flatMap.mpr ⟨j, hj, root_mem_crown a j⟩
        · -- below the kids nothing changes when the op itself is linked
          intro q hq
          refine hcb.outside q fun hm => ?_
          rcases List.mem_cons.mp hm with rfl | hm
          · exact hrk (List.mem_flatMap.mpr ⟨j, hj, j.kids_recs_subset hq⟩)
          · obtain ⟨i, hi, rfl⟩ := List.mem_map.mp hm
            exact root_notMem_grandkids hn hj hi hq
        · rw [hfloat.1, entrance_mk, hnone]
          rfl
        · rw [hfloat.2, root_mk, hnone]
          rfl
        · rw [show fuel + (cost + 2) + 1 = (fuel + 1 + cost + 1) + 1 by omega, root_mk,
            visit_first hnone hfirst, hvis (fuel + 1)]
          exact bind_of_ok hlink
    · have := List.length_pos_of_mem (root_mem_recs (.mk r o ks))
      exact ⟨a, 0, by omega, .of_linked hnone, fun _ => rfl⟩

theorem linearize_threads {t : Tree} (hh : a.Holds t) (hn : t.recs.Nodup) :
    ∃ b, linearize t.root a = .ok (some (a.entrance t)) b ∧ Threaded a b t := by
  obtain ⟨b, cost, hc, hab, hvis⟩ := visits hh hn (root_notMem_kids hn)
  refine ⟨b, ?_, hab⟩
  have hlen := hh.length_recs_le hn
  obtain ⟨fuel, hfuel⟩ : ∃ fuel, 4 * a.bound = fuel + cost + 1 :=
    ⟨4 * a.bound - cost - 1, by simp only [bound]; omega⟩
  rw [linearize, bind_of_ok (get_apply a), hfuel, hvis fuel]
  exact visit_root hab.next

theorem linearize_of_linked {r q : RecId} (h : (a.node r).next = some q) :
    linearize r a = .ok (some q) a := by
  rw [linearize, bind_of_ok (get_apply a), show 4 * a.bound = 4 * a.recs.size + 3 + 1 by simp [bound]; omega]
  exact visit_root h

end Arena

end OpTree
