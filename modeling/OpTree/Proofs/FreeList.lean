import OpTree.Proofs.Splicing
import Mathlib.Data.List.Flatten

/-!
# The free list beside the trees

Records of the free list are freed and belong to no tree, so a new op never takes a record away
from a tree, and freeing a tree leaves all others as they are.
-/

namespace OpTree

set_option autoImplicit false

namespace Arena

variable {a b : Arena}

/-- The records that are met from `o` on along `next`. -/
def FreeChain (a : Arena) : Option RecId → List RecId → Prop
  | o, [] => o = none
  | o, r :: fs => o = some r ∧ FreeChain a (a.node r).next fs

structure FreeList (a : Arena) (fs : List RecId) : Prop where
  chain : ∀ g, a.group? = some g → a.FreeChain g.free fs
  nodup : fs.Nodup
  lt : ∀ r ∈ fs, r < a.recs.size
  freed : ∀ r ∈ fs, (a.node r).code = .freed

theorem FreeChain.congr {o : Option RecId} {fs : List RecId} (h : a.FreeChain o fs)
    (hn : ∀ r ∈ fs, (b.node r).next = (a.node r).next) : b.FreeChain o fs := by
  induction fs generalizing o with
  | nil => exact h
  | cons r fs ih =>
    refine ⟨h.1, ?_⟩
    rw [hn r (List.mem_cons_self ..)]
    exact ih h.2 fun q hq => hn q (List.mem_cons_of_mem r hq)

/-- Where the search for a record stops: at a record of the list, with the one before it. -/
theorem findFree_eq {size : Int} {scan : Nat} {prev o p : Option RecId} {r : RecId} {fs : List RecId}
    (h : a.FreeChain o fs) (hf : a.findFree size scan prev o = some (p, r)) :
    ∃ l l', fs = l ++ r :: l' ∧ p = l.getLast?.or prev := by
  induction scan generalizing prev o fs with
  | zero => simp [findFree] at hf
  | succ scan ih =>
    cases o with
    | none => simp [findFree] at hf
    | some q =>
      cases fs with
      | nil => simp [FreeChain] at h
      | cons q' fs =>
        obtain ⟨hq, hrest⟩ := h
        obtain rfl : q = q' := by simpa using hq
        simp only [findFree] at hf
        split at hf
        · obtain ⟨l, l', rfl, hp⟩ := ih hrest hf
          refine ⟨q :: l, l', rfl, ?_⟩
          cases hl : l.getLast? with
          | none => simp_all [List.getLast?_eq_none_iff]
          | some x => simp_all [List.getLast?_cons]
        · obtain ⟨rfl, rfl⟩ : prev = p ∧ q = r := by simpa using hf
          exact ⟨[], fs, rfl, by simp⟩

theorem FreeChain.skip {o : Option RecId} {l l' : List RecId} {p r : RecId}
    (h : a.FreeChain o (l ++ r :: l')) (hp : l.getLast? = some p) (hn : (l ++ r :: l').Nodup)
    (hlt : p < a.recs.size) :
    (a.update p fun x => { x with next := (a.node r).next }).FreeChain o (l ++ l') := by
  induction l generalizing o with
  | nil => simp at hp
  | cons q l ih =>
    obtain ⟨ho, hrest⟩ := h
    refine ⟨ho, ?_⟩
    have hq : q ∉ l ++ r :: l' := (List.nodup_cons.mp hn).1
    cases l with
    | nil =>
      obtain rfl : q = p := by simpa using hp
      rw [node_update_self hlt]
      refine hrest.2.congr fun s hs => ?_
      rw [node_update_of_ne]
      rintro rfl
      exact hq (by simp [hs])
    | cons s l =>
      have hp' : (s :: l).getLast? = some p := by simpa [List.getLast?_cons_cons] using hp
      have hne : q ≠ p := by
        rintro rfl
        exact hq (List.mem_append_left _ (List.mem_of_getLast? hp'))
      rw [node_update_of_ne hne]
      exact ih hrest hp' (List.nodup_cons.mp hn).2

/-- There is an op at a record. -/
def Occupied (a : Arena) (r : RecId) : Prop := r < a.recs.size ∧ (a.node r).code ≠ .freed

theorem Holds.occupied {t : Tree} (h : a.Holds t) {r : RecId} (hr : r ∈ t.recs) : a.Occupied r :=
  ⟨h.lt hr, h.live hr⟩

theorem FreeList.notMem_of_occupied {fs : List RecId} (h : a.FreeList fs) {r : RecId} (hr : a.Occupied r) :
    r ∉ fs := fun hm => hr.2 (h.freed r hm)

/-- What an allocation answers: a blank record that was free or is new. -/
structure Allocated (a b : Arena) (fs : List RecId) (r : RecId) : Prop where
  lt : r < b.recs.size
  blank : ∃ static size, b.node r = { static := static, size := size }
  fresh : r ∈ fs ∨ a.recs.size ≤ r
  keeps : ∀ q < a.recs.size, q ∉ fs → b.node q = a.node q
  grows : a.recs.size ≤ b.recs.size
  free : ∃ fs', b.FreeList fs' ∧ r ∉ fs'
  occupied : ∀ q, b.Occupied q → q = r ∨ a.Occupied q
  rest : b = { a with recs := b.recs, group? := b.group? }

@[simp] theorem node_withGroup (a : Arena) (g : Option Group) (r : RecId) :
    ({ a with group? := g } : Arena).node r = a.node r := rfl

theorem node_push_of_lt {r : RecId} {n : Node} (h : r < a.recs.size) :
    ({ a with recs := a.recs.push n } : Arena).node r = a.node r := by
  simp [node, Array.getElem?_push, Nat.ne_of_lt h]

theorem node_push_self (n : Node) : ({ a with recs := a.recs.push n } : Arena).node a.recs.size = n := by
  simp [node]

theorem FreeChain.withGroup {g : Option Group} {o : Option RecId} {fs : List RecId}
    (h : a.FreeChain o fs) : ({ a with group? := g } : Arena).FreeChain o fs := h.congr fun _ _ => rfl

theorem le_size_of_findFree {size : Int} {scan : Nat} {prev o p : Option RecId} {r : RecId}
    (hf : a.findFree size scan prev o = some (p, r)) : size ≤ (a.node r).size := by
  induction scan generalizing prev o with
  | zero => simp [findFree] at hf
  | succ scan ih =>
    cases o with
    | none => simp [findFree] at hf
    | some q =>
      simp only [findFree] at hf
      split at hf
      · exact ih hf
      · rename_i hfit
        obtain ⟨-, rfl⟩ : prev = p ∧ q = r := by simpa using hf
        exact Int.not_lt.mp hfit

/-- What is left when `r` was taken off the free list: `r` is blank but for its size, and of the other
records only the one before `r` changes, in its link. -/
structure Reused (a b : Arena) (g : Group) (l l' : List RecId) (r : RecId) : Prop where
  size : b.recs.size = a.recs.size
  node : b.node r = { size := (a.node r).size }
  other : ∀ q ≠ r, b.node q = { a.node q with next := (b.node q).next }
  keeps : ∀ q ∉ l ++ r :: l', b.node q = a.node q
  list : b.FreeList (l ++ l')
  group : ∃ o, b.group? = some { g with
    free := o, freeCount := g.freeCount - 1, live := g.live + 1, liveUnits := g.liveUnits + (a.node r).size }
  rest : b = { a with recs := b.recs, group? := b.group? }

/-- The links to `r` are made to pass it by, so that the list starts with `o` and goes on along `l` and `l'`. -/
structure Skipped (a c : Arena) (o : Option RecId) (l l' : List RecId) (r : RecId) : Prop where
  self : c.node r = a.node r
  other : ∀ q, c.node q = { a.node q with next := (c.node q).next }
  keeps : ∀ q ∉ l, c.node q = a.node q
  size : c.recs.size = a.recs.size
  chain : c.FreeChain o (l ++ l')
  rest : c = { a with recs := c.recs }

theorem Skipped.of_head {o : Option RecId} {l' : List RecId} {r : RecId} (h : a.FreeChain o (r :: l')) :
    Skipped a a (a.node r).next [] l' r :=
  ⟨rfl, fun _ => rfl, fun _ _ => rfl, rfl, h.2, rfl⟩

theorem Skipped.of_update {o : Option RecId} {l l' : List RecId} {p r : RecId} (h : a.FreeChain o (l ++ r :: l'))
    (hp : l.getLast? = some p) (hn : (l ++ r :: l').Nodup) (hlt : p < a.recs.size) :
    Skipped a (a.update p fun x => { x with next := (a.node r).next }) o l l' r := by
  have hpl : p ∈ l := List.mem_of_getLast? hp
  have hkeep : ∀ q ∉ l, (a.update p fun x => { x with next := (a.node r).next }).node q = a.node q :=
    fun q hq => node_update_of_ne (fun he : q = p => hq (he ▸ hpl)) _
  have hr : r ∉ l := fun hm => (List.nodup_append.mp hn).2.2 r hm r (by simp) rfl
  refine ⟨hkeep r hr, fun q => ?_, hkeep, by simp, h.skip hp hn hlt, rfl⟩
  rcases node_update_cases (a := a) (r := p) (f := fun n => { n with next := (a.node r).next }) q
    with he | ⟨-, he⟩ <;> rw [he]

theorem Skipped.reused {c : Arena} {o : Option RecId} {l l' : List RecId} {r : RecId} (hs : Skipped a c o l l' r)
    (h : a.FreeList (l ++ r :: l')) (g : Group) :
    Reused a { c.update r (fun n => { size := n.size }) with group? := some { g with
      free := o, freeCount := g.freeCount - 1, live := g.live + 1, liveUnits := g.liveUnits + (a.node r).size } }
      g l l' r := by
  obtain ⟨hnot, hnd⟩ : r ∉ l ++ l' ∧ (l ++ l').Nodup := by
    have := h.nodup
    rwa [List.nodup_middle, List.nodup_cons] at this
  have hlt : r < c.recs.size := hs.size ▸ h.lt r (by simp)
  have hmem : ∀ q ∈ l ++ l', q ∈ l ++ r :: l' := by
    intro q hq
    rcases List.mem_append.mp hq with hq | hq <;> simp [hq]
  have hother : ∀ q ≠ r, (c.update r fun n => { size := n.size }).node q = c.node q :=
    fun q hq => node_update_of_ne hq _
  have hne : ∀ q ∈ l ++ l', q ≠ r := fun q hq he => hnot (he ▸ hq)
  refine ⟨by simpa using hs.size, ?_, fun q hq => ?_, fun q hq => ?_, ⟨?_, hnd, fun q hq => ?_, fun q hq => ?_⟩,
    ⟨_, rfl⟩, by rw [hs.rest]; rfl⟩
  · rw [node_withGroup, node_update_self hlt, hs.self]
  · rw [node_withGroup, hother q hq]
    exact hs.other q
  · rw [node_withGroup, hother q fun he => hq (by simp [he])]
    exact hs.keeps q fun hm => hq (by simp [hm])
  · rintro g' ⟨⟩
    refine (hs.chain.congr fun q hq => ?_).withGroup
    rw [hother q (hne q hq)]
  · simpa [hs.size] using h.lt q (hmem q hq)
  · rw [node_withGroup, hother q (hne q hq), hs.other q]
    exact h.freed q (hmem q hq)

theorem FreeList.reused {fs : List RecId} {g : Group} {size : Int} {r : RecId} (h : a.FreeList fs)
    (hg : a.group? = some g) (hr : a.reuse? g size = some (r, b)) :
    ∃ l l', fs = l ++ r :: l' ∧ size ≤ (a.node r).size ∧ Reused a b g l l' r := by
  obtain ⟨⟨p, q⟩, hf, hb⟩ := Option.map_eq_some_iff.mp hr
  have hchain := h.chain g hg
  obtain ⟨l, l', rfl, hp⟩ := findFree_eq hchain hf
  have hsize := le_size_of_findFree hf
  cases hl : l.getLast? with
  | none =>
    obtain rfl : l = [] := List.getLast?_eq_none_iff.mp hl
    obtain rfl : p = none := by simpa using hp
    obtain ⟨rfl, rfl⟩ := Prod.mk.inj hb
    exact ⟨[], l', rfl, hsize, (Skipped.of_head hchain).reused h g⟩
  | some x =>
    obtain rfl : p = some x := by simpa [hl] using hp
    obtain ⟨rfl, rfl⟩ := Prod.mk.inj hb
    have hx : x < a.recs.size := h.lt x (by simp [List.mem_of_getLast? hl])
    exact ⟨l, l', rfl, hsize, (Skipped.of_update hchain hl h.nodup hx).reused h g⟩

theorem FreeList.reuse {fs : List RecId} {g : Group} {size : Int} {r : RecId} (h : a.FreeList fs)
    (hg : a.group? = some g) (hr : a.reuse? g size = some (r, b)) : Allocated a b fs r := by
  obtain ⟨l, l', rfl, -, hre⟩ := h.reused hg hr
  have hnot : r ∉ l ++ l' := by
    have := h.nodup
    rw [List.nodup_middle, List.nodup_cons] at this
    exact this.1
  refine ⟨?_, ⟨_, _, hre.node⟩, Or.inl (by simp), fun q _ hq => hre.keeps q hq, ?_, ⟨_, hre.list, hnot⟩,
    fun q hq => ?_, hre.rest⟩
  · rw [hre.size]
    exact h.lt r (by simp)
  · exact Nat.le_of_eq hre.size.symm
  · by_cases hqr : q = r
    · exact Or.inl hqr
    · rw [Occupied, hre.size, hre.other q hqr] at hq
      exact Or.inr hq

theorem occupied_push {n : Node} {q : RecId} (h : ({ a with recs := a.recs.push n } : Arena).Occupied q) :
    q = a.recs.size ∨ a.Occupied q := by
  by_cases hq : q < a.recs.size
  · refine Or.inr ⟨hq, ?_⟩
    have hcode := h.2
    rwa [node_push_of_lt hq] at hcode
  · have hlt : q < a.recs.size + 1 := by simpa using h.1
    exact Or.inl (Nat.le_antisymm (Nat.le_of_lt_succ hlt) (Nat.not_lt.mp hq))

theorem FreeList.scrap {fs : List RecId} {g : Group} (h : a.FreeList fs) (hg : a.group? = some g) :
    ∃ fs', (∀ g', g'.free = (a.scrap g).2.free →
        ({ (a.scrap g).1 with group? := some g' } : Arena).FreeList fs') ∧
      (∀ q < a.recs.size, (a.scrap g).1.node q = a.node q) ∧
      a.recs.size ≤ (a.scrap g).1.recs.size ∧
      (a.scrap g).1 = { a with recs := (a.scrap g).1.recs } ∧
      (∀ q ∈ fs', q < (a.scrap g).1.recs.size) ∧ ∀ q, (a.scrap g).1.Occupied q → a.Occupied q := by
  unfold Arena.scrap
  simp only
  split
  · refine ⟨fs, fun g' hg' => ⟨?_, h.nodup, h.lt, h.freed⟩, fun _ _ => rfl, Nat.le_refl _, rfl, h.lt,
      fun _ hq => hq⟩
    rintro g'' ⟨⟩
    rw [hg']
    exact (h.chain g hg).withGroup
  · have hnew : a.recs.size ∉ fs := fun hm => Nat.lt_irrefl _ (h.lt _ hm)
    have hlt : ∀ q ∈ a.recs.size :: fs, q < a.recs.size + 1 := by
      intro q hq
      rcases List.mem_cons.mp hq with rfl | hq
      · exact Nat.lt_succ_self _
      · exact Nat.lt_succ_of_lt (h.lt q hq)
    refine ⟨a.recs.size :: fs, fun g' hg' => ⟨?_, List.nodup_cons.mpr ⟨hnew, h.nodup⟩, ?_, ?_⟩,
      fun q hq => node_push_of_lt hq, by simp, rfl, by simpa using hlt, fun q hq => ?_⟩
    · rintro g'' ⟨⟩
      refine ⟨hg', ?_⟩
      rw [node_withGroup, node_push_self]
      refine ((h.chain g hg).congr fun q hq => ?_).withGroup
      rw [node_push_of_lt (h.lt q hq)]
    · simpa using hlt
    · intro q hq
      rcases List.mem_cons.mp hq with rfl | hq
      · rw [node_withGroup, node_push_self]
      · rw [node_withGroup, node_push_of_lt (h.lt q hq)]
        exact h.freed q hq
    · rcases occupied_push hq with rfl | hq'
      · exact absurd (congrArg Node.code (node_push_self _)) hq.2
      · exact hq'

theorem FreeList.push {fs : List RecId} {g : Option Group} (static : Bool) (size : Int)
    (h : ({ a with group? := g } : Arena).FreeList fs) :
    Allocated a { a with recs := a.recs.push { static := static, size := size }, group? := g } fs
      a.recs.size where
  lt := by simp
  blank := ⟨static, size, node_push_self _⟩
  fresh := Or.inr (Nat.le_refl _)
  keeps q hq _ := node_push_of_lt hq
  grows := by simp
  free := by
    refine ⟨fs, ⟨fun g' hg' => ?_, h.nodup, fun q hq => ?_, fun q hq => ?_⟩, fun hm => ?_⟩
    · exact (h.chain g' hg').congr fun q hq => congrArg Node.next (node_push_of_lt (h.lt q hq))
    · have := h.lt q hq
      simp only [Array.size_push]
      exact Nat.lt_succ_of_lt this
    · exact (congrArg Node.code (node_push_of_lt (h.lt q hq))).trans (h.freed q hq)
    · exact Nat.lt_irrefl _ (h.lt _ hm)
  occupied q hq := occupied_push hq
  rest := rfl

@[simp] theorem free_carve (g : Group) (size : Int) : (g.carve size).free = g.free := by
  unfold Group.carve
  split <;> rfl

theorem FreeList.carve {fs : List RecId} {g : Group} {size : Int} {r : RecId} (h : a.FreeList fs)
    (hg : a.group? = some g) (hr : a.carve g size = (r, b)) : Allocated a b fs r := by
  unfold Arena.carve at hr
  simp only at hr
  split at hr
  · obtain ⟨fs', hfree, hkeep, hsize, hrest, hlt, hocc⟩ := h.scrap hg
    simp only [Prod.mk.injEq] at hr
    obtain ⟨rfl, rfl⟩ := hr
    have hlist := hfree { (grow (a.scrap g).2 size).carve size with
      live := (grow (a.scrap g).2 size).live + 1,
      liveUnits := (grow (a.scrap g).2 size).liveUnits + size } (by simp [grow])
    have hpush := hlist.push false size
    refine ⟨hpush.lt, hpush.blank, Or.inr hsize, fun q hq _ => ?_, ?_, hpush.free, fun q hq => ?_, ?_⟩
    · exact (node_push_of_lt (Nat.lt_of_lt_of_le hq hsize)).trans (hkeep q hq)
    · simp only [Array.size_push]
      exact Nat.le_succ_of_le hsize
    · exact (hpush.occupied q hq).imp_right (hocc q)
    · rw [hrest]
  · simp only [Prod.mk.injEq] at hr
    obtain ⟨rfl, rfl⟩ := hr
    refine FreeList.push false size ⟨?_, h.nodup, h.lt, h.freed⟩
    rintro g' ⟨⟩
    simpa using (h.chain g hg).withGroup

theorem FreeList.alloc {fs : List RecId} {g : Group} {size : Int} {r : RecId} (h : a.FreeList fs)
    (hg : a.group? = some g) (hr : a.alloc g size = (r, b)) : Allocated a b fs r := by
  unfold Arena.alloc at hr
  simp only at hr
  split at hr
  · rename_i q hq
    exact h.reuse hg (hq.trans (congrArg some hr))
  · exact h.carve hg hr

theorem modifyGet_run {α : Type} (f : Arena → α × Arena) (a : Arena) :
    (EStateM.modifyGet f : TreeM α) a = .ok (f a).1 (f a).2 := rfl

theorem FreeList.alloc_ok {fs : List RecId} {size : Int} {r : RecId} (h : a.FreeList fs)
    (hr : TreeM.alloc size a = .ok r b) : Allocated a b fs r := by
  cases hg : a.group? with
  | none =>
    simp only [TreeM.alloc, TreeM.bind_apply, TreeM.get_apply, hg] at hr
    simp only [modifyGet, MonadStateOf.modifyGet, Arena.modifyGet_run, allocStatic,
      EStateM.Result.ok.injEq] at hr
    obtain ⟨rfl, rfl⟩ := hr
    exact (show ({ a with group? := a.group? } : Arena).FreeList fs from h).push true size
  | some g =>
    simp only [TreeM.alloc, TreeM.bind_apply, TreeM.get_apply, hg, TreeM.ite_apply] at hr
    split at hr
    · exact absurd hr TreeM.throw_ne_ok
    · split at hr
      · exact absurd hr TreeM.throw_ne_ok
      · simp only [modifyGet, MonadStateOf.modifyGet, Arena.modifyGet_run,
          EStateM.Result.ok.injEq] at hr
        exact h.alloc hg (Prod.ext hr.1 hr.2)

/-- Trees that share no record, beside a free list. -/
structure Stand (a : Arena) (ts : List Tree) : Prop where
  holds : ∀ t ∈ ts, a.Holds t
  nodup : (ts.flatMap Tree.recs).Nodup
  free : ∃ fs, a.FreeList fs

/-- Trees that stand side by side, none under a parent. -/
structure Forest (a : Arena) (ts : List Tree) : Prop extends Stand a ts where
  loose : ∀ t ∈ ts, (a.node t.root).sib = {}

theorem FreeList.notMem {fs : List RecId} (h : a.FreeList fs) {t : Tree} (ht : a.Holds t) {r : RecId}
    (hr : r ∈ t.recs) : r ∉ fs := fun hm => ht.live hr (h.freed r hm)

theorem Stand.congr {ts : List Tree} (h : a.Stand ts) (hsize : a.recs.size ≤ b.recs.size)
    (hrecs : ∀ t ∈ ts, ∀ r ∈ t.recs, SamePlace a b r) (hfree : ∃ fs, b.FreeList fs) : b.Stand ts :=
  ⟨fun t ht => (h.holds t ht).of_samePlace hsize (hrecs t ht), h.nodup, hfree⟩

theorem Stand.sublist {ts us : List Tree} (h : a.Stand ts) (hs : us.Sublist ts) : a.Stand us :=
  ⟨fun t ht => h.holds t (hs.subset ht), h.nodup.sublist (hs.flatMap _), h.free⟩

theorem Stand.perm {ts us : List Tree} (h : a.Stand ts) (hp : ts.Perm us) : a.Stand us :=
  ⟨fun t ht => h.holds t (hp.mem_iff.mpr ht), (hp.flatMap_right _).nodup h.nodup, h.free⟩

theorem Forest.perm {ts us : List Tree} (h : a.Forest ts) (hp : ts.Perm us) : a.Forest us :=
  ⟨h.toStand.perm hp, fun t ht => h.loose t (hp.mem_iff.mpr ht)⟩

end Arena

namespace TreeM

open Arena

variable {a b : Arena}

theorem group_apply {g : Group} (hg : a.group? = some g) : group a = .ok g a := by
  rw [group, bind_of_ok (get_apply a), hg]
  rfl

/-- What a new op leaves: it stands where nothing was, and all that was in the arena stays. -/
structure Added (a b : Arena) (n : Node) (r : RecId) : Prop where
  fresh : ¬a.Occupied r
  node : ∃ static size, b.node r = { n with static := static, size := size }
  occupied : ∀ q, b.Occupied q ↔ q = r ∨ a.Occupied q
  keeps : ∀ q, a.Occupied q → b.node q = a.node q
  grows : a.recs.size ≤ b.recs.size
  free : ∃ fs, b.FreeList fs
  rest : b = { a with recs := b.recs, group? := b.group?, seq := a.seq + 1 }

theorem new_adds {fs : List RecId} {t : Opcode} {fl : Flags} {r : RecId} (h : a.FreeList fs)
    (ht : t ≠ .freed) (hr : new t fl a = .ok r b) : Added a b { code := t, flags := fl, id := a.seq + 1 } r := by
  unfold new at hr
  obtain ⟨q, c, hq, hr⟩ := bind_eq_ok.mp hr
  have hall := h.alloc_ok hq
  obtain ⟨static, size, hblank⟩ := hall.blank
  obtain ⟨fs', hfs', hqfs⟩ := hall.free
  simp only [bind_apply, modify, modifyGet, MonadStateOf.modifyGet, Arena.modifyGet_run, get_apply,
    update_apply, pure_apply, EStateM.Result.ok.injEq] at hr
  obtain ⟨rfl, rfl⟩ := hr
  have hself : ∀ f : Node → Node, (Arena.update { c with seq := c.seq + 1 } q f).node q = f (c.node q) :=
    fun f => node_update_self (a := { c with seq := c.seq + 1 }) hall.lt f
  have hother : ∀ (f : Node → Node) (s : RecId), s ≠ q →
      (Arena.update { c with seq := c.seq + 1 } q f).node s = c.node s :=
    fun f s hs => node_update_of_ne (a := { c with seq := c.seq + 1 }) hs f
  have hfresh : ¬a.Occupied q := fun hm =>
    hall.fresh.elim (h.notMem_of_occupied hm) (Nat.not_le.mpr hm.1)
  have hkeep : ∀ s, a.Occupied s → c.node s = a.node s := fun s hs =>
    hall.keeps s hs.1 (h.notMem_of_occupied hs)
  have hne : ∀ s, a.Occupied s → s ≠ q := fun s hs he => hfresh (he ▸ hs)
  refine ⟨hfresh, ⟨static, size, ?_⟩, fun s => ⟨fun hs => ?_, ?_⟩,
    fun s hs => (hother _ s (hne s hs)).trans (hkeep s hs), by simpa using hall.grows,
    ⟨fs', fun g hg => ?_, hfs'.nodup, fun s hs => by simpa using hfs'.lt s hs, fun s hs => ?_⟩, by rw [hall.rest]; rfl⟩
  · have hseq : c.seq = a.seq := by rw [hall.rest]
    rw [hself, hblank, hseq]
  · by_cases hsq : s = q
    · exact Or.inl hsq
    · rw [Occupied, size_update, hother _ s hsq] at hs
      exact hall.occupied s hs
  · rintro (rfl | hs)
    · refine ⟨by simpa using hall.lt, ?_⟩
      rw [hself]
      exact ht
    · rw [Occupied, size_update, hother _ s (hne s hs), hkeep s hs]
      exact ⟨Nat.lt_of_lt_of_le hs.1 hall.grows, hs.2⟩
  · refine (hfs'.chain g hg).congr fun s hs => ?_
    rw [hother _ s fun he => hqfs (he ▸ hs)]
  · rw [hother _ s fun he => hqfs (he ▸ hs)]
    exact hfs'.freed s hs

theorem new_stand {ts : List Tree} {t : Opcode} {fl : Flags} {r : RecId} (h : a.Stand ts)
    (ht : t ≠ .freed) (hr : new t fl a = .ok r b) :
    b.Stand (.mk r { code := t, flags := fl, id := a.seq + 1 } [] :: ts) ∧
      (b.node r).sib = {} ∧ (b.node r).next = none ∧ (b.node r).other = none ∧
      (∀ u ∈ ts, ∀ q ∈ u.recs, b.node q = a.node q) ∧
      b = { a with recs := b.recs, group? := b.group?, seq := a.seq + 1 } := by
  obtain ⟨fs, hfs⟩ := h.free
  have hnew := new_adds hfs ht hr
  obtain ⟨static, size, hnode⟩ := hnew.node
  have hkeep : ∀ u ∈ ts, ∀ q ∈ u.recs, b.node q = a.node q := fun u hu q hq =>
    hnew.keeps q ((h.holds u hu).occupied hq)
  refine ⟨⟨?_, ?_, hnew.free⟩, by rw [hnode], by rw [hnode], by rw [hnode], hkeep, hnew.rest⟩
  · intro u hu
    rcases List.mem_cons.mp hu with rfl | hu
    · refine holds_mk.mpr ⟨⟨((hnew.occupied r).mpr (Or.inl rfl)).1, ?_, ht, ?_, fun _ => ?_, trivial⟩, by simp⟩ <;>
        rw [Tree.root_mk, hnode]
      · simp [Node.plain]
      · rfl
      · rfl
    · exact (h.holds u hu).of_samePlace hnew.grows fun q hq => SamePlace.of_eq (hkeep u hu q hq)
  · rw [List.flatMap_cons]
    refine List.nodup_append.mpr ⟨by simp, h.nodup, ?_⟩
    intro q hq q' hq' he
    obtain rfl : q = r := by simpa using hq
    obtain ⟨u, hu, hq'⟩ := List.mem_flatMap.mp hq'
    exact hnew.fresh (he ▸ (h.holds u hu).occupied hq')

theorem new_ok {ts : List Tree} {t : Opcode} {fl : Flags} {r : RecId} (h : a.Forest ts)
    (ht : t ≠ .freed) (hr : new t fl a = .ok r b) :
    b.Forest (.mk r { code := t, flags := fl, id := a.seq + 1 } [] :: ts) ∧
      (b.node r).next = none ∧ (b.node r).other = none ∧
      (∀ u ∈ ts, ∀ q ∈ u.recs, b.node q = a.node q) ∧
      b = { a with recs := b.recs, group? := b.group?, seq := a.seq + 1 } := by
  obtain ⟨hstand, hsib, hnext, hother, hkeep, hrest⟩ := new_stand h.toStand ht hr
  refine ⟨⟨hstand, fun u hu => ?_⟩, hnext, hother, hkeep, hrest⟩
  rcases List.mem_cons.mp hu with rfl | hu
  · exact hsib
  · rw [hkeep u hu _ u.root_mem_recs]
    exact h.loose u hu

end TreeM

end OpTree
