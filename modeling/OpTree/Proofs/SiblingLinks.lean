import OpTree.Proofs.Fusing
import OpTree.Proofs.Shapes
import Mathlib.Data.Nat.Bitwise

/-!
# The links of siblings

The kids of an op are a list of records, each linked to the next one and the last one to the op. What it does to the
records when a part of such a list is hung elsewhere.
-/

namespace OpTree

set_option autoImplicit false

namespace Flags

def withKids (f : Flags) (some : Bool) : Flags := if some then f ||| kids else f &&& ~~~kids

theorem has_kids (f : Flags) : f.has kids = f.toNat.testBit 2 := by
  have hbit : f.has kids = decide (f.toNat &&& 2 ^ 2 ≠ 0) := by
    rw [has, bne, Bool.eq_iff_iff, Bool.not_eq_true', beq_eq_false_iff_ne, ne_eq, ← UInt16.toNat_inj,
      UInt16.toNat_and, decide_eq_true_eq]
    rfl
  rw [hbit, Nat.and_two_pow]
  cases f.toNat.testBit 2 <;> simp

theorem getLsbD_withKids (f : Flags) (some : Bool) {i : Nat} (hi : i < 16) :
    (f.withKids some).toBitVec.getLsbD i = if i = 2 then some else f.toBitVec.getLsbD i := by
  have hk : ∀ i : Fin 16, kids.toBitVec.getLsbD i = decide (i.1 = 2) := by decide
  have hi' : kids.toBitVec.getLsbD i = decide (i = 2) := hk ⟨i, hi⟩
  cases some with
  | true =>
    rw [withKids, if_pos rfl, UInt16.toBitVec_or, BitVec.getLsbD_or, hi']
    by_cases he : i = 2 <;> simp [he]
  | false =>
    rw [withKids, if_neg Bool.false_ne_true, UInt16.toBitVec_and, UInt16.toBitVec_not, BitVec.getLsbD_and,
      BitVec.getLsbD_not, hi', decide_eq_true hi, Bool.true_and]
    by_cases he : i = 2 <;> simp [he]

@[simp] theorem has_withKids (f : Flags) (some : Bool) : (f.withKids some).has kids = some := by
  rw [has_kids]
  exact getLsbD_withKids f some (by decide)

theorem withKids_withKids (f : Flags) (some some' : Bool) : (f.withKids some).withKids some' = f.withKids some' := by
  refine UInt16.eq_of_toBitVec_eq (BitVec.eq_of_getLsbD_eq fun i hi => ?_)
  rw [getLsbD_withKids _ _ hi, getLsbD_withKids _ _ hi, getLsbD_withKids _ _ hi]
  split <;> rfl

theorem withKids_of_has {f : Flags} {some : Bool} (h : f.has kids = some) : f.withKids some = f := by
  refine UInt16.eq_of_toBitVec_eq (BitVec.eq_of_getLsbD_eq fun i hi => ?_)
  rw [getLsbD_withKids _ _ hi]
  split
  · subst i
    rw [← h, has_kids]
    rfl
  · rfl

end Flags

namespace Sib

/-- The link of what stands before `ks`; `e` is the link behind which nothing stands. -/
def ahead (e : Sib) : List RecId → Sib
  | [] => e
  | k :: _ => next (some k)

theorem ahead_append (e : Sib) (ks ls : List RecId) : e.ahead (ks ++ ls) = (e.ahead ls).ahead ks := by
  cases ks <;> rfl

theorem sibling?_ahead {e : Sib} (he : e.sibling? = none) (ks : List RecId) :
    (e.ahead ks).sibling? = ks.head? := by
  cases ks
  · exact he
  · rfl

@[simp] theorem sibling?_up (p : RecId) : (up p).sibling? = none := rfl

@[simp] theorem sibling?_blank : ({} : Sib).sibling? = none := rfl

end Sib

namespace Arena

open Sib

variable {a b c : Arena}

/-- The links of `ks` lead from each record to the next one; the last one has the link `e`. -/
def Joined (a : Arena) (e : Sib) : List RecId → Prop
  | [] => True
  | k :: ks => (a.node k).sib = e.ahead ks ∧ a.Joined e ks

theorem joined_up {p : RecId} {ks : List RecId} : a.Joined (.up p) ks ↔ a.SibChain p ks := by
  induction ks with
  | nil => exact Iff.rfl
  | cons k ks ih =>
    cases ks with
    | nil => exact and_iff_left trivial
    | cons l ks => exact and_congr Iff.rfl ih

theorem joined_append {e : Sib} {ks ls : List RecId} :
    a.Joined e (ks ++ ls) ↔ a.Joined (e.ahead ls) ks ∧ a.Joined e ls := by
  induction ks with
  | nil => exact (and_iff_right trivial).symm
  | cons k ks ih =>
    rw [List.cons_append, Joined, Joined, ih, ahead_append, and_assoc]

theorem Joined.congr {e : Sib} {ks : List RecId} (h : a.Joined e ks)
    (hs : ∀ k ∈ ks, (b.node k).sib = (a.node k).sib) : b.Joined e ks := by
  induction ks with
  | nil => trivial
  | cons k ks ih =>
    exact ⟨(hs k (List.mem_cons_self ..)).trans h.1, ih h.2 fun j hj => hs j (List.mem_cons_of_mem _ hj)⟩

theorem Joined.redirect {e e' : Sib} {ks : List RecId} (h : a.Joined e ks) (hn : ks.Nodup)
    (hlast : ∀ k, ks.getLast? = some k → (b.node k).sib = e')
    (hinit : ∀ k ∈ ks, ks.getLast? ≠ some k → (b.node k).sib = (a.node k).sib) : b.Joined e' ks := by
  induction ks with
  | nil => trivial
  | cons k ks ih =>
    cases ks with
    | nil => exact ⟨hlast k rfl, trivial⟩
    | cons l ks =>
      have hne : (l :: ks).getLast? ≠ some k := fun he => (List.nodup_cons.mp hn).1 (List.mem_of_getLast? he)
      refine ⟨(hinit k (List.mem_cons_self ..) (by rwa [List.getLast?_cons_cons])).trans h.1, ?_⟩
      refine ih h.2 (List.nodup_cons.mp hn).2 (fun j hj => hlast j ?_) fun j hj hne => hinit j ?_ ?_
      · rwa [List.getLast?_cons_cons]
      · exact List.mem_cons_of_mem _ hj
      · rwa [List.getLast?_cons_cons]

theorem Joined.sib_eq {e : Sib} {ks : List RecId} (h : a.Joined e ks) (h' : b.Joined e ks) :
    ∀ k ∈ ks, (b.node k).sib = (a.node k).sib := by
  induction ks with
  | nil => nofun
  | cons k ks ih =>
    intro j hj
    rcases List.mem_cons.mp hj with rfl | hj
    · exact h'.1.trans h.1.symm
    · exact ih h.2 h'.2 j hj

theorem Joined.getLast {e : Sib} {ks : List RecId} {k : RecId} (h : a.Joined e ks) (hk : ks.getLast? = some k) :
    (a.node k).sib = e := by
  obtain ⟨ks, rfl⟩ := List.getLast?_eq_some_iff.mp hk
  exact (joined_append.mp h).2.1

theorem Joined.siblingsFrom_eq {e : Sib} {ks : List RecId} {fuel : Nat} (h : a.Joined e ks)
    (he : e.sibling? = none) (hf : ks.length ≤ fuel) : a.siblingsFrom fuel ks.head? = ks := by
  induction ks generalizing fuel with
  | nil => cases fuel <;> rfl
  | cons k ks ih =>
    obtain ⟨fuel, rfl⟩ : ∃ n, fuel = n + 1 := ⟨fuel - 1, by rw [List.length_cons] at hf; omega⟩
    have hsib : (a.node k).sibling? = ks.head? := by rw [Node.sibling?, h.1, sibling?_ahead he]
    rw [List.head?_cons, siblingsFrom, hsib]
    exact congrArg (k :: ·) (ih h.2 (by rw [List.length_cons] at hf; omega))

theorem Joined.lastSibling_eq {e : Sib} {k : RecId} {ks : List RecId} (h : a.Joined e (k :: ks))
    (he : e.sibling? = none) (hf : (k :: ks).length ≤ a.bound) :
    (k :: ks).getLast? = some (a.lastSibling k) := by
  have hall : a.siblingsFrom a.bound (some k) = k :: ks := h.siblingsFrom_eq he hf
  rw [lastSibling, hall, List.getLastD_eq_getLast?, List.getLast?_cons, Option.getD_some]

/-- The kid that is met when `del` more have been passed, or the last one if there are too few. -/
theorem Joined.lastDeleted_eq {e : Sib} {k : RecId} {ks : List RecId} {fuel : Nat} {del : Int}
    (h : a.Joined e (k :: ks)) (he : e.sibling? = none) (hf : (k :: ks).length ≤ fuel) (hd : 0 ≤ del) :
    ((k :: ks).take (del.toNat + 1)).getLast? = some (TreeM.lastDeleted a fuel del k) := by
  induction ks generalizing k fuel del with
  | nil =>
    obtain ⟨fuel, rfl⟩ : ∃ n, fuel = n + 1 := ⟨fuel - 1, by rw [List.length_singleton] at hf; omega⟩
    have hsib : (a.node k).sibling? = none := by rw [Node.sibling?, h.1, sibling?_ahead he]; rfl
    rw [TreeM.lastDeleted, hsib, List.take_succ_cons, List.take_nil]
    split <;> rfl
  | cons j ks ih =>
    rw [List.length_cons] at hf
    obtain ⟨fuel, rfl⟩ : ∃ n, fuel = n + 1 := ⟨fuel - 1, by omega⟩
    have hsib : (a.node k).sibling? = some j := by rw [Node.sibling?, h.1, sibling?_ahead he]; rfl
    rw [TreeM.lastDeleted, hsib, List.take_succ_cons]
    by_cases hz : del = 0
    · rw [if_pos hz, hz]
      rfl
    · have hrest := @ih j fuel (del - 1) h.2 (by omega) (by omega)
      have hcount : (del - 1).toNat + 1 = del.toNat := by omega
      rw [hcount] at hrest
      rw [if_neg hz, List.getLast?_cons, hrest]
      rfl

/-- The records `ks` are the kids of `p`, and `p` knows them. -/
structure KidList (a : Arena) (p : RecId) (ks : List RecId) : Prop where
  lt : ∀ r ∈ p :: ks, r < a.recs.size
  nodup : (p :: ks).Nodup
  first : (a.node p).first = ks.head?
  last : (a.node p).opClass.tracksLast = true → (a.node p).last = ks.getLast?
  flag : (a.node p).flags.has Flags.kids = !ks.isEmpty
  joined : a.Joined (.up p) ks

theorem length_le_bound {ks : List RecId} (hn : ks.Nodup) (hlt : ∀ k ∈ ks, k < a.recs.size) :
    ks.length ≤ a.bound := by
  have hsub : ks ⊆ List.range a.recs.size := fun k hk => List.mem_range.mpr (hlt k hk)
  have hle : ks.length ≤ a.recs.size := by simpa using (List.subperm_of_subset hn hsub).length_le
  exact Nat.le_succ_of_le hle

theorem KidList.kids_eq {p : RecId} {ks : List RecId} (h : a.KidList p ks) : a.kids p = ks := by
  have hlen := length_le_bound (List.nodup_cons.mp h.nodup).2 fun r hr => h.lt r (List.mem_cons_of_mem p hr)
  rw [kids, h.first]
  exact h.joined.siblingsFrom_eq rfl hlen

/-- The arena with another link behind a record, if there is one. -/
def link (a : Arena) (k? : Option RecId) (s : Sib) : Arena :=
  match k? with
  | some k => a.update k fun n => { n with sib := s }
  | none => a

@[simp] theorem link_none (s : Sib) : a.link none s = a := rfl

@[simp] theorem link_some (k : RecId) (s : Sib) : a.link (some k) s = a.update k fun n => { n with sib := s } := rfl

section Link

variable {k? : Option RecId} {s : Sib}

theorem node_link_of_ne {r : RecId} (h : k? ≠ some r) : (a.link k? s).node r = a.node r := by
  cases k? with
  | none => rfl
  | some k => exact node_update_of_ne (fun he : r = k => h (he ▸ rfl)) _

theorem node_link_self {r : RecId} (hr : r < a.recs.size) (h : k? = some r) :
    (a.link k? s).node r = { a.node r with sib := s } := by
  subst h
  exact node_update_self hr _

@[simp] theorem size_link : (a.link k? s).recs.size = a.recs.size := by
  cases k? with
  | none => rfl
  | some k => exact size_update a k _

theorem node_link_sib (r : RecId) :
    (a.link k? s).node r = { a.node r with sib := ((a.link k? s).node r).sib } := by
  by_cases h : k? = some r
  · subst h
    rcases node_update_cases (a := a) (r := r) (f := fun n => { n with sib := s }) r with he | ⟨-, he⟩
    · rw [link_some, he]
    · rw [link_some, he]
  · rw [node_link_of_ne h]

theorem local_link {S : List RecId} (h : ∀ k, k? = some k → k ∈ S) : Local a (a.link k? s) S := by
  cases k? with
  | none => exact Local.refl a S
  | some k => exact Local.of_update (h k rfl)

end Link

/-- The arena after the records behind `start` became those from `head` on. -/
def setFront (a : Arena) (p : RecId) (start head : Option RecId) : Arena :=
  match start with
  | none => a.update p fun n => { n with first := head, flags := n.flags.withKids head.isSome }
  | some _ => a.link start (if head.isNone then .up p else .next head)

def setBack (a : Arena) (p : RecId) (last : Option RecId) : Arena :=
  (if (a.node p).opClass.tracksLast then a.update p fun n => { n with last := last } else a).link last (.up p)

/-- The arena after the records behind `start` became those from `head` on, where the kids end with `rest`,
or with `last` if there is no rest. -/
def hang (a : Arena) (p : RecId) (start last head rest : Option RecId) : Arena :=
  if rest.isNone then (a.setFront p start head).setBack p (last.or start) else a.setFront p start head

theorem update_sib (k : RecId) (s t : Sib) :
    (a.update k fun n => { n with sib := s }).update k (fun n => { n with sib := t }) =
      a.update k fun n => { n with sib := t } := update_update ..

section Hang

variable {p r : RecId} {start last head rest : Option RecId}

theorem size_setFront : (a.setFront p start head).recs.size = a.recs.size := by
  cases start with
  | none => exact size_update ..
  | some s => exact size_link

theorem node_setFront_of_ne (hp : r ≠ p) (hs : start ≠ some r) : (a.setFront p start head).node r = a.node r := by
  cases start with
  | none => exact node_update_of_ne hp _
  | some s => exact node_link_of_ne hs

theorem node_setBack_of_ne (hp : r ≠ p) (hl : last ≠ some r) : (a.setBack p last).node r = a.node r := by
  rw [setBack, node_link_of_ne hl]
  split
  · exact node_update_of_ne hp _
  · rfl

theorem node_setBack_last {l : RecId} (hp : l ≠ p) (hl : l < a.recs.size) :
    (a.setBack p (some l)).node l = { a.node l with sib := .up p } := by
  rw [setBack]
  split
  · rw [node_link_self (by simpa using hl) rfl, node_update_of_ne hp]
  · rw [node_link_self hl rfl]

theorem node_setBack_parent (hp : p < a.recs.size) (hl : last ≠ some p) : (a.setBack p last).node p =
    { a.node p with last := if (a.node p).opClass.tracksLast then last else (a.node p).last } := by
  rw [setBack, node_link_of_ne hl]
  split
  · exact node_update_self hp _
  · rfl

theorem node_setFront_parent (hp : p < a.recs.size) (hs : start ≠ some p) : (a.setFront p start head).node p =
    { a.node p with
      first := if start.isNone then head else (a.node p).first,
      flags := if start.isNone then (a.node p).flags.withKids head.isSome else (a.node p).flags } := by
  cases start with
  | none => exact node_update_self hp _
  | some s => exact node_link_of_ne hs

theorem node_hang_of_ne (hp : r ≠ p) (hs : start ≠ some r) (hl : last ≠ some r) :
    (a.hang p start last head rest).node r = a.node r := by
  have hor : last.or start ≠ some r := by
    cases last
    · exact hs
    · exact hl
  rw [hang]
  split
  · rw [node_setBack_of_ne hp hor, node_setFront_of_ne hp hs]
  · exact node_setFront_of_ne hp hs

theorem node_hang_start {s : RecId} (hp : s ≠ p) (hs : s < a.recs.size) (hl : last ≠ some s)
    (hhead : last = none → head = rest) : (a.hang p (some s) last head rest).node s =
      { a.node s with sib := if head.isNone then .up p else .next head } := by
  have hfront : (a.setFront p (some s) head).node s =
      { a.node s with sib := if head.isNone then .up p else .next head } := node_link_self hs rfl
  rw [hang]
  split
  · rename_i hrest
    cases last with
    | none =>
      rw [Option.none_or, node_setBack_last hp (by rwa [size_setFront]), hfront, hhead rfl, if_pos hrest]
    | some l =>
      rw [Option.some_or, node_setBack_of_ne hp hl, hfront]
  · exact hfront

theorem node_hang_last {l : RecId} (hp : l ≠ p) (hs : start ≠ some l) (hl : l < a.recs.size) :
    (a.hang p start (some l) head rest).node l =
      { a.node l with sib := if rest.isNone then .up p else (a.node l).sib } := by
  have hfront : (a.setFront p start head).node l = a.node l := node_setFront_of_ne hp hs
  rw [hang]
  split
  · rw [Option.some_or, node_setBack_last hp (by rwa [size_setFront]), hfront]
  · exact hfront

theorem node_hang_parent (hp : p < a.recs.size) (hs : start ≠ some p) (hl : last ≠ some p) :
    (a.hang p start last head rest).node p =
      { a.node p with
        first := if start.isNone then head else (a.node p).first,
        flags := if start.isNone then (a.node p).flags.withKids head.isSome else (a.node p).flags,
        last := if rest.isNone && (a.node p).opClass.tracksLast then last.or start else (a.node p).last } := by
  have hor : last.or start ≠ some p := by
    cases last
    · exact hs
    · exact hl
  have hfront := @node_setFront_parent a p start head hp hs
  rw [hang]
  split
  · rename_i hrest
    rw [node_setBack_parent (by rwa [size_setFront]) hor, hfront]
    simp only [hrest, Bool.true_and]
    rfl
  · rename_i hrest
    rw [hfront, Bool.eq_false_of_not_eq_true hrest, Bool.false_and, if_neg Bool.false_ne_true]

theorem node_hang_sib (hp : r ≠ p) :
    (a.hang p start last head rest).node r =
      { a.node r with sib := ((a.hang p start last head rest).node r).sib } := by
  have hfront : (a.setFront p start head).node r =
      { a.node r with sib := ((a.setFront p start head).node r).sib } := by
    cases start with
    | none => rw [setFront, node_update_of_ne hp]
    | some s => exact node_link_sib r
  rw [hang]
  split
  · rw [setBack, node_link_sib]
    split
    · rw [node_update_of_ne hp, hfront]
    · rw [hfront]
  · exact hfront

end Hang

end Arena

end OpTree
