import OpTree.Proofs.Building
import OpTree.Build.Basic

/-!
# Void contexts

Which ops are marked when a tree is evaluated for its side effects only: the root, and below it
those whose value becomes the value of the root.
-/

namespace OpTree

set_option autoImplicit false

theorem Flags.withWant_withWant (f : Flags) (w w' : Want) :
    (f.withWant w).withWant w' = f.withWant w' := by
  have hw : w.toBits &&& ~~~wantMask = 0 := by cases w <;> decide
  have hdistrib : ∀ x y z : UInt16, (x ||| y) &&& z = (x &&& z) ||| (y &&& z) := fun x y z =>
    UInt16.toBitVec_inj.mp (by simpa using BitVec.and_or_distrib_right)
  rw [withWant, withWant, withWant, hdistrib, hw, UInt16.and_assoc, UInt16.and_self, UInt16.or_zero]

namespace Tree

mutual

def voided : Tree → List RecId
  | mk r o ks => r :: (match o.code with
    | .null => voidedBelow ks
    | .and | .or | .dor => voidedSecond ks
    | .condExpr => voidedSecond ks ++ voidedThird ks
    | .list | .lineseq | .scope => voidedAll ks
    | _ => [])

/-- A null op passes the context on to a branching op under it. -/
def voidedBelow : List Tree → List RecId
  | k :: _ => if k.op.opClass = .logop then voided k else []
  | [] => []

def voidedSecond : List Tree → List RecId
  | _ :: k :: _ => voided k
  | _ => []

def voidedThird : List Tree → List RecId
  | _ :: _ :: k :: _ => voided k
  | _ => []

def voidedAll : List Tree → List RecId
  | [] => []
  | k :: ks => (if k.op.code ≠ .pushmark then voided k else []) ++ voidedAll ks

end

theorem voidedAll_subset {ks : List Tree} (h : ∀ k ∈ ks, k.voided ⊆ k.recs) :
    voidedAll ks ⊆ ks.flatMap recs := by
  induction ks with
  | nil => simp [voidedAll]
  | cons k ks ih =>
    rw [voidedAll, List.flatMap_cons]
    refine List.append_subset_of_subset_of_subset ?_ ?_
    · refine List.Subset.trans ?_ (List.subset_append_left _ _)
      split
      · exact h k (List.mem_cons_self ..)
      · exact List.nil_subset _
    · exact List.Subset.trans (ih fun j hj => h j (List.mem_cons_of_mem k hj))
        (List.subset_append_right _ _)

theorem voided_subset (t : Tree) : t.voided ⊆ t.recs := by
  induction t using induct with
  | h r o ks ih =>
    have hkid : ∀ k ∈ ks, k.voided ⊆ ks.flatMap recs := fun k hk =>
      List.Subset.trans (ih k hk) fun q hq => List.mem_flatMap.mpr ⟨k, hk, hq⟩
    have hbelow : voidedBelow ks ⊆ ks.flatMap recs := by
      unfold voidedBelow
      split
      · split
        · exact hkid _ (by simp)
        · exact List.nil_subset _
      · exact List.nil_subset _
    have hsecond : voidedSecond ks ⊆ ks.flatMap recs := by
      unfold voidedSecond
      split
      · exact hkid _ (by simp)
      · exact List.nil_subset _
    have hthird : voidedThird ks ⊆ ks.flatMap recs := by
      unfold voidedThird
      split
      · exact hkid _ (by simp)
      · exact List.nil_subset _
    rw [voided, recs_mk]
    refine List.cons_subset_cons r ?_
    split
    case h_1 => exact hbelow
    case h_2 | h_3 | h_4 => exact hsecond
    case h_5 => exact List.append_subset_of_subset_of_subset hsecond hthird
    case h_6 | h_7 | h_8 => exact voidedAll_subset ih
    case h_9 => exact List.nil_subset _

def markVoid (s : List RecId) (r : RecId) (o : Node) : Node := if r ∈ s then o.withWant .void else o

theorem markVoid_code (s : List RecId) (r : RecId) (o : Node) : (markVoid s r o).code = o.code := by
  unfold markVoid
  split <;> rfl

def void (t : Tree) : Tree := t.mapOps (markVoid t.voided)

end Tree

namespace Arena

open OpTree.Tree

variable {a b c : Arena}

/-- The records in `s` are made void, and nothing else changes. -/
structure Marks (a b : Arena) (s : List RecId) : Prop extends Local a b s where
  marked : ∀ r ∈ s, b.node r = (a.node r).withWant .void

theorem Marks.node {s : List RecId} (h : Marks a b s) (r : RecId) :
    b.node r = markVoid s r (a.node r) := by
  unfold markVoid
  split
  · exact h.marked r ‹_›
  · exact h.outside r ‹_›

theorem Marks.refl (a : Arena) : Marks a a [] := ⟨Local.refl a [], by simp⟩

theorem withWant_withWant (n : Node) (w w' : Want) : (n.withWant w).withWant w' = n.withWant w' := by
  simp only [Node.withWant, Flags.withWant_withWant]

theorem Marks.trans {s t : List RecId} (h : Marks a b s) (h' : Marks b c t) :
    Marks a c (s ++ t) where
  toLocal := h.toLocal.trans h'.toLocal (List.subset_append_left _ _) (List.subset_append_right _ _)
  marked r hr := by
    rw [h'.node r, h.node r]
    unfold markVoid
    by_cases hs : r ∈ s <;> by_cases ht : r ∈ t
    · rw [if_pos hs, if_pos ht, withWant_withWant]
    · rw [if_pos hs, if_neg ht]
    · rw [if_neg hs, if_pos ht]
    · exact absurd (List.mem_append.mp hr) (by simp [hs, ht])

theorem Marks.holds {s : List RecId} {t : Tree} (h : Marks a b s) (hh : a.Holds t) :
    b.Holds (t.mapOps (markVoid s)) := by
  have hlinks : ∀ r, (b.node r).first = (a.node r).first ∧ (b.node r).last = (a.node r).last ∧
      (b.node r).sib = (a.node r).sib ∧ (b.node r).plain = markVoid s r (a.node r).plain := by
    intro r
    rw [h.node r]
    unfold markVoid
    split <;> exact ⟨rfl, rfl, rfl, rfl⟩
  refine hh.mapOps (Nat.le_of_eq h.size.symm) (fun u hu => ?_) (fun r _ => ?_) fun u _ k _ =>
    (hlinks _).2.2.1
  · have hfit := hh u hu
    refine ⟨by rw [(hlinks _).2.2.2, hfit.op], by rw [markVoid_code]; exact hfit.live, ?_⟩
    unfold markVoid
    split <;> rfl
  · exact ⟨(hlinks r).1, (hlinks r).2.1⟩

theorem Marks.sameLinks {s : List RecId} (h : Marks a b s) (r : RecId) : SameLinks a b r := by
  rw [SameLinks, h.node r]
  unfold markVoid
  split <;> exact ⟨rfl, rfl⟩

theorem Marks.first {s : List RecId} (h : Marks a b s) (r : RecId) :
    (b.node r).first = (a.node r).first := by
  rw [h.node r]
  unfold markVoid
  split <;> rfl

theorem Marks.kids {s : List RecId} {t : Tree} (h : Marks a b s) (hh : a.Holds t)
    (hn : t.recs.Nodup) : b.kids t.root = t.kids.map Tree.root := by
  have := (h.holds hh).kids_eq (by simpa using hn)
  rwa [root_mapOps, kids_mapOps, map_root_mapOps] at this

theorem Marks.holds_of_disjoint {s : List RecId} {t : Tree} (h : Marks a b s) (hh : a.Holds t)
    (hd : ∀ r ∈ t.recs, r ∉ s) : b.Holds t :=
  hh.of_samePlace (Nat.le_of_eq h.size.symm) fun r hr => SamePlace.of_eq (h.outside r (hd r hr))

end Arena

namespace Build

open Arena OpTree.Tree TreeM

variable {a b : Arena}

theorem setWant_marks {r : RecId} (hr : r < a.recs.size) :
    ∃ b, setWant r .void a = .ok () b ∧ Marks a b [r] := by
  refine ⟨_, rfl, Local.of_update (List.mem_singleton.mpr rfl), fun q hq => ?_⟩
  obtain rfl := List.mem_singleton.mp hq
  exact node_update_self hr _

theorem need_kid {r : RecId} {i : Int} {k? : Option Tree} {x : RecId → TreeM Unit}
    (hk : a.kid? r i = k?.map Tree.root) (hok : (do x (← need (← kid? r i))) a = .ok () b) :
    ∃ k, k? = some k ∧ x k.root a = .ok () b := by
  have hkid : TreeM.kid? r i a = .ok (a.kid? r i) a := rfl
  rw [bind_of_ok hkid, hk] at hok
  cases k? with
  | none => exact absurd hok throw_ne_ok
  | some k => exact ⟨k, rfl, hok⟩

theorem void_marks (fuel : Nat) :
    (∀ {t : Tree} {a b : Arena}, a.Holds t → t.recs.Nodup → voidFrom fuel t.root a = .ok () b →
      Marks a b t.voided) ∧
    ∀ {ks : List Tree} {a b : Arena}, (∀ k ∈ ks, a.Holds k) → (ks.flatMap Tree.recs).Nodup →
      voidAll fuel (ks.map Tree.root) a = .ok () b → Marks a b (voidedAll ks) := by
  induction fuel with
  | zero =>
    refine ⟨fun _ _ hok => absurd hok throw_ne_ok, fun {ks a b} _ _ hok => ?_⟩
    cases ks with
    | nil =>
      obtain ⟨-, rfl⟩ := pure_eq_ok.mp hok
      exact Marks.refl a
    | cons k ks => exact absurd hok throw_ne_ok
  | succ fuel ih =>
    obtain ⟨ihTree, ihAll⟩ := ih
    constructor
    · intro t a b hh hn hok
      obtain ⟨r, o, ks⟩ := t
      obtain ⟨c, hset, hac⟩ := setWant_marks (show r < a.recs.size from hh.fits.lt)
      have hcode : (c.node r).code = o.code := by
        rw [hac.node r, markVoid_code, ← Node.plain_code, show (a.node r).plain = o from hh.fits.op]
      have hfirst : (c.node r).first = ks.head?.map Tree.root := (hac.first r).trans hh.fits.first
      have hkids : c.kids r = ks.map Tree.root := hac.kids hh hn
      have hc : ∀ k ∈ ks, c.Holds k := fun k hk =>
        hac.holds_of_disjoint (hh.kid hk) fun q hq hm => root_notMem_kids hn
          (List.mem_flatMap.mpr ⟨k, hk, List.mem_singleton.mp hm ▸ hq⟩)
      have hkn : (ks.flatMap Tree.recs).Nodup := nodup_kids hn
      have hkid? : ∀ i : Nat, c.kid? r i = ks[i]?.map Tree.root := fun i => by
        simp [Arena.kid?, hkids]
      rw [root_mk, voidFrom, bind_of_ok hset, bind_of_ok (node_apply _ _), hcode] at hok
      rw [voided]
      refine hac.trans (s := [r]) ?_
      cases ho : o.code with
      | null =>
        rw [ho] at hok
        simp only at hok ⊢
        rw [bind_of_ok (node_apply _ _), hfirst] at hok
        cases ks with
        | nil =>
          obtain ⟨-, rfl⟩ := pure_eq_ok.mp hok
          rw [voidedBelow]
          exact Marks.refl c
        | cons k ks =>
          have hk := hc k (List.mem_cons_self ..)
          have hclass : (c.node k.root).opClass = k.op.opClass := by
            rw [← Node.opClass_plain, hk.fits.op]
          simp only [List.head?_cons, Option.map_some] at hok
          rw [bind_of_ok (node_apply _ _), hclass] at hok
          rw [voidedBelow]
          split at hok
          · rw [if_pos ‹_›]
            exact ihTree hk (nodup_of_mem hkn (List.mem_cons_self ..)) hok
          · obtain ⟨-, rfl⟩ := pure_eq_ok.mp hok
            rw [if_neg ‹_›]
            exact Marks.refl c
      | and | or | dor =>
        rw [ho] at hok
        obtain ⟨k, hk, hok⟩ := need_kid (hkid? 1) hok
        have hmem := List.mem_of_getElem? hk
        have hsecond : voidedSecond ks = k.voided := by
          rcases ks with _ | ⟨x, _ | ⟨y, ys⟩⟩
          · cases hk
          · cases hk
          · obtain rfl := Option.some.inj hk
            rw [voidedSecond]
        simp only [hsecond]
        exact ihTree (hc k hmem) (nodup_of_mem hkn hmem) hok
      | condExpr =>
        rw [ho] at hok
        obtain ⟨k, hk, hok⟩ := need_kid (x := fun k => do
          voidFrom fuel k
          voidFrom fuel (← need (← kid? r 2))) (hkid? 1) hok
        obtain ⟨_, d, hvoid, hok⟩ := bind_eq_ok.mp hok
        have hcd := ihTree (hc k (List.mem_of_getElem? hk))
          (nodup_of_mem hkn (List.mem_of_getElem? hk)) hvoid
        have hd : d.kid? r 2 = ks[2]?.map Tree.root := by
          have hdk : d.kids r = ks.map Tree.root := (hac.trans hcd).kids hh hn
          simp [Arena.kid?, hdk]
        obtain ⟨j, hj, hok⟩ := need_kid hd hok
        rcases ks with _ | ⟨x, _ | ⟨y, _ | ⟨z, zs⟩⟩⟩
        · cases hj
        · cases hj
        · cases hj
        · obtain rfl := Option.some.inj hk
          obtain rfl := Option.some.inj hj
          simp only [voidedSecond, voidedThird]
          simp only [List.flatMap_cons] at hkn
          have hyz : ∀ q ∈ z.recs, q ∉ y.recs := fun q hz hy =>
            (List.nodup_append.mp (List.nodup_append.mp hkn).2.1).2.2 q hy q
              (List.mem_append_left _ hz) rfl
          refine hcd.trans (ihTree (hcd.holds_of_disjoint (hc z (by simp)) fun q hq hm => ?_) ?_ hok)
          · exact hyz q hq (voided_subset y hm)
          · exact (List.nodup_append.mp (List.nodup_append.mp (List.nodup_append.mp hkn).2.1).2.1).1
      | list | lineseq | scope =>
        rw [ho] at hok
        simp only at hok ⊢
        rw [bind_of_ok (kids_apply _ _), hkids] at hok
        exact ihAll hc hkn hok
      | _ =>
        rw [ho] at hok
        obtain ⟨-, rfl⟩ := pure_eq_ok.mp hok
        exact Marks.refl c
    · intro ks a b hh hn hok
      cases ks with
      | nil =>
        obtain ⟨-, rfl⟩ := pure_eq_ok.mp hok
        exact Marks.refl a
      | cons k ks =>
        have hk := hh k (List.mem_cons_self ..)
        have hcode : (a.node k.root).code = k.op.code := by rw [← Node.plain_code, hk.fits.op]
        rw [List.map_cons, voidAll, bind_of_ok (node_apply _ _), hcode] at hok
        rw [voidedAll]
        split at hok
        · rw [if_pos ‹_›]
          obtain ⟨_, c, hvoid, hok⟩ := bind_eq_ok.mp hok
          have hac := ihTree hk (nodup_of_mem hn (List.mem_cons_self ..)) hvoid
          rw [List.flatMap_cons, List.nodup_append] at hn
          refine hac.trans (ihAll (fun j hj => ?_) hn.2.1 hok)
          refine hac.holds_of_disjoint (hh j (List.mem_cons_of_mem k hj)) fun q hq hm => ?_
          exact hn.2.2 q (voided_subset k hm) q (List.mem_flatMap.mpr ⟨j, hj, hq⟩) rfl
        · rw [if_neg ‹_›, List.nil_append]
          rw [List.flatMap_cons, List.nodup_append] at hn
          exact ihAll (fun j hj => hh j (List.mem_cons_of_mem k hj)) hn.2.1 hok

theorem void_open {s t : Tree} {ts : List Tree} (h : a.Open s (t :: ts))
    (hok : void t.root a = .ok () b) : b.Open s (t.void :: ts) := by
  have hf := h.forest.perm (List.Perm.swap t s ts)
  have hh := hf.holds t (by simp)
  rw [Build.void, bind_of_ok (get_apply _)] at hok
  have hab := (void_marks _).1 hh hf.toStand.nodup_head hok
  have hlocal : Local a b t.recs :=
    hab.toLocal.trans (Local.refl b t.recs) (voided_subset t) fun _ hq => hq
  have hforest : b.Forest (t.void :: s :: ts) := by
    refine hf.head hlocal (hab.holds hh) (recs_mapOps _ t) ?_
    rw [Tree.void, root_mapOps, hab.node]
    unfold markVoid
    split <;> exact hf.loose t (by simp)
  refine ⟨hforest.perm (List.Perm.swap s _ ts), (hab.sameLinks _).1.trans h.next,
    fun k hk => (h.kids k hk).congr fun q _ => hab.sameLinks q, fun u hu => ?_⟩
  rcases List.mem_cons.mp hu with rfl | hu
  · refine ((h.ready t (by simp)).congr fun q _ => hab.sameLinks q).mapOps fun u _ => ?_
    exact .of_code_eq (markVoid_code _ _ _)
  · exact (h.ready u (by simp [hu])).congr fun q _ => hab.sameLinks q

end Build

end OpTree
