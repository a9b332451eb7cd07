import OpTree.Proofs.Forest
import OpTree.Proofs.Members
import OpTree.Check
import OpTree.Snapshot

/-!
# Ids

A tree that passes the check has no id twice, so every id of it resolves in its snapshot, and to the op
that has it.
-/

namespace OpTree

set_option autoImplicit false

namespace Arena

open OpTree.Tree

variable {a : Arena}

def idsOf (a : Arena) (ts : List Tree) : List Nat := (ts.flatMap Tree.recs).map fun r => (a.node r).id

theorem idsOf_perm (r : RecId) (o : Node) (ks ts : List Tree) :
    (a.idsOf (.mk r o ks :: ts)).Perm ((a.node r).id :: a.idsOf (ks.reverse ++ ts)) := by
  rw [idsOf, List.flatMap_cons, recs_mk, List.cons_append, List.map_cons, idsOf]
  refine List.Perm.cons _ (List.Perm.map _ ?_)
  rw [List.flatMap_append]
  exact ((List.reverse_perm ks).flatMap_right _).symm.append_right _

theorem nodup_of_check {fuel : Nat} {seen : IdSet} {ts : List Tree} (hh : ∀ t ∈ ts, a.Holds t)
    (hn : ∀ t ∈ ts, t.recs.Nodup) (hok : a.checkStack fuel seen (ts.map Tree.root) = none) :
    (a.idsOf ts).Nodup ∧ ∀ i ∈ a.idsOf ts, seen.contains i = false := by
  induction fuel generalizing seen ts with
  | zero =>
    cases ts with
    | nil => exact ⟨List.nodup_nil, nofun⟩
    | cons t ts => cases hok
  | succ fuel ih =>
    cases ts with
    | nil => exact ⟨List.nodup_nil, nofun⟩
    | cons t ts =>
      obtain ⟨r, o, ks⟩ := t
      have ht := hh _ (List.mem_cons_self ..)
      have htn := hn _ (List.mem_cons_self ..)
      have hkids : a.kids r = ks.map Tree.root := ht.kids_eq htn
      rw [List.map_cons, root_mk, checkStack, IdSet.mark] at hok
      cases hseen : seen.contains (a.node r).id with
      | true =>
        rw [hseen] at hok
        cases hok
      | false =>
        rw [hseen] at hok
        simp only [Bool.false_eq_true, if_false] at hok
        split at hok
        · cases hok
        · rw [hkids, ← List.map_reverse, ← List.map_append] at hok
          have hrest : ∀ k ∈ ks.reverse ++ ts, a.Holds k ∧ k.recs.Nodup := by
            intro k hk
            rcases List.mem_append.mp hk with hk | hk
            · have hk' := List.mem_reverse.mp hk
              exact ⟨ht.kid hk', nodup_of_mem (nodup_kids htn) hk'⟩
            · exact ⟨hh k (List.mem_cons_of_mem _ hk), hn k (List.mem_cons_of_mem _ hk)⟩
          obtain ⟨hnd, hnew⟩ := ih (fun k hk => (hrest k hk).1) (fun k hk => (hrest k hk).2) hok
          have hperm := idsOf_perm (a := a) r o ks ts
          refine ⟨hperm.nodup_iff.mpr (List.nodup_cons.mpr ⟨fun hm => ?_, hnd⟩), fun i hi => ?_⟩
          · have := hnew _ hm
            rw [IdSet.contains_insert_iff.mpr (Or.inl rfl)] at this
            cases this
          · rcases List.mem_cons.mp (hperm.mem_iff.mp hi) with rfl | hi
            · exact hseen
            · have := hnew i hi
              by_contra hc
              rw [IdSet.contains_insert_iff.mpr (Or.inr (by simpa using hc))] at this
              cases this

theorem preorderStack_eq {fuel : Nat} {ts : List (Tree × Nat)} (hh : ∀ p ∈ ts, a.Holds p.1)
    (hn : ∀ p ∈ ts, p.1.recs.Nodup) (hf : (ts.flatMap fun p => p.1.recs).length ≤ fuel) :
    (a.preorderStack fuel (ts.map fun p => (p.1.root, p.2))).map Prod.fst = ts.flatMap fun p => p.1.recs := by
  induction fuel generalizing ts with
  | zero =>
    cases ts with
    | nil => rfl
    | cons p ts =>
      obtain ⟨⟨r, o, ks⟩, d⟩ := p
      simp at hf
  | succ fuel ih =>
    cases ts with
    | nil => rfl
    | cons p ts =>
      obtain ⟨⟨r, o, ks⟩, d⟩ := p
      have ht := hh _ (List.mem_cons_self ..)
      have htn := hn _ (List.mem_cons_self ..)
      have hkids : a.kids r = ks.map Tree.root := ht.kids_eq htn
      have hstack : (a.kids r).map (fun k => (k, d + 1)) ++ ts.map (fun p => (p.1.root, p.2)) =
          ((ks.map fun k => (k, d + 1)) ++ ts).map fun p => (p.1.root, p.2) := by
        rw [hkids, List.map_append, List.map_map, List.map_map]
        rfl
      have hflat : ((ks.map fun k => (k, d + 1)) ++ ts).flatMap (fun p => p.1.recs) =
          ks.flatMap Tree.recs ++ ts.flatMap fun p => p.1.recs := by
        rw [List.flatMap_append, List.flatMap_map]
      rw [List.map_cons, root_mk, preorderStack, List.map_cons, hstack, ih, hflat, List.flatMap_cons, recs_mk]
      · rfl
      · intro q hq
        rcases List.mem_append.mp hq with hq | hq
        · obtain ⟨k, hk, rfl⟩ := List.mem_map.mp hq
          exact ht.kid hk
        · exact hh q (List.mem_cons_of_mem _ hq)
      · intro q hq
        rcases List.mem_append.mp hq with hq | hq
        · obtain ⟨k, hk, rfl⟩ := List.mem_map.mp hq
          exact nodup_of_mem (nodup_kids htn) hk
        · exact hn q (List.mem_cons_of_mem _ hq)
      · rw [hflat]
        rw [List.flatMap_cons, recs_mk, List.length_append, List.length_cons] at hf
        rw [List.length_append]
        omega

theorem preorder_eq {t : Tree} (hh : a.Holds t) (hn : t.recs.Nodup) :
    (a.preorder (some t.root)).map Prod.fst = t.recs := by
  have hlen := hh.length_recs_le hn
  have hfuel : ([(t, 0)].flatMap fun p : Tree × Nat => p.1.recs).length ≤ a.bound * a.bound := by
    have hb : a.bound ≤ a.bound * a.bound := Nat.le_mul_of_pos_left _ (Nat.succ_pos _)
    rw [List.flatMap_singleton]
    exact Nat.le_trans (Nat.le_trans hlen (Nat.le_succ _)) hb
  have heq := @preorderStack_eq a _ [(t, 0)] (by simpa using hh) (by simpa using hn) hfuel
  rw [List.flatMap_singleton] at heq
  exact heq

theorem op?_snapshot {t : Tree} {name : Bytes} {start : Option RecId} {r : RecId} (hh : a.Holds t)
    (hn : t.recs.Nodup) (hok : a.check? t.root = none) (hr : r ∈ t.recs) :
    (a.snapshot name (some t.root) start).op? (a.node r).id = some (a.snapOp r) := by
  have hnodup : (t.recs.map fun q => (a.node q).id).Nodup := by
    have h := (@nodup_of_check a _ _ [t] (by simpa using hh) (by simpa using hn) hok).1
    rwa [idsOf, List.flatMap_singleton] at h
  have hops : (a.snapshot name (some t.root) start).ops = t.recs.map a.snapOp := by
    rw [← preorder_eq hh hn, List.map_map]
    rfl
  rw [Snapshot.op?, hops]
  obtain ⟨x, hx⟩ : ∃ x, (t.recs.map a.snapOp).find? (fun o => o.id == ((a.node r).id : Int)) = some x := by
    rw [← Option.isSome_iff_exists, List.find?_isSome]
    exact ⟨a.snapOp r, List.mem_map.mpr ⟨r, hr, rfl⟩, beq_self_eq_true _⟩
  rw [hx]
  obtain ⟨q, hq, rfl⟩ := List.mem_map.mp (List.mem_of_find?_eq_some hx)
  have hid : ((a.node q).id : Int) = (a.node r).id := by
    have h := List.find?_some hx
    exact eq_of_beq h
  rw [List.inj_on_of_nodup_map hnodup hq hr (Int.ofNat.inj hid)]

end Arena

end OpTree
