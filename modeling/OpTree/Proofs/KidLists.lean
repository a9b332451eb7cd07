import OpTree.Proofs.SiblingLinks

/-!
# Kid lists

Splicing as an operation on lists. Kids and their parent are told apart by the link of the last kid
alone, so a list of records is described together with the link it ends in: the kids of `p` end in
the link up to `p`, a sealed chain ends in a blank one.
-/

namespace OpTree

set_option autoImplicit false

namespace Arena

open Sib

variable {a b c : Arena}

/-- The records `ins` took the place of `cut` between the kids `pre` and `post` of `p`. Of `p` only what it
knows of its kids is changed, of the kids only the links between them, and nothing else. -/
structure Spliced (a b : Arena) (p : RecId) (pre cut ins post : List RecId) : Prop
    extends Local a b (p :: (pre ++ cut ++ ins)) where
  kids : b.KidList p (pre ++ ins ++ post)
  cut_off : b.Joined {} cut
  parent : b.node p =
    { a.node p with
      first := (pre ++ ins ++ post).head?,
      flags := (a.node p).flags.withKids !(pre ++ ins ++ post).isEmpty,
      last := if (a.node p).opClass.tracksLast then (pre ++ ins ++ post).getLast? else (a.node p).last }
  kid : ∀ r ≠ p, b.node r = { a.node r with sib := (b.node r).sib }

section Spliced

variable {p : RecId} {pre cut ins post : List RecId}

theorem local_hang {S : List RecId} {start last head rest : Option RecId} (hp : p ∈ S)
    (hs : ∀ r, start = some r → r ∈ S) (hl : ∀ r, last = some r → r ∈ S) :
    Local a (a.hang p start last head rest) S := by
  have hfront : Local a (a.setFront p start head) S := by
    cases start with
    | none => exact Local.of_update hp
    | some s => exact local_link hs
  have hor : ∀ r, last.or start = some r → r ∈ S := by
    cases last
    · exact hs
    · exact hl
  rw [hang]
  split
  · refine hfront.trans ?_ (fun _ h => h) fun _ h => h
    rw [setBack]
    split
    · exact (Local.of_update hp).trans (local_link hor) (fun _ h => h) fun _ h => h
    · exact local_link hor
  · exact hfront

def resplice (a : Arena) (p : RecId) (pre cut ins post : List RecId) : Arena :=
  ((a.link cut.getLast? {}).link ins.getLast? (.next post.head?)).hang p pre.getLast? ins.getLast?
    (ins ++ post).head? post.head?

structure Apart (p : RecId) (pre cut ins post : List RecId) : Prop where
  parent : p ∉ pre ++ cut ++ ins ++ post
  pre : ∀ r ∈ pre, r ∉ cut ∧ r ∉ ins ∧ r ∉ post
  cut : ∀ r ∈ cut, r ∉ ins ∧ r ∉ post
  ins : ∀ r ∈ ins, r ∉ post

theorem apart_of_nodup (hn : (p :: (pre ++ cut ++ ins ++ post)).Nodup) : Apart p pre cut ins post := by
  obtain ⟨hp, hn⟩ := List.nodup_cons.mp hn
  rw [List.nodup_append, List.nodup_append, List.nodup_append] at hn
  obtain ⟨⟨⟨-, -, hpc⟩, -, hpi⟩, -, hpo⟩ := hn
  refine ⟨hp, fun r hr => ⟨fun h => hpc r hr r h rfl, fun h => ?_, fun h => ?_⟩, fun r hr => ⟨fun h => ?_, fun h => ?_⟩,
    fun r hr h => ?_⟩
  · exact hpi r (List.mem_append_left _ hr) r h rfl
  · exact hpo r (by simp [hr]) r h rfl
  · exact hpi r (List.mem_append_right _ hr) r h rfl
  · exact hpo r (by simp [hr]) r h rfl
  · exact hpo r (by simp [hr]) r h rfl

theorem resplice_local : Local a (a.resplice p pre cut ins post) (p :: (pre ++ cut ++ ins)) := by
  have hmem : ∀ {ks : List RecId}, ks ⊆ pre ++ cut ++ ins → ∀ r, ks.getLast? = some r → r ∈ p :: (pre ++ cut ++ ins) :=
    fun h r hr => List.mem_cons_of_mem p (h (List.mem_of_getLast? hr))
  have hcut := @local_link a cut.getLast? {} _ (hmem (by simp))
  have hmem' : ∀ r, ins.getLast? = some r → r ∈ p :: (pre ++ cut ++ ins) := hmem (by simp)
  have hins := hcut.trans (local_link (s := .next post.head?) hmem') (fun _ h => h) fun _ h => h
  exact hins.trans (local_hang (List.mem_cons_self ..) (hmem (by simp)) (hmem (by simp))) (fun _ h => h) fun _ h => h

theorem resplice_out {r : RecId} (hr : r ≠ p) (hpre : pre.getLast? ≠ some r) (hcut : cut.getLast? ≠ some r)
    (hins : ins.getLast? ≠ some r) : (a.resplice p pre cut ins post).node r = a.node r := by
  rw [resplice, node_hang_of_ne hr hpre hins, node_link_of_ne hins, node_link_of_ne hcut]

theorem resplice_sib {r : RecId} (hr : r ≠ p) : (a.resplice p pre cut ins post).node r =
    { a.node r with sib := ((a.resplice p pre cut ins post).node r).sib } := by
  rw [resplice, node_hang_sib hr, node_link_sib, node_link_sib]

section Apart

variable (h : Apart p pre cut ins post)

include h

theorem Apart.ne {k : RecId} (hk : k ∈ pre ++ cut ++ ins ++ post) : k ≠ p := fun he => h.parent (he ▸ hk)

theorem Apart.sib_cut {k : RecId} (hk : cut.getLast? = some k) (hlt : k < a.recs.size) :
    ((a.resplice p pre cut ins post).node k).sib = {} := by
  have hmem := List.mem_of_getLast? hk
  have hins : ins.getLast? ≠ some k := fun hi => (h.cut k hmem).1 (List.mem_of_getLast? hi)
  have hpre : pre.getLast? ≠ some k := fun hi => (h.pre k (List.mem_of_getLast? hi)).1 hmem
  rw [resplice, node_hang_of_ne (h.ne (by simp [hmem])) hpre hins, node_link_of_ne hins, node_link_self hlt hk]

theorem Apart.sib_ins {k : RecId} (hk : ins.getLast? = some k) (hlt : k < a.recs.size) :
    ((a.resplice p pre cut ins post).node k).sib = (up p).ahead post := by
  have hmem := List.mem_of_getLast? hk
  have hpre : pre.getLast? ≠ some k := fun hi => (h.pre k (List.mem_of_getLast? hi)).2.1 hmem
  rw [resplice, hk, node_hang_last (h.ne (by simp [hmem])) hpre (by simpa using hlt),
    node_link_self (by simpa using hlt) rfl]
  cases post <;> rfl

theorem Apart.sib_pre {k : RecId} (hk : pre.getLast? = some k) (hlt : k < a.recs.size) :
    ((a.resplice p pre cut ins post).node k).sib = (up p).ahead (ins ++ post) := by
  have hmem := List.mem_of_getLast? hk
  have hins : ins.getLast? ≠ some k := fun hi => (h.pre k hmem).2.1 (List.mem_of_getLast? hi)
  have hhead : ins.getLast? = none → (ins ++ post).head? = post.head? := by
    intro hi
    rw [List.getLast?_eq_none_iff.mp hi, List.nil_append]
  rw [resplice, hk, node_hang_start (h.ne (by simp [hmem])) (by simpa using hlt) hins hhead]
  cases ins ++ post <;> rfl

end Apart

theorem Apart.node_parent (h : Apart p pre cut ins post) (hk : a.KidList p (pre ++ cut ++ post)) :
    (a.resplice p pre cut ins post).node p =
      { a.node p with
        first := (pre ++ ins ++ post).head?,
        flags := (a.node p).flags.withKids !(pre ++ ins ++ post).isEmpty,
        last := if (a.node p).opClass.tracksLast then (pre ++ ins ++ post).getLast? else (a.node p).last } := by
  have hne : ∀ {ks : List RecId}, (∀ r ∈ ks, r ∈ pre ++ cut ++ ins ++ post) → ks.getLast? ≠ some p :=
    fun hs hi => h.parent (hs p (List.mem_of_getLast? hi))
  have hpre := @hne pre fun r hr => by simp [hr]
  have hcut := @hne cut fun r hr => by simp [hr]
  have hins := @hne ins fun r hr => by simp [hr]
  have hlinks : ((a.link cut.getLast? {}).link ins.getLast? (.next post.head?)).node p = a.node p := by
    rw [node_link_of_ne hins, node_link_of_ne hcut]
  have hlt : p < a.recs.size := hk.lt p (List.mem_cons_self ..)
  rw [resplice, node_hang_parent (by simpa using hlt) hpre hins, hlinks]
  have hfirst : (if pre.getLast?.isNone then (ins ++ post).head? else (a.node p).first) =
      (pre ++ ins ++ post).head? := by
    cases pre with
    | nil => rfl
    | cons k ks =>
      rw [if_neg (by simp), hk.first]
      rfl
  have hflags : (if pre.getLast?.isNone then (a.node p).flags.withKids (ins ++ post).head?.isSome
      else (a.node p).flags) = (a.node p).flags.withKids !(pre ++ ins ++ post).isEmpty := by
    cases pre with
    | nil =>
      rw [List.nil_append]
      cases ins ++ post <;> rfl
    | cons k ks =>
      rw [if_neg (by simp)]
      exact (Flags.withKids_of_has hk.flag).symm
  have hlast : (if post.head?.isNone && (a.node p).opClass.tracksLast then ins.getLast?.or pre.getLast?
      else (a.node p).last) =
        if (a.node p).opClass.tracksLast then (pre ++ ins ++ post).getLast? else (a.node p).last := by
    cases ht : (a.node p).opClass.tracksLast with
    | false =>
      rw [Bool.and_false]
      rfl
    | true =>
      cases post with
      | nil =>
        rw [List.append_nil, List.getLast?_append]
        rfl
      | cons k ks =>
        have hold := hk.last ht
        rw [List.getLast?_append_of_ne_nil _ (by simp)] at hold
        rw [List.getLast?_append_of_ne_nil _ (by simp)]
        exact hold
  rw [hfirst, hflags, hlast]

theorem KidList.spliced (hk : a.KidList p (pre ++ cut ++ post)) (hi : a.Joined {} ins)
    (hlt : ∀ r ∈ ins, r < a.recs.size) (hn : (p :: (pre ++ cut ++ ins ++ post)).Nodup) :
    Spliced a (a.resplice p pre cut ins post) p pre cut ins post := by
  have h := apart_of_nodup hn
  obtain ⟨hnpre, hncut, hnins, hnew⟩ : pre.Nodup ∧ cut.Nodup ∧ ins.Nodup ∧ (p :: (pre ++ ins ++ post)).Nodup := by
    have hp := (List.nodup_cons.mp hn).1
    have hsub : (pre ++ ins ++ post).Sublist (pre ++ cut ++ ins ++ post) := by simp
    have hall := (List.nodup_cons.mp hn).2
    refine ⟨hall.sublist (by simp), hall.sublist ?_, hall.sublist ?_, List.nodup_cons.mpr ⟨?_, hall.sublist hsub⟩⟩
    · rw [List.append_assoc, List.append_assoc]
      exact (List.sublist_append_left ..).trans (List.sublist_append_right ..)
    · exact (List.sublist_append_right ..).trans (List.sublist_append_left ..)
    · exact fun hm => hp (hsub.subset hm)
  obtain ⟨⟨hjpre, hjcut⟩, hjpost⟩ := (joined_append.mp hk.joined).imp_left joined_append.mp
  have hltp := hk.lt p (List.mem_cons_self ..)
  have hltk : ∀ r ∈ pre ++ cut ++ post, r < a.recs.size := fun r hr => hk.lt r (List.mem_cons_of_mem p hr)
  have hloc : Local a (a.resplice p pre cut ins post) (p :: (pre ++ cut ++ ins)) := resplice_local
  have hparent := h.node_parent hk
  have hpre := fun r hr => @Apart.sib_pre a p pre cut ins post h r hr
    (hltk r (by simp [List.mem_of_getLast? hr]))
  have hins := fun r hr => @Apart.sib_ins a p pre cut ins post h r hr (hlt r (List.mem_of_getLast? hr))
  have hcut := fun r hr => @Apart.sib_cut a p pre cut ins post h r hr
    (hltk r (by simp [List.mem_of_getLast? hr]))
  have hout := @resplice_out a p pre cut ins post
  have hsib := @resplice_sib a p pre cut ins post
  generalize a.resplice p pre cut ins post = b at *
  have hmem : ∀ {ks : List RecId} {r : RecId}, r ∉ ks → ks.getLast? ≠ some r :=
    fun hr he => hr (List.mem_of_getLast? he)
  refine ⟨hloc, ⟨?_, hnew, ?_, ?_, ?_, ?_⟩, ?_, hparent, fun r hr => hsib hr⟩
  · intro r hr
    rw [hloc.size]
    simp only [List.mem_cons, List.mem_append] at hr
    rcases hr with rfl | (hr | hr) | hr
    · exact hltp
    · exact hltk r (by simp [hr])
    · exact hlt r hr
    · exact hltk r (by simp [hr])
  · rw [hparent]
  · intro ht
    rw [hparent] at ht ⊢
    exact if_pos ht
  · rw [hparent]
    exact Flags.has_withKids ..
  · rw [joined_append, joined_append]
    refine ⟨⟨?_, ?_⟩, ?_⟩
    · refine hjpre.redirect hnpre (fun k hk' => ?_) fun k hk' hne => ?_
      · rw [hpre k hk', ahead_append]
      · rw [hout (h.ne (by simp [hk'])) hne (hmem (h.pre k hk').1) (hmem (h.pre k hk').2.1)]
    · refine hi.redirect hnins hins fun k hk' hne => ?_
      have hk₂ : k ∉ pre := fun hm => (h.pre k hm).2.1 hk'
      have hk₃ : k ∉ cut := fun hm => (h.cut k hm).1 hk'
      rw [hout (h.ne (by simp [hk'])) (hmem hk₂) (hmem hk₃) hne]
    · refine hjpost.congr fun k hk' => ?_
      have hk₂ : k ∉ pre := fun hm => (h.pre k hm).2.2 hk'
      have hk₃ : k ∉ cut := fun hm => (h.cut k hm).2 hk'
      have hk₄ : k ∉ ins := fun hm => h.ins k hm hk'
      rw [hout (h.ne (by simp [hk'])) (hmem hk₂) (hmem hk₃) (hmem hk₄)]
  · refine hjcut.redirect hncut hcut fun k hk' hne => ?_
    have hk₂ : k ∉ pre := fun hm => (h.pre k hm).1 hk'
    rw [hout (h.ne (by simp [hk'])) (hmem hk₂) hne (hmem (h.cut k hk').1)]

theorem eq_of_node (hs : b.recs.size = a.recs.size) (hn : ∀ r, b.node r = a.node r) : b.recs = a.recs := by
  refine Array.ext hs fun i hi hi' => ?_
  have h := hn i
  simp only [node, Array.getD_eq_getD_getElem?, Array.getElem?_eq_getElem hi, Array.getElem?_eq_getElem hi'] at h
  exact h

theorem Spliced.undone (h : Spliced a b p pre cut ins post) (h' : Spliced b c p pre ins cut post)
    (hk : a.KidList p (pre ++ cut ++ post)) (hi : a.Joined {} ins) : c = a := by
  have hparent : c.node p = a.node p := by
    have hclass : ((b.node p).opClass.tracksLast = true) = ((a.node p).opClass.tracksLast = true) := by
      rw [h.parent]
      rfl
    have hlast : (if (a.node p).opClass.tracksLast then (pre ++ cut ++ post).getLast? else (b.node p).last) =
        (a.node p).last := by
      split
      · exact (hk.last ‹_›).symm
      · rw [h.parent]
        exact if_neg ‹_›
    rw [h'.parent]
    simp only [hclass]
    rw [hlast, h.parent]
    simp only [Flags.withKids_withKids, Flags.withKids_of_has hk.flag, ← hk.first]
  have hsib : ∀ r ≠ p, (c.node r).sib = (a.node r).sib := by
    intro r hr
    by_cases hold : r ∈ pre ++ cut ++ post
    · exact hk.joined.sib_eq h'.kids.joined r hold
    by_cases hins : r ∈ ins
    · exact hi.sib_eq h'.cut_off r hins
    · simp only [List.mem_append, not_or] at hold
      rw [h'.outside r (by simp [hr, hold, hins]), h.outside r (by simp [hr, hold, hins])]
  have hnode : ∀ r, c.node r = a.node r := by
    intro r
    by_cases hr : r = p
    · rw [hr, hparent]
    · rw [h'.kid r hr, h.kid r hr, hsib r hr]
  have hsize : c.recs.size = a.recs.size := h'.size.trans h.size
  rw [h'.rest, h.rest, eq_of_node hsize hnode]

end Spliced

end Arena

section Dropped

variable {α β : Type} (del : Int)

/-- The first `del` of the kids behind a place, or all of them if the count is negative. -/
def dropped (ks : List α) : List α := if del < 0 then ks else ks.take del.toNat

def kept (ks : List α) : List α := if del < 0 then [] else ks.drop del.toNat

theorem dropped_append_kept (ks : List α) : dropped del ks ++ kept del ks = ks := by
  rw [dropped, kept]
  split
  · exact List.append_nil ks
  · exact List.take_append_drop ..

theorem map_dropped (f : α → β) (ks : List α) : (dropped del ks).map f = dropped del (ks.map f) := by
  rw [dropped, dropped]
  split
  · rfl
  · exact List.map_take

theorem map_kept (f : α → β) (ks : List α) : (kept del ks).map f = kept del (ks.map f) := by
  rw [kept, kept]
  split
  · rfl
  · exact List.map_drop

end Dropped

namespace TreeM

open Sib Arena

variable {a b : Arena}

/-- What stands behind the place where kids are spliced in. -/
def Behind (a : Arena) (p : RecId) (start first : Option RecId) : Prop :=
  match start with
  | none => (a.node p).first = first
  | some s => (a.node s).sibling? = first

theorem splice_uncut {p : RecId} {start first insert : Option RecId} {del : Int} (hd : -1 ≤ del)
    (hf : Behind a p start first) (hz : del = 0 ∨ first = none) :
    splice (some p) start del insert a = .ok none
      ((a.link (insert.map a.lastSibling) (.next first)).hang p start (insert.map a.lastSibling)
        (insert.or first) first) := by
  have hlow : ¬ del < -1 := by omega
  cases start with
  | none =>
    have hf : (a.node p).first = first := hf
    cases first with
    | none =>
      cases insert <;> simp [splice, hang, setFront, setBack, Flags.withKids, bind_apply, map_apply, ite_apply,
        hlow, hf] <;> split <;> rfl
    | some f =>
      obtain rfl : del = 0 := by simpa using hz
      cases insert <;> simp [splice, hang, setFront, Flags.withKids, bind_apply, map_apply, hf]
  | some s =>
    have hf : (a.node s).sibling? = first := hf
    cases first with
    | none =>
      cases insert <;> simp [splice, hang, setFront, setBack, bind_apply, map_apply, ite_apply, update_sib,
        hlow, hf] <;> split <;> first | rfl | rw [update_sib]
    | some f =>
      obtain rfl : del = 0 := by simpa using hz
      cases insert <;> simp [splice, hang, setFront, bind_apply, map_apply, hf]

theorem splice_cut {p f l : RecId} {start rest insert : Option RecId} {del : Int} (hd : -1 ≤ del)
    (hf : Behind a p start (some f)) (hz : del ≠ 0) (hl : lastDeleted a a.bound (del - 1) f = l)
    (hr : (a.node l).sibling? = rest) (hb : b = a.link (some l) {}) :
    splice (some p) start del insert a = .ok (some f)
      ((b.link (insert.map b.lastSibling) (.next rest)).hang p start (insert.map b.lastSibling)
        (insert.or rest) rest) := by
  have hlow : ¬ del < -1 := by omega
  rw [link_some] at hb
  cases start with
  | none =>
    have hf : (a.node p).first = some f := hf
    cases rest with
    | none =>
      cases insert <;> simp [splice, hang, setFront, setBack, Flags.withKids, bind_apply, map_apply, ite_apply,
        hlow, hz, hf, hl, hr, ← hb] <;> split <;> rfl
    | some f =>
      cases insert <;> simp [splice, hang, setFront, Flags.withKids, bind_apply, map_apply, hlow, hz, hf, hl, hr, ← hb]
  | some s =>
    have hf : (a.node s).sibling? = some f := hf
    cases rest with
    | none =>
      cases insert <;> simp [splice, hang, setFront, setBack, bind_apply, map_apply, ite_apply, update_sib,
        hlow, hz, hf, hl, hr, ← hb] <;> split <;>
          first | rfl | rw [update_sib]
    | some f =>
      cases insert <;> simp [splice, hang, setFront, bind_apply, map_apply, hlow, hz, hf, hl, hr, ← hb]

theorem dropped_cases {p : RecId} {ks : List RecId} {del : Int} (hd : -1 ≤ del) (h : a.Joined (.up p) ks)
    (hf : ks.length ≤ a.bound) : dropped del ks = [] ∧ (del = 0 ∨ ks.head? = none) ∨
      ∃ k, del ≠ 0 ∧ ks.head? = some k ∧ (dropped del ks).head? = some k ∧
        (dropped del ks).getLast? = some (lastDeleted a a.bound (del - 1) k) := by
  cases ks with
  | nil =>
    refine Or.inl ⟨?_, Or.inr rfl⟩
    rw [dropped]
    split
    · rfl
    · exact List.take_nil
  | cons k ks =>
    by_cases hz : del = 0
    · exact Or.inl ⟨by rw [hz]; rfl, Or.inl hz⟩
    refine Or.inr ⟨k, hz, rfl, ?_⟩
    by_cases hneg : del < 0
    · rw [dropped, if_pos hneg]
      exact ⟨rfl, lastDeleted_all (joined_up.mp h) hf (by omega)⟩
    · have hcount : del.toNat = (del - 1).toNat + 1 := by omega
      rw [dropped, if_neg hneg, hcount]
      exact ⟨rfl, h.lastDeleted_eq rfl hf (by omega)⟩

theorem map_lastSibling {ins : List RecId} (hi : a.Joined {} ins) (hn : ins.Nodup)
    (hlt : ∀ r ∈ ins, r < a.recs.size) : ins.head?.map a.lastSibling = ins.getLast? := by
  cases ins with
  | nil => rfl
  | cons i is => exact (hi.lastSibling_eq rfl (length_le_bound hn hlt)).symm

theorem behind_eq {p : RecId} {pre after : List RecId} (hk : a.KidList p (pre ++ after)) :
    Behind a p pre.getLast? after.head? := by
  cases hs : pre.getLast? with
  | none =>
    have hfirst := hk.first
    rwa [List.getLast?_eq_none_iff.mp hs, List.nil_append] at hfirst
  | some s =>
    have hsib : (a.node s).sib = (Sib.up p).ahead after := (joined_append.mp hk.joined).1.getLast hs
    change (a.node s).sibling? = after.head?
    rw [Node.sibling?, hsib, sibling?_ahead rfl]

/-- Splicing drops some kids behind a place and puts a sealed chain there. The dropped kids are answered
as a sealed chain. -/
theorem splice_ok {p : RecId} {pre after ins : List RecId} {del : Int} (hk : a.KidList p (pre ++ after))
    (hd : -1 ≤ del) (hi : a.Joined {} ins) (hlt : ∀ r ∈ ins, r < a.recs.size)
    (hn : (p :: (pre ++ after ++ ins)).Nodup) :
    ∃ b, splice (some p) pre.getLast? del ins.head? a = .ok (dropped del after).head? b ∧
      Spliced a b p pre (dropped del after) ins (kept del after) := by
  have hafter := dropped_append_kept del after
  obtain ⟨-, hnks⟩ := List.nodup_cons.mp hk.nodup
  have hnafter : after.Nodup := (List.nodup_append.mp hnks).2.1
  have hlen : after.length ≤ a.bound := length_le_bound hnafter fun r hr => hk.lt r (by simp [hr])
  have hcases := dropped_cases hd (joined_append.mp hk.joined).2 hlen
  have hbehind := behind_eq hk
  generalize dropped del after = cut at *
  generalize kept del after = post at *
  subst hafter
  rw [← List.append_assoc] at hk
  have hperm : (pre ++ (cut ++ post) ++ ins).Perm (pre ++ cut ++ ins ++ post) := by
    rw [← List.append_assoc pre, List.append_assoc (pre ++ cut), List.append_assoc (pre ++ cut)]
    exact List.perm_append_comm.append_left _
  have hn' := (hperm.cons p).nodup hn
  obtain ⟨hninit, hnins, hdisj⟩ := List.nodup_append.mp (List.nodup_cons.mp hn).2
  refine ⟨a.resplice p pre cut ins post, ?_, hk.spliced hi hlt hn'⟩
  have hhead : (ins ++ post).head? = ins.head?.or post.head? := List.head?_append
  rcases hcases with ⟨rfl, hz⟩ | ⟨k, hz, hhead', hcut, hlast⟩
  · rw [splice_uncut hd hbehind hz, map_lastSibling hi hnins hlt, resplice, hhead]
    rfl
  · have hjcut : a.Joined ((up p).ahead post) cut := (joined_append.mp (joined_append.mp hk.joined).1).2
    have hrest : (a.node (lastDeleted a a.bound (del - 1) k)).sibling? = post.head? := by
      rw [Node.sibling?, hjcut.getLast hlast, sibling?_ahead rfl]
    have hi' : (a.link cut.getLast? {}).Joined {} ins := by
      refine hi.congr fun r hr => ?_
      rw [node_link_of_ne fun he => hdisj r (by simp [List.mem_of_getLast? he]) r hr rfl]
    rw [hhead'] at hbehind
    rw [splice_cut hd hbehind hz rfl hrest rfl, ← hlast, map_lastSibling hi' hnins (by simpa using hlt), resplice, hhead,
      hcut]

end TreeM

end OpTree
