import OpTree.Proofs.Routes

/-!
# Steps through a tree

The order of execution that a tree stands for, read off the tree alone: which op may come right after
which. A tree is entered at its start only, so an op inside of it is reached from the outside by no
other way.
-/

namespace OpTree

set_option autoImplicit false

namespace Arena

open OpTree.Tree

variable {a : Arena}

/-- A link of execution, to the first or to the second successor. -/
def Link (a : Arena) (p q : RecId) : Prop := (a.node p).next = some q ∨ (a.node p).other = some q

theorem branches_iff {o : Node} {ks : List Node} (h : o.Proper ks) :
    o.code.branches = true ↔ o.opClass = .logop := by
  rw [Opcode.branches_iff_logop, Node.opClass]
  split
  · rename_i hex
    have hnull : o.code = .null := by
      simp only [Node.isEx, Bool.and_eq_true, beq_iff_eq] at hex
      exact hex.1
    rcases h.ex hex with hx | hx <;> simp [hnull, hx, Opcode.opClass]
  · exact Iff.rfl

theorem ne_logop {o : Node} {ks : List Node} (h : o.Proper ks) (hb : o.code.branches = false) :
    o.opClass ≠ .logop := by
  intro hlog
  rw [(branches_iff h).mpr hlog] at hb
  cases hb

theorem Tidy.other_eq {a : Arena} {t : Tree} (h : a.Tidy) (hh : a.Holds t) (hl : t.op.opClass ≠ .logop) :
    (a.node t.root).other = none := by
  refine (h.clean t.root).other.resolve_right fun hlog => hl ?_
  rw [← hh.fits.op, Node.opClass_plain]
  exact hlog

theorem edge_of_joint {t k : Tree} {e z p : RecId} (hk : k ∈ t.plan.parts) (hp : (k, p) ∈ t.plan.joints)
    (h : Edge k e z ∨ Exit k e ∧ some p = some z) : Edge t e z := by
  rcases h with h | ⟨h, hz⟩
  · exact .part hk h
  · obtain rfl := Option.some.inj hz
    exact .joint hp h

/-- The links of a threaded tree are the steps of the tree, but for those that lead out of it. -/
theorem Flow.link {t : Tree} {q : Option RecId} (h : a.Flow t q) (hh : a.Holds t) (ht : t.Proper)
    (htidy : a.Tidy) {e z : RecId} (he : Live t e) (hz : a.Link e z) :
    Edge t e z ∨ Exit t e ∧ q = some z := by
  induction h with
  | @op r o ks q hb hl hks hq ih =>
    have hlog : o.opClass ≠ .logop := ne_logop ht.op hb
    have hplan : (Tree.mk r o ks).plan = { parts := ks, joints := follow ks r, arms := [], own := [r] } := by
      rw [plan, if_neg hlog, hl]
      rfl
    cases he with
    | own he =>
      rw [hplan] at he
      obtain rfl := List.mem_singleton.mp he
      refine Or.inr ⟨.root .., ?_⟩
      rcases hz with hz | hz
      · exact hq.symm.trans hz
      · have hnone := htidy.other_eq hh hlog
        rw [root_mk, hz] at hnone
        cases hnone
    | @part _ k _ hk he =>
      have hkp := hk
      rw [hplan] at hk
      obtain ⟨p, hp⟩ := exists_follow hk r
      refine Or.inl (edge_of_joint hkp ?_ (ih (k, p) hp (hh.kid hk) (ht.kid hk) he))
      rw [hplan]
      exact hp
  | @logop l o x y q hb hx ho hy hq ihx ihy =>
    have hlog : o.opClass = .logop := (branches_iff ht.op).mp hb
    have hplan : (Tree.mk l o [x, y]).plan =
        { parts := [x, y], joints := [(x, l)], arms := [(l, y.start)], own := [l] } := by
      rw [plan, if_pos hlog]
      rfl
    cases he with
    | own he =>
      rw [hplan] at he
      obtain rfl := List.mem_singleton.mp he
      rcases hz with hz | hz
      · exact Or.inr ⟨.root .., hq.symm.trans hz⟩
      · obtain rfl := Option.some.inj (ho.symm.trans hz)
        exact Or.inl (Edge.arm (p := (e, y.start)) (by rw [hplan]; simp))
    | @part _ k _ hk he =>
      have hkp := hk
      rw [hplan] at hk
      rcases List.mem_cons.mp hk with rfl | hk
      · refine Or.inl (edge_of_joint hkp ?_ (ihx (hh.kid (by simp)) (ht.kid (by simp)) he))
        rw [hplan]
        exact List.mem_singleton_self _
      · obtain rfl := List.mem_singleton.mp hk
        rcases ihy (hh.kid (by simp)) (ht.kid (by simp)) he with h | ⟨h, hq'⟩
        · exact Or.inl (.part hkp h)
        · exact Or.inr ⟨.arm hlog (by simp) h, hq'⟩
  | @cond l o x y w q hb hx ho hy hn hw ihx ihy ihw =>
    have hlog : o.opClass = .logop := (branches_iff ht.op).mp hb
    have hplan : (Tree.mk l o [x, y, w]).plan =
        { parts := [x, y, w], joints := [(x, l)], arms := [(l, y.start), (l, w.start)], own := [l] } := by
      rw [plan, if_pos hlog]
      rfl
    cases he with
    | own he =>
      rw [hplan] at he
      obtain rfl := List.mem_singleton.mp he
      rcases hz with hz | hz
      · obtain rfl := Option.some.inj (hn.symm.trans hz)
        exact Or.inl (Edge.arm (p := (e, w.start)) (by rw [hplan]; simp))
      · obtain rfl := Option.some.inj (ho.symm.trans hz)
        exact Or.inl (Edge.arm (p := (e, y.start)) (by rw [hplan]; simp))
    | @part _ k _ hk he =>
      have hkp := hk
      rw [hplan] at hk
      rcases List.mem_cons.mp hk with rfl | hk
      · refine Or.inl (edge_of_joint hkp ?_ (ihx (hh.kid (by simp)) (ht.kid (by simp)) he))
        rw [hplan]
        exact List.mem_singleton_self _
      · have harm : Edge k e z ∨ Exit k e ∧ q = some z := by
          rcases List.mem_cons.mp hk with rfl | hk
          · exact ihy (hh.kid (by simp)) (ht.kid (by simp)) he
          · obtain rfl := List.mem_singleton.mp hk
            exact ihw (hh.kid (by simp)) (ht.kid (by simp)) he
        rcases harm with h | ⟨h, hq'⟩
        · exact Or.inl (.part hkp h)
        · exact Or.inr ⟨.arm hlog hk h, hq'⟩
  | @loop r w l s o wo lo so ent iter body q hl hw hb hent hiter hne ho hbody hn hwr hq ihent ihiter ihbody =>
    obtain ⟨d, hd⟩ := Option.isSome_iff_exists.mp (ht.loops _ (self_mem_subtrees _) hl)
    have hplan := plan_loop (r := r) hl hd
    have hframe := hd
    simp only [rounds?, kids_mk, Option.ite_none_right_eq_some, Option.some.injEq] at hframe
    obtain ⟨⟨hwc, hlc, hsc⟩, rfl⟩ := hframe
    have hkw := hh.kid (k := Tree.mk w wo [Tree.mk l lo [iter, Tree.mk s so body]]) (by simp)
    have htw := ht.kid (k := Tree.mk w wo [Tree.mk l lo [iter, Tree.mk s so body]]) (by simp)
    have hkl := hkw.kid (k := Tree.mk l lo [iter, Tree.mk s so body]) (by simp)
    have htl := htw.kid (k := Tree.mk l lo [iter, Tree.mk s so body]) (by simp)
    have hks := hkl.kid (k := Tree.mk s so body) (by simp)
    have hts := htl.kid (k := Tree.mk s so body) (by simp)
    have hother : ∀ {u : Tree}, a.Holds u → u.Proper → u.op.code.branches = false →
        (a.node u.root).other ≠ some z := by
      intro u hu hpu hb h
      have hnone := htidy.other_eq hu (ne_logop hpu.op hb)
      rw [h] at hnone
      cases hnone
    cases he with
    | own he =>
      rw [hplan] at he
      simp only [Rounds.plan, List.mem_cons, List.not_mem_nil, or_false] at he
      rcases he with rfl | rfl | rfl
      · rcases hz with hz | hz
        · exact Or.inr ⟨.root .., hq.symm.trans hz⟩
        · exact absurd hz (hother hh ht (isLoop_not_branches hl))
      · rcases hz with hz | hz
        · obtain rfl := Option.some.inj (hwr.symm.trans hz)
          exact Or.inl (Edge.arm (p := (e, r)) (by rw [hplan]; simp [Rounds.plan]))
        · exact absurd hz (hother hkw htw hw)
      · rcases hz with hz | hz
        · obtain rfl := Option.some.inj (hn.symm.trans hz)
          exact Or.inl (Edge.arm (p := (e, w)) (by rw [hplan]; simp [Rounds.plan]))
        · obtain rfl := Option.some.inj (ho.symm.trans hz)
          cases body with
          | nil => exact absurd rfl hne
          | cons k ks => exact Or.inl (Edge.arm (p := (e, k.start)) (by rw [hplan]; simp [Rounds.plan]))
    | @part _ k _ hk he =>
      have hkp := hk
      rw [hplan] at hk
      simp only [Rounds.plan, List.mem_cons] at hk
      rcases hk with rfl | rfl | hk
      · refine Or.inl (edge_of_joint hkp ?_ (ihent (hh.kid (by simp)) (ht.kid (by simp)) he))
        simp [hplan, Rounds.plan]
      · refine Or.inl (edge_of_joint hkp ?_ (ihiter (hkl.kid (by simp)) (htl.kid (by simp)) he))
        simp [hplan, Rounds.plan]
      · obtain ⟨p, hp⟩ := exists_follow hk iter.start
        refine Or.inl (edge_of_joint hkp ?_ (ihbody (k, p) hp (hks.kid hk) (hts.kid hk) he))
        simp [hplan, Rounds.plan, hp]

theorem Flow.next_ne_none {t : Tree} {q : Option RecId} (h : a.Flow t q) (ht : t.Proper) {e : RecId}
    (he : Live t e) : (a.node e).next ≠ none ∨ Exit t e ∧ q = none := by
  induction h with
  | @op r o ks q hb hl hks hq ih =>
    have hlog : o.opClass ≠ .logop := ne_logop ht.op hb
    have hplan : (Tree.mk r o ks).plan = { parts := ks, joints := follow ks r, arms := [], own := [r] } := by
      rw [plan, if_neg hlog, hl]
      rfl
    cases he with
    | own he =>
      rw [hplan] at he
      obtain rfl := List.mem_singleton.mp he
      cases q with
      | none => exact Or.inr ⟨.root .., rfl⟩
      | some z => exact Or.inl (by simp [hq])
    | @part _ k _ hk he =>
      rw [hplan] at hk
      obtain ⟨p, hp⟩ := exists_follow hk r
      exact Or.inl ((ih (k, p) hp (ht.kid hk) he).resolve_right fun h => by cases h.2)
  | @logop l o x y q hb hx ho hy hq ihx ihy =>
    have hlog : o.opClass = .logop := (branches_iff ht.op).mp hb
    have hplan : (Tree.mk l o [x, y]).plan =
        { parts := [x, y], joints := [(x, l)], arms := [(l, y.start)], own := [l] } := by
      rw [plan, if_pos hlog]
      rfl
    cases he with
    | own he =>
      rw [hplan] at he
      obtain rfl := List.mem_singleton.mp he
      cases q with
      | none => exact Or.inr ⟨.root .., rfl⟩
      | some z => exact Or.inl (by simp [hq])
    | @part _ k _ hk he =>
      rw [hplan] at hk
      rcases List.mem_cons.mp hk with rfl | hk
      · exact Or.inl ((ihx (ht.kid (by simp)) he).resolve_right fun h => by cases h.2)
      · obtain rfl := List.mem_singleton.mp hk
        exact (ihy (ht.kid (by simp)) he).imp_right fun h => ⟨.arm hlog (by simp) h.1, h.2⟩
  | @cond l o x y w q hb hx ho hy hn hw ihx ihy ihw =>
    have hlog : o.opClass = .logop := (branches_iff ht.op).mp hb
    have hplan : (Tree.mk l o [x, y, w]).plan =
        { parts := [x, y, w], joints := [(x, l)], arms := [(l, y.start), (l, w.start)], own := [l] } := by
      rw [plan, if_pos hlog]
      rfl
    cases he with
    | own he =>
      rw [hplan] at he
      obtain rfl := List.mem_singleton.mp he
      exact Or.inl (by simp [hn])
    | @part _ k _ hk he =>
      rw [hplan] at hk
      rcases List.mem_cons.mp hk with rfl | hk
      · exact Or.inl ((ihx (ht.kid (by simp)) he).resolve_right fun h => by cases h.2)
      · have harm : (a.node e).next ≠ none ∨ Exit k e ∧ q = none := by
          rcases List.mem_cons.mp hk with rfl | hk
          · exact ihy (ht.kid (by simp)) he
          · obtain rfl := List.mem_singleton.mp hk
            exact ihw (ht.kid (by simp)) he
        exact harm.imp_right fun h => ⟨.arm hlog hk h.1, h.2⟩
  | @loop r w l s o wo lo so ent iter body q hl hw hb hent hiter hne ho hbody hn hwr hq ihent ihiter ihbody =>
    obtain ⟨d, hd⟩ := Option.isSome_iff_exists.mp (ht.loops _ (self_mem_subtrees _) hl)
    have hplan := plan_loop (r := r) hl hd
    simp only [rounds?, kids_mk, Option.ite_none_right_eq_some, Option.some.injEq] at hd
    obtain ⟨-, rfl⟩ := hd
    have htl := (ht.kid (k := Tree.mk w wo [Tree.mk l lo [iter, Tree.mk s so body]]) (by simp)).kid
      (k := Tree.mk l lo [iter, Tree.mk s so body]) (by simp)
    cases he with
    | own he =>
      rw [hplan] at he
      simp only [Rounds.plan, List.mem_cons, List.not_mem_nil, or_false] at he
      rcases he with rfl | rfl | rfl
      · cases q with
        | none => exact Or.inr ⟨.root .., rfl⟩
        | some z => exact Or.inl (by simp [hq])
      · exact Or.inl (by simp [hwr])
      · exact Or.inl (by simp [hn])
    | @part _ k _ hk he =>
      rw [hplan] at hk
      simp only [Rounds.plan, List.mem_cons] at hk
      refine Or.inl ?_
      rcases hk with rfl | rfl | hk
      · exact (ihent (ht.kid (by simp)) he).resolve_right fun h => by cases h.2
      · exact (ihiter (htl.kid (by simp)) he).resolve_right fun h => by cases h.2
      · obtain ⟨p, hp⟩ := exists_follow hk iter.start
        exact (ihbody (k, p) hp ((htl.kid (k := Tree.mk s so body) (by simp)).kid hk) he).resolve_right
          fun h => by cases h.2

theorem Flow.other_ne_none {t u : Tree} {q : Option RecId} (h : a.Flow t q) (ht : t.Proper) (hu : u ∈ t.subtrees)
    (hb : u.op.code.branches = true) : (a.node u.root).other ≠ none := by
  induction h with
  | @op r o ks q hb' hl hks hq ih =>
    rcases mem_subtrees_mk.mp hu with rfl | ⟨k, hk, hv⟩
    · rw [op_mk, hb'] at hb
      cases hb
    · obtain ⟨p, hp⟩ := exists_follow hk r
      exact ih (k, p) hp (ht.kid hk) hv
  | @logop l o x y q hb' hx ho hy hq ihx ihy =>
    rcases mem_subtrees_mk.mp hu with rfl | ⟨k, hk, hv⟩
    · simp [ho]
    · rcases List.mem_cons.mp hk with rfl | hk
      · exact ihx (ht.kid (by simp)) hv
      · obtain rfl := List.mem_singleton.mp hk
        exact ihy (ht.kid (by simp)) hv
  | @cond l o x y w q hb' hx ho hy hn hw ihx ihy ihw =>
    rcases mem_subtrees_mk.mp hu with rfl | ⟨k, hk, hv⟩
    · simp [ho]
    · rcases List.mem_cons.mp hk with rfl | hk
      · exact ihx (ht.kid (by simp)) hv
      · rcases List.mem_cons.mp hk with rfl | hk
        · exact ihy (ht.kid (by simp)) hv
        · obtain rfl := List.mem_singleton.mp hk
          exact ihw (ht.kid (by simp)) hv
  | @loop r w l s o wo lo so ent iter body q hl hw hb' hent hiter hne ho hbody hn hwr hq ihent ihiter ihbody =>
    obtain ⟨d, hd⟩ := Option.isSome_iff_exists.mp (ht.loops _ (self_mem_subtrees _) hl)
    simp only [rounds?, kids_mk, Option.ite_none_right_eq_some, Option.some.injEq] at hd
    obtain ⟨⟨-, -, hsc⟩, -⟩ := hd
    have htl := (ht.kid (k := Tree.mk w wo [Tree.mk l lo [iter, Tree.mk s so body]]) (by simp)).kid
      (k := Tree.mk l lo [iter, Tree.mk s so body]) (by simp)
    rcases mem_subtrees_mk.mp hu with rfl | ⟨k, hk, hv₁⟩
    · rw [op_mk, isLoop_not_branches hl] at hb
      cases hb
    rcases List.mem_cons.mp hk with rfl | hk
    · exact ihent (ht.kid (by simp)) hv₁
    obtain rfl := List.mem_singleton.mp hk
    rcases mem_subtrees_mk.mp hv₁ with rfl | ⟨k, hk, hv₂⟩
    · rw [op_mk, hw] at hb
      cases hb
    obtain rfl := List.mem_singleton.mp hk
    rcases mem_subtrees_mk.mp hv₂ with rfl | ⟨k, hk, hv₃⟩
    · simp [ho]
    rcases List.mem_cons.mp hk with rfl | hk
    · exact ihiter (htl.kid (by simp)) hv₃
    obtain rfl := List.mem_singleton.mp hk
    rcases mem_subtrees_mk.mp hv₃ with rfl | ⟨k, hk, hv₄⟩
    · rw [op_mk, hsc] at hb
      cases hb
    · obtain ⟨p, hp⟩ := exists_follow hk iter.start
      exact ihbody (k, p) hp ((htl.kid (k := Tree.mk s so body) (by simp)).kid hk) hv₄

end Arena

end OpTree
