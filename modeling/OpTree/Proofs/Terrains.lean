import OpTree.Proofs.Statements

/-!
# Terrains of units about scalars

What the rules of the optimizer rely on holds of every threaded unit about scalars in which no short-circuit op has a
constant in front of it.
-/

namespace OpTree

set_option autoImplicit false

theorem Node.opClass_of_branches {o : Node} (h : o.code.branches = true) : o.opClass = .logop := by
  have hnull : o.code ≠ .null := by
    intro hc
    rw [hc] at h
    cases h
  have hex : o.isEx = false := by
    simp [Node.isEx, hnull]
  rw [Node.opClass, hex]
  exact (Opcode.branches_iff_logop _).mp h

namespace Tree

variable {t w x : Tree} {e q : RecId} {ys : List Tree}

theorem start_ne_root (hn : t.recs.Nodup) {k : Tree} (hk : k ∈ t.subtrees) (hw : w ∈ t.subtrees) (hne : w.kids ≠ []) :
    w.root ≠ k.start := by
  have hleaf : ∃ v ∈ k.subtrees, v.root = k.start ∧ v.kids = [] := by
    clear hk
    induction k using induct with
    | h r o ks ih =>
      cases ks with
      | nil => exact ⟨_, self_mem_subtrees _, rfl, rfl⟩
      | cons j js =>
        obtain ⟨v, hv, hroot, hkids⟩ := ih j (List.mem_cons_self ..)
        exact ⟨v, subtrees_trans (kid_mem_subtrees (List.mem_cons_self ..)) hv, hroot, hkids⟩
  obtain ⟨v, hv, hroot, hkids⟩ := hleaf
  intro he
  obtain rfl := eq_of_root_eq hn (subtrees_trans hk hv) hw (hroot.trans he.symm)
  exact hne hkids

theorem Edge.exit_of_branches (h : Edge t e q) (hn : t.recs.Nodup) (hw : w ∈ t.subtrees) (hq : w.root = q)
    (hb : w.op.code.branches = true) (hk : w.kids = x :: ys) : Exit x e := by
  have hne : w.kids ≠ [] := by
    rw [hk]
    exact List.cons_ne_nil _ _
  induction h with
  | @joint t p e hp he =>
    have hfit := plan_fits hn
    have hstart : ∀ k ∈ t.plan.parts, w.root ≠ k.start := fun k hk => start_ne_root hn (part_mem hn hk) hw hne
    have hown : p.2 ∈ t.plan.own := by
      rcases hfit.joint_to p hp with ho | ⟨k, hk, -, hs⟩
      · exact ho
      · exact absurd (hq.trans hs) (hstart k hk)
    obtain ⟨r, o, ks⟩ := t
    by_cases hl : o.opClass = .logop
    · rw [plan, if_pos hl] at hp hown
      have hroot : w.root = r := hq.trans (List.mem_singleton.mp hown)
      obtain rfl := eq_of_root_eq hn hw (self_mem_subtrees _) hroot
      obtain rfl : ks = x :: ys := hk
      rw [List.mem_singleton.mp hp] at he
      exact he
    · have hself : w.root = r → w.op.opClass ≠ .logop := by
        intro hr
        obtain rfl := eq_of_root_eq hn hw (self_mem_subtrees _) hr
        exact hl
      rcases plan_cases (mk r o ks) with ⟨-, ho⟩ | ⟨d, hd, hplan⟩
      · rw [ho] at hown
        exact absurd (Node.opClass_of_branches hb) (hself (hq.trans (List.mem_singleton.mp hown)))
      · rw [hplan] at hp hown hstart
        obtain ⟨wo, lo, so, hwo, -, -, rfl⟩ := rounds?_eq_some hd
        have hwrap : mk d.wrap wo [mk d.branch lo [d.test, mk d.seq so d.body]] ∈
            (mk r o [d.ent, mk d.wrap wo [mk d.branch lo [d.test, mk d.seq so d.body]]]).subtrees :=
          kid_mem_subtrees (by simp)
        have hbranch := subtrees_trans hwrap (kid_mem_subtrees (List.mem_singleton_self _))
        simp only [Rounds.plan, List.mem_cons] at hp
        rcases hp with rfl | rfl | hp
        · exact absurd hq (hstart d.test (by simp [Rounds.plan]))
        · obtain rfl := eq_of_root_eq hn hw hbranch hq
          obtain ⟨rfl, -⟩ := List.cons.inj hk
          exact he
        · rcases mem_follow_target (nodup_of_flatMap_recs (hplan ▸ hfit.nodup)).of_cons.of_cons hp with hs | ⟨k, hkb, -, hs⟩
          · exact absurd (hq.trans hs) (hstart d.test (by simp [Rounds.plan]))
          · exact absurd (hq.trans hs) (hstart k (by simp [Rounds.plan, hkb]))
  | @arm t p hp =>
    have hfit := plan_fits hn
    have hstart : ∀ k ∈ t.plan.parts, w.root ≠ k.start := fun k hk => start_ne_root hn (part_mem hn hk) hw hne
    obtain ⟨r, o, ks⟩ := t
    by_cases hl : o.opClass = .logop
    · rw [plan, if_pos hl] at hp hstart
      obtain ⟨k, hkd, rfl⟩ := List.mem_map.mp hp
      exact absurd hq (hstart k (List.mem_of_mem_drop hkd))
    · rw [plan, if_neg hl] at hp
      have hround : ∀ d : Rounds, rounds? ks = some d → p ∈ (d.plan r).arms → Exit x p.1 := by
        intro d hd harm
        obtain ⟨wo, lo, so, hwo, -, -, rfl⟩ := rounds?_eq_some hd
        have hwrap : mk d.wrap wo [mk d.branch lo [d.test, mk d.seq so d.body]] ∈
            (mk r o [d.ent, mk d.wrap wo [mk d.branch lo [d.test, mk d.seq so d.body]]]).subtrees :=
          kid_mem_subtrees (by simp)
        simp only [Rounds.plan, List.mem_append, List.mem_map, List.mem_cons, List.not_mem_nil, or_false] at harm
        rcases harm with ⟨k, hkb, rfl⟩ | rfl | rfl
        · have hmem : k ∈ d.body := List.mem_of_mem_head? (Option.mem_toList.mp hkb)
          refine absurd hq (start_ne_root hn (subtrees_trans hwrap ?_) hw hne)
          exact subtrees_trans (kid_mem_subtrees (List.mem_singleton_self _))
            (subtrees_trans (kid_mem_subtrees (List.mem_cons_of_mem _ (List.mem_singleton_self _))) (kid_mem_subtrees hmem))
        · obtain rfl := eq_of_root_eq hn hw hwrap hq
          rw [op_mk, hwo] at hb
          cases hb
        · obtain rfl := eq_of_root_eq hn hw (self_mem_subtrees _) hq
          exact absurd (Node.opClass_of_branches hb) hl
      split at hp
      · rename_i d hd
        split at hd
        · exact hround d hd hp
        · cases hd
      · cases hp
  | @part t k e q hkp h ih =>
    have hnk := nodup_part hn hkp
    have hin : w.root ∈ k.recs := hq ▸ (h.mem hnk).2
    exact ih hnk (mem_subtrees_of_root hn (part_mem hn hkp) hw hin) hq

end Tree

namespace Arena

open OpTree.Tree

variable {a : Arena} {t w : Tree} {q : Option RecId}

/-- The links lead through every tree inside of a threaded one, but for the frames of loops. The test of a loop leads
to its body. -/
theorem Flow.within (h : a.Flow t q) (ht : t.Proper) (hw : w ∈ t.subtrees) :
    (∃ q', a.Flow w q') ∨ w.op.code = .null ∨ w.op.code = .lineseq ∨
      ∃ x y, w.kids = [x, y] ∧ a.Flow x (some w.root) ∧ (a.node w.root).other = some y.start := by
  induction h with
  | @op r o ks q hb hl hks hq ih =>
    rcases mem_subtrees_mk.mp hw with rfl | ⟨k, hk, hwk⟩
    · exact Or.inl ⟨q, .op hb hl hks hq⟩
    · obtain ⟨p, hp⟩ := exists_follow hk r
      exact ih (k, p) hp (ht.kid hk) hwk
  | @logop l o x y q hb hx ho hy hq ihx ihy =>
    rcases mem_subtrees_mk.mp hw with rfl | ⟨k, hk, hwk⟩
    · exact Or.inl ⟨q, .logop hb hx ho hy hq⟩
    · rcases List.mem_cons.mp hk with rfl | hk
      · exact ihx (ht.kid (by simp)) hwk
      · obtain rfl := List.mem_singleton.mp hk
        exact ihy (ht.kid (by simp)) hwk
  | @cond l o x y z q hb hx ho hy hn hz ihx ihy ihz =>
    rcases mem_subtrees_mk.mp hw with rfl | ⟨k, hk, hwk⟩
    · exact Or.inl ⟨q, .cond hb hx ho hy hn hz⟩
    · rcases List.mem_cons.mp hk with rfl | hk
      · exact ihx (ht.kid (by simp)) hwk
      · rcases List.mem_cons.mp hk with rfl | hk
        · exact ihy (ht.kid (by simp)) hwk
        · obtain rfl := List.mem_singleton.mp hk
          exact ihz (ht.kid (by simp)) hwk
  | @loop r n l s o no lo so ent iter body q hl hnb hb hent hiter hne ho hbody hn hnr hq ihent ihiter ihbody =>
    obtain ⟨d, hd⟩ := Option.isSome_iff_exists.mp (ht.loops _ (self_mem_subtrees _) hl)
    simp only [rounds?, kids_mk, Option.ite_none_right_eq_some, Option.some.injEq] at hd
    obtain ⟨⟨hnc, -, hsc⟩, -⟩ := hd
    have hwrap : Proper (.mk n no [.mk l lo [iter, .mk s so body]]) := ht.kid (by simp)
    have hbranch : Proper (.mk l lo [iter, .mk s so body]) := hwrap.kid (by simp)
    rcases mem_subtrees_mk.mp hw with rfl | ⟨k, hk, hwk⟩
    · exact Or.inl ⟨q, .loop hl hnb hb hent hiter hne ho hbody hn hnr hq⟩
    rcases List.mem_cons.mp hk with rfl | hk
    · exact ihent (ht.kid (by simp)) hwk
    obtain rfl := List.mem_singleton.mp hk
    rcases mem_subtrees_mk.mp hwk with rfl | ⟨k, hk, hwk⟩
    · exact Or.inr (Or.inl hnc)
    obtain rfl := List.mem_singleton.mp hk
    rcases mem_subtrees_mk.mp hwk with rfl | ⟨j, hj, hwj⟩
    · exact Or.inr (Or.inr (Or.inr ⟨iter, .mk s so body, rfl, hiter, ho⟩))
    rcases List.mem_cons.mp hj with rfl | hj
    · exact ihiter (hbranch.kid (by simp)) hwj
    obtain rfl := List.mem_singleton.mp hj
    rcases mem_subtrees_mk.mp hwj with rfl | ⟨k, hk, hwk⟩
    · exact Or.inr (Or.inr (Or.inl hsc))
    · obtain ⟨p, hp⟩ := exists_follow hk iter.start
      exact ihbody (k, p) hp ((hbranch.kid (k := .mk s so body) (by simp)).kid hk) hwk

theorem Flow.of_short {x y : Tree} (h : a.Flow t q) (ht : t.Proper) (hw : w ∈ t.subtrees) (hc : w.op.code ∈ Opcode.short)
    (hk : w.kids = [x, y]) : a.Flow x (some w.root) ∧ (a.node w.root).other = some y.start := by
  have hcode : w.op.code ≠ .null ∧ w.op.code ≠ .lineseq ∧ w.op.code.branches = true := by
    revert hc
    generalize w.op.code = c
    revert c
    decide
  rcases h.within ht hw with ⟨q', hf⟩ | hn | hs | ⟨x', y', hk', hf, ho⟩
  · obtain ⟨l, o, ks⟩ := w
    obtain rfl : ks = [x, y] := hk
    obtain ⟨hx, ho, -⟩ := hf.of_logop hcode.2.2
    exact ⟨hx, ho⟩
  · exact absurd hn hcode.1
  · exact absurd hs hcode.2.1
  · rw [hk] at hk'
    cases hk'
    exact ⟨hf, ho⟩

end Arena

namespace Opcode

/-- The ops of a unit about scalars that the optimizer need not know more of. -/
def inert : List Opcode :=
  [.leavesub, .lineseq, .nextstate, .unstack, .leaveloop, .enteriter, .null, .iter, .gv, .pushmark, .const, .padsv, .stub,
    .rv2sv, .say, .die, .condExpr] ++ unary ++ binary

end Opcode

namespace Tree

open Opcode

inductive Part : Tree → Prop where
  | inert {w : Tree} (hc : w.op.code ∈ inert) : Part w
  | ret {r p : RecId} {o po : Node} {ks : List Tree} (hc : o.code = .ret) (hp : po.code = .pushmark)
      (hks : ∀ k ∈ ks, Scalar .item k) : Part (mk r o (mk p po [] :: ks))
  | short {u : Use} {l : RecId} {lo : Node} {x y : Tree} (hc : lo.code ∈ Opcode.short) (hx : Scalar .operand x)
      (hy : Scalar u y) : Part (mk l lo [x, y])
  | test {l i s : RecId} {lo io so : Node} {body : List Tree} (hc : lo.code = .and) (hi : io.code = .iter)
      (hs : so.code = .lineseq) (hbody : Block false body) : Part (mk l lo [mk i io [], mk s so body])

inductive Whole : Tree → Prop where
  | mk {r s : RecId} {o so : Node} {ks : List Tree} (hc : o.code = .leavesub) (hs : so.code = .lineseq) (h : Block true ks) :
      Whole (mk r o [mk s so ks])

variable {u : Use} {t w : Tree} {ks : List Tree} {tail : Bool}

theorem Scalar.part (h : Scalar u t) (hw : w ∈ t.subtrees) : Part w ∧ w.op.code ≠ .lineseq := by
  have hleaf : ∀ {r : RecId} {o : Node} {w : Tree}, o.code ∈ inert → o.code ≠ .lineseq → w ∈ (mk r o []).subtrees →
      Part w ∧ w.op.code ≠ .lineseq := by
    intro r o w ho hs hw
    rcases mem_subtrees_mk.mp hw with rfl | ⟨k, hk, -⟩
    · exact ⟨.inert ho, hs⟩
    · cases hk
  have hvalued : ∀ c ∈ Opcode.unary ++ Opcode.binary, c ∈ inert ∧ c ≠ .lineseq := by decide
  induction h with
  | leaf hc =>
    refine hleaf ?_ ?_ hw
    · rcases hc with hc | hc <;> rw [hc] <;> decide
    · rcases hc with hc | hc <;> rw [hc] <;> decide
  | stub hc => exact hleaf (hc ▸ by decide) (hc ▸ by decide) hw
  | global hc hg =>
    rcases mem_subtrees_mk.mp hw with rfl | ⟨k, hk, hwk⟩
    · exact ⟨.inert (hc ▸ by decide), hc ▸ by decide⟩
    · rw [List.mem_singleton.mp hk] at hwk
      exact hleaf (hg ▸ by decide) (hg ▸ by decide) hwk
  | unary hc hx ih =>
    rcases mem_subtrees_mk.mp hw with rfl | ⟨k, hk, hwk⟩
    · obtain ⟨hi, hl⟩ := hvalued _ (List.mem_append_left _ hc)
      exact ⟨.inert hi, hl⟩
    · rw [List.mem_singleton.mp hk] at hwk
      exact ih hwk
  | binary hc hx hy ihx ihy =>
    rcases mem_subtrees_mk.mp hw with rfl | ⟨k, hk, hwk⟩
    · obtain ⟨hi, hl⟩ := hvalued _ (List.mem_append_right _ hc)
      exact ⟨.inert hi, hl⟩
    · rcases List.mem_cons.mp hk with rfl | hk
      · exact ihx hwk
      · rw [List.mem_singleton.mp hk] at hwk
        exact ihy hwk
  | marked hc hp hks ih =>
    rcases mem_subtrees_mk.mp hw with rfl | ⟨k, hk, hwk⟩
    · rcases hc with hc | hc | hc
      · exact ⟨.inert (hc ▸ by decide), hc ▸ by decide⟩
      · exact ⟨.inert (hc ▸ by decide), hc ▸ by decide⟩
      · exact ⟨.ret hc hp hks, hc ▸ by decide⟩
    · rcases List.mem_cons.mp hk with rfl | hk
      · exact hleaf (hp ▸ by decide) (hp ▸ by decide) hwk
      · exact ih k hk hwk
  | short hn hc _ hx hy ihx ihy =>
    rcases mem_subtrees_mk.mp hw with rfl | ⟨k, hk, hwk⟩
    · exact ⟨.inert (hn ▸ by decide), hn ▸ by decide⟩
    rw [List.mem_singleton.mp hk] at hwk
    rcases mem_subtrees_mk.mp hwk with rfl | ⟨j, hj, hwj⟩
    · refine ⟨.short hc hx hy, fun hl => ?_⟩
      rw [op_mk] at hl
      rw [hl] at hc
      exact absurd hc (by decide)
    · rcases List.mem_cons.mp hj with rfl | hj
      · exact ihx hwj
      · rw [List.mem_singleton.mp hj] at hwj
        exact ihy hwj
  | choice hn hc hx hy hz ihx ihy ihz =>
    rcases mem_subtrees_mk.mp hw with rfl | ⟨k, hk, hwk⟩
    · exact ⟨.inert (hn ▸ by decide), hn ▸ by decide⟩
    rw [List.mem_singleton.mp hk] at hwk
    rcases mem_subtrees_mk.mp hwk with rfl | ⟨j, hj, hwj⟩
    · exact ⟨.inert (hc ▸ by decide), hc ▸ by decide⟩
    · rcases List.mem_cons.mp hj with rfl | hj
      · exact ihx hwj
      · rcases List.mem_cons.mp hj with rfl | hj
        · exact ihy hwj
        · rw [List.mem_singleton.mp hj] at hwj
          exact ihz hwj

theorem Ranged.part {x y : Tree} {body : List Tree} (h : Ranged x y body t) (hx : Scalar .operand x) (hy : Scalar .operand y)
    (hbody : Block false body) (hks : ∀ k ∈ body, ∀ w ∈ k.subtrees, Part w ∧ (w.op.code = .lineseq → Block false w.kids))
    (hw : w ∈ t.subtrees) : Part w ∧ (w.op.code = .lineseq → Block false w.kids) := by
  have hexpr : ∀ {u : Use} {e w : Tree}, Scalar u e → w ∈ e.subtrees → Part w ∧ (w.op.code = .lineseq → Block false w.kids) := by
    intro u e w he hw
    obtain ⟨hp, hne⟩ := he.part hw
    exact ⟨hp, fun hc => absurd hc hne⟩
  cases h with
  | mk hc he hwc hl hi hs =>
    rcases mem_subtrees_mk.mp hw with rfl | ⟨k, hk, hwk⟩
    · exact ⟨.inert (hc ▸ by decide), fun hn => absurd (hc.symm.trans hn) (by decide)⟩
    rcases List.mem_cons.mp hk with rfl | hk
    · rcases mem_subtrees_mk.mp hwk with rfl | ⟨j, hj, hwj⟩
      · exact ⟨.inert (he ▸ by decide), fun hn => absurd (he.symm.trans hn) (by decide)⟩
      rcases List.mem_cons.mp hj with rfl | hj
      · exact hexpr hx hwj
      · rw [List.mem_singleton.mp hj] at hwj
        exact hexpr hy hwj
    rw [List.mem_singleton.mp hk] at hwk
    rcases mem_subtrees_mk.mp hwk with rfl | ⟨k, hk, hwk⟩
    · exact ⟨.inert (hwc ▸ by decide), fun hn => absurd (hwc.symm.trans hn) (by decide)⟩
    rw [List.mem_singleton.mp hk] at hwk
    rcases mem_subtrees_mk.mp hwk with rfl | ⟨k, hk, hwk⟩
    · exact ⟨.test hl hi hs hbody, fun hn => absurd (hl.symm.trans hn) (by decide)⟩
    rcases List.mem_cons.mp hk with rfl | hk
    · rcases mem_subtrees_mk.mp hwk with rfl | ⟨k, hk, -⟩
      · exact ⟨.inert (hi ▸ by decide), fun hn => absurd (hi.symm.trans hn) (by decide)⟩
      · cases hk
    rw [List.mem_singleton.mp hk] at hwk
    rcases mem_subtrees_mk.mp hwk with rfl | ⟨k, hk, hwk⟩
    · exact ⟨.inert (hs ▸ by decide), fun _ => hbody⟩
    · exact hks k hk w hwk

theorem Block.part (h : Block tail ks) : ∀ k ∈ ks, ∀ w ∈ k.subtrees, Part w ∧ (w.op.code = .lineseq → Block false w.kids) := by
  have hone : ∀ {r : RecId} {o : Node}, o.code = .nextstate ∨ o.code = .unstack → ∀ w ∈ (mk r o []).subtrees,
      Part w ∧ (w.op.code = .lineseq → Block false w.kids) := by
    intro r o ho w hw
    rcases mem_subtrees_mk.mp hw with rfl | ⟨k, hk, -⟩
    · rcases ho with ho | ho
      · exact ⟨.inert (ho ▸ by decide), fun hn => absurd (ho.symm.trans hn) (by decide)⟩
      · exact ⟨.inert (ho ▸ by decide), fun hn => absurd (ho.symm.trans hn) (by decide)⟩
    · cases hk
  have hexpr : ∀ {u : Use} {e : Tree}, Scalar u e → ∀ w ∈ e.subtrees, Part w ∧ (w.op.code = .lineseq → Block false w.kids) := by
    intro u e he w hw
    obtain ⟨hp, hne⟩ := he.part hw
    exact ⟨hp, fun hc => absurd hc hne⟩
  induction h with
  | close hc => exact List.forall_mem_singleton.mpr (hone (Or.inr hc))
  | last hc => exact List.forall_mem_singleton.mpr (hone (Or.inl hc))
  | value hc he => exact List.forall_mem_cons.mpr ⟨hone (Or.inl hc), List.forall_mem_singleton.mpr (hexpr he)⟩
  | final hc ht hx hy hbody ih =>
    refine List.forall_mem_cons.mpr ⟨hone (Or.inl hc), List.forall_mem_singleton.mpr fun w hw => ?_⟩
    exact ht.part hx hy hbody ih hw
  | empty hc _ ih => exact List.forall_mem_cons.mpr ⟨hone (Or.inl hc), ih⟩
  | expr hc he _ _ ih => exact List.forall_mem_cons.mpr ⟨hone (Or.inl hc), List.forall_mem_cons.mpr ⟨hexpr he, ih⟩⟩
  | loop hc ht hx hy hbody _ _ ihb ih =>
    refine List.forall_mem_cons.mpr ⟨hone (Or.inl hc), List.forall_mem_cons.mpr ⟨fun w hw => ?_, ih⟩⟩
    exact ht.part hx hy hbody ihb hw

theorem Whole.part (h : Whole t) (hw : w ∈ t.subtrees) : Part w := by
  cases h with
  | mk hc hs h =>
    rcases mem_subtrees_mk.mp hw with rfl | ⟨k, hk, hwk⟩
    · exact .inert (hc ▸ by decide)
    rw [List.mem_singleton.mp hk] at hwk
    rcases mem_subtrees_mk.mp hwk with rfl | ⟨k, hk, hwk⟩
    · exact .inert (hs ▸ by decide)
    · exact (h.part k hk w hwk).1

end Tree

namespace Peep

open Arena Opcode OpTree.Tree

variable {S : Course} {a : Arena} {root : RecId} {u : Use} {k w y : Tree}

section Tails

variable (hw : Wired S a (a.tree root))

include hw

theorem parent_of_wired (hm : w ∈ (a.tree root).subtrees) (hk : k ∈ w.kids) : a.parent? k.root = some w.root :=
  (hw.holds.subtree hm).parent?_eq (nodup_subtree hw.nodup hm) hk

theorem code_of_wired (hm : w ∈ (a.tree root).subtrees) : (a.node w.root).code = w.op.code := by
  rw [← Node.plain_code, (hw.holds w hm).op]

theorem tailReturnOf_none (hm : w ∈ (a.tree root).subtrees) (hk : k ∈ w.kids) (hc : w.op.code ≠ .ret) :
    tailReturnOf? a k.root = none := by
  rw [Option.eq_none_iff_forall_ne_some]
  intro ret ht
  obtain ⟨hret, hfirst⟩ := tailReturnOf_some ht
  have hp := hfirst.parent
  rw [parent_of_wired hw hm hk] at hp
  cases hp
  rw [code_of_wired hw hm] at hret
  exact hc hret

theorem solid_start (hm : w ∈ (a.tree root).subtrees) (hy : y ∈ w.kids) (hs : Scalar u y) (hc : w.op.code ≠ .ret)
    (hseq : w.op.code ≠ .lineseq) : Solid a y.start := by
  have hym := subtrees_trans hm (kid_mem_subtrees hy)
  obtain ⟨v, hv, hroot, hsolid⟩ := hs.start_solid
  refine ⟨?_, Option.eq_none_iff_forall_ne_some.mpr fun ret ht => ?_⟩
  · rw [← hroot, code_of_wired hw (subtrees_trans hym hv)]
    exact hsolid
  obtain ⟨hret, hfirst⟩ := tailReturnOf_some ht
  obtain ⟨-, seq, leave, hps, hcs, -⟩ := tailReturnOf_last ht
  have hp := hfirst.parent
  -- The return is below the branching op, and so is what it is a kid of.
  have hbelow : ∀ {r p : RecId}, r ∈ y.recs → a.parent? r = some p → p = w.root ∨ ∃ x ∈ y.subtrees, x.root = p := by
    intro r p hr hrp
    rcases exists_parent hr with rfl | ⟨x, hx, k, hk, rfl⟩
    · rw [parent_of_wired hw hm hy] at hrp
      exact Or.inl (Option.some.inj hrp).symm
    · rw [parent_of_wired hw (subtrees_trans hym hx) hk] at hrp
      exact Or.inr ⟨x, hx, Option.some.inj hrp⟩
  rcases hbelow y.start_mem_recs hp with rfl | ⟨x, hx, rfl⟩
  · rw [code_of_wired hw hm] at hret
    exact hc hret
  · rcases hbelow (recs_subset hx x.root_mem_recs) hps with rfl | ⟨x', hx', rfl⟩
    · rw [code_of_wired hw hm] at hcs
      exact hseq hcs
    · rw [code_of_wired hw (subtrees_trans hym hx')] at hcs
      exact (hs.part hx').2 hcs

end Tails

theorem terrain_of_whole (hw : Wired S a (a.tree root)) (hu : Whole (a.tree root)) (hf : a.Flow (a.tree root) none)
    (hp : (a.tree root).Proper) (htidy : a.Tidy) (hlive : ∀ r, S r → Live (a.tree root) r)
    (hconst : ∀ l ∈ (a.tree root).recs, (a.node l).code ∈ short → ∀ r, (a.node l).first = some r → (a.node r).code ≠ .const) :
    Terrain S a root (a.tree root).start := by
  have hpart : ∀ {r : RecId}, r ∈ (a.tree root).recs → ∃ w ∈ (a.tree root).subtrees, w.root = r ∧ Part w := by
    intro r hr
    obtain ⟨w, hm, hroot, -⟩ := hw.subtree hr
    exact ⟨w, hm, hroot, hu.part hm⟩
  have hkid : ∀ {w k : Tree}, w ∈ (a.tree root).subtrees → k ∈ w.kids → k ∈ (a.tree root).subtrees := fun hm hk =>
    subtrees_trans hm (kid_mem_subtrees hk)
  have hbegin : Solid a (a.tree root).start := by
    obtain ⟨s, ks, hblock, hm, hstart⟩ : ∃ s ks, Block true ks ∧ s ∈ (a.tree root).subtrees ∧ s.kids = ks ∧
        s.op.code ≠ .ret ∧ (a.tree root).start = startAll ks root := by
      generalize a.tree root = t at hu
      cases hu with
      | @mk r s o so ks hc hs h =>
        refine ⟨.mk s so ks, ks, h, kid_mem_subtrees (List.mem_singleton_self _), rfl, hs ▸ by decide, ?_⟩
        obtain ⟨r', o', rest, rfl, -⟩ := h.head_eq
        rfl
    obtain ⟨hks, hc, hstart⟩ := hstart
    obtain ⟨r, o, rest, rfl, ho⟩ := hblock.head_eq
    have hk : Tree.mk r o [] ∈ s.kids := hks ▸ List.mem_cons_self ..
    rw [hstart]
    refine ⟨?_, tailReturnOf_none hw hm hk hc⟩
    change (a.node r).code ∈ solid
    rw [show (a.node r).code = o.code from code_of_wired hw (hkid hm hk)]
    rcases ho with ho | ho <;> rw [ho] <;> decide
  -- What is said of short-circuit ops, of those of expressions and of those of loops.
  have hshort : ∀ l ∈ (a.tree root).recs, (a.node l).code ∈ short → ∃ w ∈ (a.tree root).subtrees, w.root = l ∧
      w.op.code ∈ short ∧ Part w := by
    intro l hl hc
    obtain ⟨w, hm, rfl, hpw⟩ := hpart hl
    rw [code_of_wired hw hm] at hc
    exact ⟨w, hm, rfl, hc, hpw⟩
  have hinert : ∀ c ∈ inert, c ∉ short ∧ c ∉ compound ∧ c ≠ .ret := by decide
  have hreturn : ∀ {pm ret : RecId}, pm ∈ (a.tree root).recs → tailReturnOf? a pm = some ret → ∃ o po ks,
      Tree.mk ret o (Tree.mk pm po [] :: ks) ∈ (a.tree root).subtrees ∧ o.code = .ret ∧ po.code = .pushmark ∧
        ∀ k ∈ ks, Scalar .item k := by
    intro pm ret hpm ht
    obtain ⟨hret, hfirst⟩ := tailReturnOf_some ht
    obtain ⟨w, hm, rfl, j, js, hjs, rfl⟩ := hw.forest.firstKid hpm hfirst
    rw [code_of_wired hw hm] at hret
    cases hu.part hm with
    | inert hc => exact absurd hret (hinert _ hc).2.2
    | ret hc hpo hks =>
      cases hjs
      exact ⟨_, _, _, hm, hc, hpo, hks⟩
    | short hc =>
      rw [op_mk] at hret
      rw [hret] at hc
      exact absurd hc (by decide)
    | test hc => exact absurd (hc.symm.trans hret) (by decide)
  refine
    { wired := hw
      road := ⟨(a.tree root).start_mem_recs, hw.live_of (a.tree root).start_mem_recs ?_⟩
      solid := hbegin
      simple := ?_
      operand := hconst
      entry := ?_
      arm := ?_
      mark := ?_
      last := ?_ }
  · intro hc
    have hsolid := hbegin.code
    rw [hc] at hsolid
    exact absurd hsolid (by decide)
  · intro r hr
    obtain ⟨w, hm, rfl, hpw⟩ := hpart hr
    rw [code_of_wired hw hm]
    cases hpw with
    | inert hc => exact (hinert _ hc).2.1
    | ret hc => exact hc ▸ by decide
    | @short _ _ lo _ _ hc =>
      rw [op_mk]
      revert hc
      generalize lo.code = c
      revert c
      decide
    | test hc => exact hc ▸ by decide
  · intro l hl hs r hr hnot
    obtain ⟨w, hm, rfl, hc, hpw⟩ := hshort l hl hs
    have hfirst := (hw.holds w hm).first
    rw [hr] at hfirst
    cases hpw with
    | inert hi => exact absurd hc (hinert _ hi).1
    | ret ho =>
      rw [op_mk, ho] at hc
      exact absurd hc (by decide)
    | @short _ l lo x y _ hx hy =>
      obtain rfl : r = x.root := Option.some.inj hfirst
      have hxm := hkid hm (List.mem_cons_self ..)
      have hcode : x.op.code = .not := (code_of_wired hw hxm).symm.trans hnot
      have hbranches : lo.code.branches = true := by
        revert hc
        rw [op_mk]
        generalize lo.code = c
        revert c
        decide
      refine ⟨(hf.of_short hp hm hc rfl).1.next_eq (by rw [hcode]; rfl), fun p hroad hlink => ?_⟩
      have hedge := (hf.link hw.holds hp htidy (hlive p hroad.2) hlink).resolve_right fun h => by cases h.2
      have hexit := hedge.exit_of_branches hw.nodup hm rfl hbranches rfl
      refine hexit.eq_root ?_
      simp [Node.opClass, Node.isEx, hcode, Opcode.opClass]
    | @test l i s lo io so body _ hi =>
      obtain rfl : r = i := Option.some.inj hfirst
      have him := hkid hm (List.mem_cons_self ..)
      exact absurd ((hi.symm.trans (code_of_wired hw him).symm).trans hnot) (by decide)
  · intro l hl hs z hz
    obtain ⟨w, hm, rfl, hc, hpw⟩ := hshort l hl hs
    have hplain : w.op.code ≠ .ret ∧ w.op.code ≠ .lineseq := by
      revert hc
      generalize w.op.code = c
      revert c
      decide
    cases hpw with
    | inert hi => exact absurd hc (hinert _ hi).1
    | ret ho => exact absurd ho hplain.1
    | short _ hx hy =>
      obtain rfl := Option.some.inj (hz.symm.trans (hf.of_short hp hm hc rfl).2)
      exact solid_start hw hm (by simp) hy hplain.1 hplain.2
    | test _ _ hso hbody =>
      obtain rfl := Option.some.inj (hz.symm.trans (hf.of_short hp hm hc rfl).2)
      obtain ⟨r, o, rest, rfl, ho⟩ := hbody.head_eq
      have hsm := hkid hm (List.mem_cons_of_mem _ (List.mem_singleton_self _))
      have hrm := hkid hsm (List.mem_cons_self ..)
      refine ⟨?_, tailReturnOf_none hw hsm (List.mem_cons_self ..) (hso ▸ by decide)⟩
      change (a.node r).code ∈ solid
      rw [show (a.node r).code = o.code from code_of_wired hw hrm]
      rcases ho with ho | ho <;> rw [ho] <;> decide
  · intro pm hpm ret ht
    obtain ⟨o, po, ks, hm, -, hpo, -⟩ := hreturn hpm ht
    exact (code_of_wired hw (hkid hm (List.mem_cons_self ..))).trans hpo
  · intro pm hpm ret l ht hl hne
    obtain ⟨o, po, ks, hm, ho, hpo, hks⟩ := hreturn hpm ht
    have hkids := (hw.holds.subtree hm).kids_eq (nodup_subtree hw.nodup hm)
    rw [show a.kids ret = _ from hkids, List.getLast?_map] at hl
    obtain ⟨k, hk, rfl⟩ := Option.map_eq_some_iff.mp hl
    have hmem : k ∈ ks := by
      rcases List.mem_cons.mp (List.mem_of_getLast? hk) with rfl | h
      · exact absurd rfl hne
      · exact h
    have hkm := hkid hm (List.mem_cons_of_mem _ hmem)
    have hsingle := (hks k hmem).single
    obtain ⟨q, hfr⟩ : ∃ q, a.Flow (Tree.mk ret o (Tree.mk pm po [] :: ks)) q := by
      rcases hf.within hp hm with h | h | h | ⟨x, y, -, -, hother⟩
      · exact h
      · exact absurd (ho.symm.trans h) (by decide)
      · exact absurd (ho.symm.trans h) (by decide)
      · have hnone := htidy.other_eq (hw.holds.subtree hm) (by simp [Node.opClass, Node.isEx, ho, Opcode.opClass])
        rw [hother] at hnone
        cases hnone
    have hfk := (hfr.of_op (ho ▸ rfl) (ho ▸ by decide)).1 (k, ret) (getLast_follow hk ret)
    refine ⟨⟨recs_subset hkm k.root_mem_recs, hw.live k hkm hsingle.lineseq⟩, hfk.next_eq hsingle.branches, ?_⟩
    rw [code_of_wired hw hkm]
    exact hsingle.short

end Peep

end OpTree
