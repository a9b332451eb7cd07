import OpTree.Proofs.Passages

/-!
# Statements about scalars

Every statement of a unit is entered with nothing on the stack that is still needed. So two runs that come to a block
abreast leave it abreast, and come to the end of the unit with the same values.
-/

namespace OpTree

set_option autoImplicit false

namespace Tree

open Opcode

variable {tail : Bool} {ks : List Tree}

theorem Block.head_eq (h : Block tail ks) :
    ∃ r o rest, ks = mk r o [] :: rest ∧ (o.code = .nextstate ∨ o.code = .unstack) := by
  cases h with
  | close hc => exact ⟨_, _, _, rfl, Or.inr hc⟩
  | last hc => exact ⟨_, _, _, rfl, Or.inl hc⟩
  | value hc => exact ⟨_, _, _, rfl, Or.inl hc⟩
  | final hc => exact ⟨_, _, _, rfl, Or.inl hc⟩
  | empty hc => exact ⟨_, _, _, rfl, Or.inl hc⟩
  | expr hc => exact ⟨_, _, _, rfl, Or.inl hc⟩
  | loop hc => exact ⟨_, _, _, rfl, Or.inl hc⟩

theorem Block.ne_nil (h : Block tail ks) : ks ≠ [] := by
  obtain ⟨r, o, rest, rfl, -⟩ := h.head_eq
  exact List.cons_ne_nil _ _

theorem Ranged.code {x y t : Tree} {body : List Tree} (h : Ranged x y body t) : t.op.code = .leaveloop := by
  cases h with
  | mk hc => exact hc

theorem Block.getLast (h : Block tail ks) : ∃ k, ks.getLast? = some k ∧ k.op.code.branches = false ∧ k.op.code ≠ .lineseq := by
  have hmore : ∀ (xs : List Tree) {ls : List Tree}, (∃ k, ls.getLast? = some k ∧ k.op.code.branches = false ∧ k.op.code ≠ .lineseq) →
      ∃ k, (xs ++ ls).getLast? = some k ∧ k.op.code.branches = false ∧ k.op.code ≠ .lineseq := by
    rintro xs ls ⟨k, hk, hcode⟩
    refine ⟨k, ?_, hcode⟩
    rw [List.getLast?_append, hk]
    rfl
  induction h with
  | close hc => exact ⟨_, rfl, hc ▸ rfl, hc ▸ by decide⟩
  | last hc => exact ⟨_, rfl, hc ▸ rfl, hc ▸ by decide⟩
  | value _ he => exact ⟨_, rfl, he.single.branches, he.single.lineseq⟩
  | final _ ht => exact ⟨_, rfl, ht.code ▸ rfl, ht.code ▸ by decide⟩
  | empty _ _ ih => exact hmore [_] ih
  | expr _ _ _ _ ih => exact hmore [_, _] ih
  | loop _ _ _ _ _ _ _ _ ih => exact hmore [_, _] ih

theorem Scalar.of_ret {u : Use} {t : Tree} (h : Scalar u t) (hc : t.op.code = .ret) :
    ∃ r o p po ks, t = mk r o (mk p po [] :: ks) ∧ po.code = .pushmark ∧ ∀ k ∈ ks, Scalar .item k := by
  cases h with
  | leaf h =>
    rw [op_mk] at hc
    rw [hc] at h
    exact absurd h (by decide)
  | stub h => exact absurd (h.symm.trans hc) (by decide)
  | global h => exact absurd (h.symm.trans hc) (by decide)
  | unary h =>
    rw [op_mk] at hc
    rw [hc] at h
    exact absurd h (by decide)
  | binary h =>
    rw [op_mk] at hc
    rw [hc] at h
    exact absurd h (by decide)
  | marked _ hp hks => exact ⟨_, _, _, _, _, rfl, hp, hks⟩
  | short h => exact absurd (h.symm.trans hc) (by decide)
  | choice h => exact absurd (h.symm.trans hc) (by decide)

end Tree

namespace Exec

variable {α : Type} {P : Machine → Machine → Prop} {x : Exec α}

theorem Tandem.gains {Q : α → Machine → Machine → Prop} {R : Machine → Prop} (hx : Tandem P x Q)
    (h : ∀ m m' v n, P m m' → x m = .ok v n → R n) : Tandem P x fun v m m' => Q v m m' ∧ R m := by
  intro m m' hm
  have hend := hx m m' hm
  have hgain := h m m'
  revert hend hgain
  cases x m with
  | error e n => cases x m' <;> exact fun hend _ => hend
  | ok v n =>
    cases x m' with
    | error e n' => exact fun hend _ => hend
    | ok v' n' => exact fun hend hgain => ⟨hend.1, hend.2, hgain v n hm rfl⟩

end Exec

namespace Arena

open OpTree.Tree

variable {a : Arena} {q : Option RecId} {r e w l i s : RecId} {o eo wo lo io so : Node} {x y : Tree} {body : List Tree}

theorem Flow.of_loop (h : a.Flow (.mk r o [.mk e eo [x, y], .mk w wo [.mk l lo [.mk i io [], .mk s so body]]]) q)
    (hc : o.code = .leaveloop) (he : eo.code = .enteriter) :
    a.Flow (.mk e eo [x, y]) (some i) ∧ a.Flow (.mk i io []) (some l) ∧ body ≠ [] ∧
      (a.node l).other = some (Tree.mk s so body).start ∧ (∀ p ∈ follow body i, a.Flow p.1 (some p.2)) ∧
      (a.node l).next = some w ∧ (a.node w).next = some r ∧ (a.node r).next = q := by
  cases h with
  | op hb hl =>
    rw [isLoop, hc, List.head?_cons, Option.any_some, op_mk, he] at hl
    cases hl
  | logop hb =>
    rw [hc] at hb
    cases hb
  | loop _ _ _ hent hiter hne ho hbody hn hwr hq => exact ⟨hent, hiter, hne, ho, hbody, hn, hwr, hq⟩

end Arena

namespace Tree

theorem getLast_follow {ks : List Tree} {k : Tree} (h : ks.getLast? = some k) (q : RecId) : (k, q) ∈ follow ks q := by
  induction ks with
  | nil => cases h
  | cons j ks ih =>
    cases ks with
    | nil =>
      cases h
      exact List.mem_singleton_self _
    | cons i ks =>
      rw [List.getLast?_cons_cons] at h
      exact List.mem_cons_of_mem _ (ih h)

end Tree

namespace Arena

variable {a : Arena}

theorem SibChain.more {p k : RecId} {ks : List RecId} (h : a.SibChain p ks) (hk : k ∈ ks.dropLast) :
    (a.node k).sib.more = true := by
  induction ks with
  | nil => cases hk
  | cons j ks ih =>
    cases ks with
    | nil => cases hk
    | cons i ks =>
      rw [List.dropLast_cons_of_ne_nil (List.cons_ne_nil _ _)] at hk
      rcases List.mem_cons.mp hk with rfl | hk
      · rw [h.1]
      · exact ih h.2 hk

end Arena

namespace Peep

open Arena Opcode Machine Exec OpTree.Tree

variable {S : Course} {root start : RecId} {a b : Arena} {ps : PeepState} {names? : Option Pad}
  {d : Nat} {q : RecId} {t : Tree} {ks : List Tree} {tail : Bool}

/-- Statements of the unit that lead to `q` one after the other. A return that has been dropped is the last statement
of the unit. -/
structure Row (S : Course) (a b : Arena) (root : RecId) (tail : Bool) (d : Nat) (ks : List Tree) (q : RecId) : Prop where
  mem : ∀ k ∈ ks, k ∈ (a.tree root).subtrees
  flow : ∀ p ∈ Tree.follow ks q, a.Flow p.1 (some p.2)
  kept : ∀ k ∈ ks.dropLast, ∀ pm, ¬ Falls a b pm k.root
  inner : tail = false → ∀ k ∈ ks, ∀ pm, ¬ Falls a b pm k.root
  outer : tail = true → d = 0 ∧ Road S a root q ∧ (a.node q).code = .lineseq ∧ (a.node q).next = some root
  short : (a.node q).code ∉ short

section Rows

variable {k : Tree}

theorem Row.head (h : Row S a b root tail d (k :: ks) q) (hne : ks ≠ []) : Placed a b root k (startAll ks q) := by
  refine ⟨h.mem k (List.mem_cons_self ..), h.flow (k, startAll ks q) ?_, h.kept k ?_⟩
  · rw [follow_cons]
    exact List.mem_cons_self ..
  · rw [List.dropLast_cons_of_ne_nil hne]
    exact List.mem_cons_self ..

theorem Row.rest (h : Row S a b root tail d (k :: ks) q) (hne : ks ≠ []) : Row S a b root tail d ks q := by
  refine { h with mem := fun j hj => ?_, flow := fun p hp => ?_, kept := fun j hj => ?_, inner := fun ht j hj => ?_ }
  · exact h.mem j (List.mem_cons_of_mem k hj)
  · apply h.flow
    rw [follow_cons]
    exact List.mem_cons_of_mem _ hp
  · apply h.kept
    rw [List.dropLast_cons_of_ne_nil hne]
    exact List.mem_cons_of_mem k hj
  · exact h.inner ht j (List.mem_cons_of_mem k hj)

theorem Row.single (h : Row S a b root tail d [k] q) (hk : ∀ pm, ¬ Falls a b pm k.root) : Placed a b root k q :=
  ⟨h.mem k (List.mem_cons_self ..), h.flow (k, q) (List.mem_cons_self ..), hk⟩

end Rows

section Statements

variable (hT : Terrain S a root start) (h : Traced S a root start ps b)

include hT h

theorem Traced.carries_clean {r : RecId} {o : Node} (hc : o.code = .nextstate ∨ o.code = .unstack)
    (hp : Placed a b root (.mk r o []) q) :
    Carries (a.code names?) (b.code names?) (Near a b r (Loose root d)) (At a b none q (Pose root .ground d [])) := by
  have hcode : (a.node r).code = o.code := hT.code hp.mem
  have hplain : o.code.branches = false ∧ o.code ∉ fickle ∧ o.code ≠ .leaveloop ∧ o.code ≠ .lineseq ∧ o.code ≠ .ret ∧
      o.code ≠ .enteriter ∧ o.code ≠ .not := by
    rcases hc with hc | hc <;> rw [hc] <;> decide
  obtain ⟨hb, hfickle, hloop, hseq, hret, hiter, hnot⟩ := hplain
  refine carries_loose fun F xs hm hm' => ?_
  refine h.carries_stays (hT.at hp.mem hseq) (h.stays_of (hcode ▸ hfickle) fun l hl => ?_) (hcode ▸ hb) (hcode ▸ hret)
    (hp.flow.of_op hb hloop).2 timeless_pose ?_
  · exact hnot (hcode.symm.trans hl.code)
  · have hclean : Tandem (fun m m' => Abreast F xs m m' ∧ m.Level ∧ F.marks = [] ∧ F.marks' = [])
        (step names? (a.node r).plain) fun _ => Abreast .ground [] := by
      unfold step
      rcases hc with hc | hc
      · simp only [Node.plain_code, hcode, hc]
        exact tandem_go tandem_statement
      · simp only [Node.plain_code, hcode, hc]
        exact tandem_go tandem_cut
    have hflat : (a.node r).plain.code ≠ .enteriter ∧ (a.node r).plain.code ≠ .leaveloop ∧ (a.node r).plain.code ≠ .ret := by
      rw [Node.plain_code, hcode]
      exact ⟨hiter, hloop, hret⟩
    have hwithin : Within (fun m n => ∀ d, m.Steady root d → n.Steady root d) (step names? (a.node r).plain) :=
      step_steady hflat
    have hsteady := hclean.within hwithin fun m n hr hs => hr d hs
    rintro m m' ⟨hm₁, hs⟩
    exact hsteady m m' ⟨⟨hm₁, hs.level, hm, hm'⟩, hs⟩

end Statements

section Loops

variable (hT : Terrain S a root start) (h : Traced S a root start ps b)
  {r e w l i s : RecId} {o eo wo lo io so : Node} {x y : Tree} {body : List Tree}

include hT h

theorem Traced.carries_enter (hend : ∀ s, Safe (a.code names?) (b.code names?) (Ended root) s) (he : eo.code = .enteriter)
    (hx : Scalar .operand x) (hy : Scalar .operand y) (hp : Placed a b root (.mk e eo [x, y]) q) :
    Carries (a.code names?) (b.code names?) (Near a b x.start (Pose root .ground d []))
      (At a b none q (Pose root .ground (d + 1) [])) := by
  have hcode : (a.node e).code = .enteriter := (hT.code hp.mem).trans he
  have hfield : eo.code.branches = false ∧ eo.code ≠ .leaveloop ∧ eo.code ≠ .lineseq := by
    rw [he]
    decide
  have hks := (hp.flow.of_op hfield.1 hfield.2.1).1
  have hpx : Placed a b root x y.start := hT.kid hp.mem hfield.2.2 (by simp) (hks (x, y.start) (by simp [Tree.follow]))
  have hpy : Placed a b root y e := hT.kid hp.mem hfield.2.2 (by simp) (hks (y, e) (by simp [Tree.follow]))
  have hystart : (a.node y.start).code ∉ short := fun hs => short_notMem_solid hs (hT.start_code hy hpy.mem)
  have hfirst : Carries (a.code names?) (b.code names?) (Near a b x.start (Pose root .ground d []))
      (Known root a b y.start .ground d []) :=
    (h.passes hT hend hx hpx (Floor.below_ground _) free_operand).1 (hpx.not_absorbs hx.single hystart)
  have hsecond : ∀ c, Carries (a.code names?) (b.code names?) (Near a b y.start (Pose root .ground d [.scalar c]))
      (Known root a b e .ground d [.scalar c]) := fun c =>
    (h.passes hT hend hy hpy (Floor.below_ground _) free_operand).1 (hpy.not_absorbs hy.single (hcode ▸ by decide))
  refine hfirst.trans (carries_known fun c => (hsecond c).trans (carries_known fun c' => ?_))
  refine h.carries_stays (hT.at hp.mem hfield.2.2) (h.stays_of (hcode ▸ by decide) fun l hl => ?_) (hcode ▸ rfl)
    (hcode ▸ by decide) (hp.flow.of_op hfield.1 hfield.2.1).2 timeless_pose ?_
  · exact absurd (hl.code.symm.trans hcode) (by decide)
  · have hstep : step names? (a.node e).plain = (do enterLoop (a.node e).plain; return (a.node e).plain.next) := by
      unfold step
      simp only [Node.plain_code, hcode]
    have henter : Tandem (Pose root .ground d ([.scalar c] ++ [.scalar c'])) (enterLoop (a.node e).plain)
        fun _ => Pose root .ground (d + 1) [] := by
      have hboth : Tandem (Pose root .ground d ([.scalar c] ++ [.scalar c'])) (enterLoop (a.node e).plain)
          fun _ => Abreast .ground [] := fun m m' hm => tandem_enterLoop m m' hm.1
      exact hboth.gains fun m m' v n hm hok => enterLoop_steady hm.2 hm.1.left hok
    rw [hstep]
    exact tandem_go henter

theorem Traced.paces_iter (hi : io.code = .iter) (hm : Tree.mk i io [] ∈ (a.tree root).subtrees)
    (hf : a.Flow (.mk i io []) (some l)) :
    Paces (a.code names?) (b.code names?) (Near a b i (Pose root .ground d [])) (Known root a b l .ground d []) := by
  have hcode : (a.node i).code = .iter := (hT.code hm).trans hi
  have hstep : Tandem (Abreast .ground []) (step names? (a.node i).plain) fun _ => Topped .ground [] := by
    unfold step
    simp only [Node.plain_code, hcode]
    exact tandem_go tandem_iterate
  have hpace := h.paces_op (d := d) (hT.at hm (hi ▸ by decide)) (h.stays_of (hcode ▸ by decide) fun l hl =>
    absurd (hl.code.symm.trans hcode) (by decide)) (hcode ▸ rfl) (hcode ▸ by decide)
    (hf.of_op (hi ▸ rfl) (hi ▸ by decide)).2 hstep
  intro s hs
  refine hpace s fun s' hlt y m z m' hy => hs s' hlt y m z m' ?_
  obtain ⟨rfl, hslide, htop, hd⟩ := hy
  exact known_of_topped hslide htop hd

theorem Traced.carries_leave {ks : List Tree} (hc : o.code = .leaveloop) (hm : Tree.mk r o ks ∈ (a.tree root).subtrees)
    (hn : (a.node r).next = some q) :
    Carries (a.code names?) (b.code names?) (Near a b r fun m m' => ∃ c, Pose root .ground (d + 1) [.scalar c] m m')
      (At a b none q (Pose root .ground d [])) := by
  have hcode : (a.node r).code = .leaveloop := (hT.code hm).trans hc
  have hstep : step names? (a.node r).plain = (do leaveLoop; return (a.node r).plain.next) := by
    unfold step
    simp only [Node.plain_code, hcode]
  refine carries_near fun c => ?_
  have hleave : Tandem (Pose root .ground (d + 1) [.scalar c]) leaveLoop fun _ => Pose root .ground d [] := by
    have hboth : Tandem (Pose root .ground (d + 1) [.scalar c]) leaveLoop fun _ => Abreast .ground [] := fun m m' hm =>
      tandem_leaveLoop_ground m m' ⟨hm.1, hm.2.level⟩
    exact hboth.gains fun m m' v n hm hok => leaveLoop_steady hm.2 hok
  refine h.carries_stays (hT.at hm (hc ▸ by decide)) (h.stays_of (hcode ▸ by decide) fun l hl => ?_) (hcode ▸ rfl)
    (hcode ▸ by decide) hn timeless_pose ?_
  · exact absurd (hl.code.symm.trans hcode) (by decide)
  · rw [hstep]
    exact tandem_go hleave

theorem Traced.carries_loop {t : Tree} (hend : ∀ s, Safe (a.code names?) (b.code names?) (Ended root) s) (ht : Ranged x y body t)
    (hx : Scalar .operand x) (hy : Scalar .operand y) (hp : Placed a b root t q)
    (hround : ∀ i, Row S a b root false (d + 1) body i → Carries (a.code names?) (b.code names?)
      (Near a b (startAll body i) (Loose root (d + 1))) (Near a b i (Pose root .ground (d + 1) []))) :
    Carries (a.code names?) (b.code names?) (Near a b t.start (Pose root .ground d []))
      (At a b none q (Pose root .ground d [])) := by
  cases ht with
  | @mk r e w l i s o eo wo lo io so _ _ _ hc he hw hl hi hs =>
    obtain ⟨hfe, hfi, hne, ho, hfb, hnl, hnw, hnr⟩ := hp.flow.of_loop hc he
    have hkid : ∀ {u k : Tree}, u ∈ (a.tree root).subtrees → k ∈ u.kids → k ∈ (a.tree root).subtrees := fun hu hk =>
      subtrees_trans hu (kid_mem_subtrees hk)
    have hmw := hkid hp.mem (List.mem_cons_of_mem _ (List.mem_cons_self ..))
    have hml := hkid hmw (List.mem_singleton_self _)
    have hmi := hkid hml (List.mem_cons_self ..)
    have hms := hkid hml (List.mem_cons_of_mem _ (List.mem_singleton_self _))
    have hpe : Placed a b root (Tree.mk e eo [x, y]) i :=
      hT.kid hp.mem (hc ▸ by decide) (List.mem_cons_self ..) hfe
    have hcl : (a.node l).code = .and := (hT.code hml).trans hl
    have hci : (a.node i).code = .iter := (hT.code hmi).trans hi
    have hcw : (a.node w).code = .null := (hT.code hmw).trans hw
    have hrow : Row S a b root false (d + 1) body i := by
      have hkept : ∀ k ∈ body, ∀ pm, ¬ Falls a b pm k.root := by
        intro k hk pm hf
        obtain ⟨-, seq, leave, hseq, -, hleave, hcode⟩ := tailReturnOf_last hf.tail
        rw [(hT.holds hms).parent?_eq (nodup_subtree hT.wired.nodup hms) hk] at hseq
        cases hseq
        rw [(hT.holds hml).parent?_eq (nodup_subtree hT.wired.nodup hml) (List.mem_cons_of_mem _ (List.mem_singleton_self _))]
          at hleave
        cases hleave
        rw [root_mk, hcl] at hcode
        cases hcode
      refine ⟨fun k hk => hkid hms hk, hfb, fun k hk => hkept k (List.mem_of_mem_dropLast hk), fun _ => hkept, by rintro ⟨⟩, ?_⟩
      rw [hci]
      decide
    have hplain : (b.node l).plain = (a.node l).plain := by
      refine h.plain_short (hcl ▸ by decide) fun r hr => ?_
      have hfirst : (a.node l).first = some i := (hT.holds hml).fits.first
      rw [hr.first] at hfirst
      cases hfirst
      exact absurd (hr.code.symm.trans hci) (by decide)
    have hstart : (Tree.mk s so body).start = startAll body i := by
      cases body with
      | nil => exact absurd rfl hne
      | cons k ks => rfl
    rw [hstart] at ho
    -- The value of the last test is left below the floor that the loop had.
    have hexit : Carries (a.code names?) (b.code names?) (Known root a b w .ground (d + 1) [])
        (At a b none q (Pose root .ground d [])) := by
      have hpast : Carries (a.code names?) (b.code names?) (Known root a b w .ground (d + 1) [])
          (Known root a b r .ground (d + 1) []) :=
        h.carries_past (hT.at hmw (hw ▸ by decide)) (by rw [root_mk, Node.transparent, hcw]) hnw .operand
      exact hpast.trans ((h.carries_leave hT hc hp.mem hnr).pre fun _ _ _ _ hk => hk.near)
    have htest : Carries (a.code names?) (b.code names?) (Known root a b l .ground (d + 1) [])
        (Either (At a b none q (Pose root .ground d [])) (Near a b (startAll body i) (Loose root (d + 1)))) := by
      have hshort : Carries (a.code names?) (b.code names?) (Known root a b l .ground (d + 1) [])
          (Either (Known root a b w .ground (d + 1) []) (Near a b (startAll body i) (Dropped root a l .ground (d + 1) []))) :=
        h.carries_short (hT.at hml (hl ▸ by decide)) (hcl ▸ by decide) hnl ho hplain
      refine hshort.either (hexit.post fun _ _ _ _ => Or.inl) ((Carries.refl _).mono (fun y m z m' hd => ?_) fun _ _ _ _ => Or.inr)
      refine Near.mono hd fun n n' hdrop => ?_
      rcases hdrop with hpose | ⟨-, c, hpose⟩
      · exact ⟨.ground, [], rfl, rfl, hpose⟩
      · exact ⟨_, _, rfl, rfl, hpose⟩
    have hrounds := carries_rounds (h.paces_iter hT (d := d + 1) hi hmi hfi) htest (hround i hrow)
    have henter := h.carries_enter hT (d := d) hend he hx hy hpe
    exact henter.trans (hrounds.pre fun _ _ _ _ ha => ha.near)

end Loops

section Returns

variable (hT : Terrain S a root start) (h : Traced S a root start ps b)

include hT h

/-- The first run is at the end of the sub, and the second one may be at the block still. -/
theorem Traced.twin_ended (hnone : (a.node root).next = none) (hq : Road S a root q) (hqc : (a.node q).code = .lineseq)
    (hqn : (a.node q).next = some root) {k : Option Opcode} {s : Nat} {z : RecId} {m m' : Machine} (hslide : Slide a b k q z)
    (he : ∃ xs, Even xs m m' ∧ m.Level) :
    Twin (a.code names?) (b.code names?) s (some root) m (some z) m' := by
  have hroot := h.stays_root hT
  rcases h.slide_idle hq (Or.inl (by rw [Node.transparent, hqc])) hqn hslide with ⟨rfl, htb, z', hz', hslide'⟩ | hslide'
  · obtain rfl := hroot.stays _ _ hslide'
    obtain ⟨xs, ⟨ks, ks', heven⟩, hl⟩ := he
    cases s with
    | zero => exact twin_zero heven.off
    | succ s =>
      have hright : step names? (b.node z) (ticked m') = .ok (some z') (ticked m') := by
        rw [← hz']
        exact step_transparent htb _
      have hlater : Ended z' z' m z' (ticked m') :=
        ⟨rfl, rfl, xs, ⟨ks, ks', heven.left, heven.right.ticked, heven.off⟩, hl⟩
      refine ⟨s, Nat.le_refl _, ?_⟩
      rw [upTo_tick (b.code names?)]
      change Agree _ _ ((step names? (b.node z) >>= upTo (b.code names?) s) (ticked m'))
      rw [bind_of_ok hright]
      exact h.agree_ended hT hnone hlater s
  · obtain rfl := hroot.stays _ _ hslide'
    exact ⟨s, Nat.le_succ s, h.agree_ended hT hnone ⟨rfl, rfl, he⟩ s⟩

/-- A return that has been dropped. Its mark lies on the first stack only, and all that is left to do is to go to the
end of the sub. -/
theorem Traced.carries_fallen {pm : RecId} {Q : Spot} (hend : ∀ s, Safe (a.code names?) (b.code names?) (Ended root) s)
    (hnone : (a.node root).next = none) (hq : Road S a root q) (hqc : (a.node q).code = .lineseq)
    (hqn : (a.node q).next = some root) (ht : Scalar .item t) (hm : t ∈ (a.tree root).subtrees) (hf : a.Flow t (some q))
    (hfall : Falls a b pm t.root) :
    Carries (a.code names?) (b.code names?) (Near a b t.start (Pose root .ground 0 [])) Q := by
  obtain ⟨hret, hfirst⟩ := tailReturnOf_some hfall.tail
  obtain ⟨r, o, p, po, ks, rfl, hpo, hks⟩ := ht.of_ret ((hT.code hm).symm.trans hret)
  have ho : o.code = .ret := (hT.code hm).symm.trans hret
  have hpm : pm = p := by
    have hone : (a.node r).first = some p := (hT.holds hm).fits.first
    exact Option.some.inj (hfirst.first.symm.trans hone)
  subst hpm
  obtain ⟨hfk, hnr⟩ := hf.of_op (ho ▸ rfl) (ho ▸ by decide)
  have hkid : ∀ k ∈ Tree.follow (Tree.mk pm po [] :: ks) r, Placed a b root k.1 k.2 := fun k hk =>
    hT.kid hm (ho ▸ by decide) (mem_of_mem_follow hk) (hfk k hk)
  have hpp := hkid (Tree.mk pm po [], startAll ks r) (follow_cons (Tree.mk pm po []) ks r ▸ List.mem_cons_self ..)
  have hpn : (a.node pm).next = some (startAll ks r) := (hpp.flow.of_op (hpo ▸ rfl) (hpo ▸ by decide)).2
  have hidle : Idle a b pm ∧ Idle a b r := ⟨Or.inr ⟨pm, r, hfall, Or.inl rfl⟩, Or.inr ⟨pm, r, hfall, Or.inr rfl⟩⟩
  have hfloor : ∀ cs : List (Option CellId), Floor.Below ⟨[], [], [0], []⟩ (List.length (cs.map Item.scalar)) := by
    intro cs
    refine ⟨fun i hi => ?_, by rintro i ⟨⟩⟩
    rw [List.mem_singleton.mp hi]
    exact Nat.zero_le _
  have hmark : Carries (a.code names?) (b.code names?) (Near a b pm (Pose root .ground 0 []))
      (Near a b (startAll ks r) fun m m' => ∃ cs : List (Option CellId), Pose root ⟨[], [], [0], []⟩ 0 ([] ++ cs.map .scalar) m m') := by
    rintro s hs y m z m' ⟨k, rfl, hslide, hp⟩
    obtain ⟨n, hok, hoff, hhas⟩ := pushMark_has hp.1.left.ticked
    have hstep : step names? (a.node y) = (do pushMark; return (a.node y).next) := by
      unfold step
      simp only [hfall.code]
    have hleft : step names? (a.node y) (ticked m) = .ok (some (startAll ks r)) n := by
      rw [hstep, bind_of_ok hok, hpn]
      rfl
    refine h.twin_idle (hT.at hpp.mem (hpo ▸ by decide)) hidle.1 hpn hslide hp.1.off hleft fun s' hle z' n' hslide' hn' => ?_
    refine hs s' hle _ _ _ _ ⟨k, rfl, hslide', [], ?_⟩
    rcases hn' with rfl | rfl
    · exact hp.move hoff rfl hhas hp.1.right
    · exact hp.move hoff rfl hhas hp.1.right.ticked
  have hitems : Carries (a.code names?) (b.code names?)
      (Near a b (startAll ks r) fun m m' => ∃ cs : List (Option CellId), Pose root ⟨[], [], [0], []⟩ 0 ([] ++ cs.map .scalar) m m')
      (Near a b r fun m m' => ∃ cs : List (Option CellId), Pose root ⟨[], [], [0], []⟩ 0 ([] ++ cs.map .scalar) m m') := by
    apply carries_items
    intro k hk cs
    have hitem := hks k.1 (mem_of_mem_follow hk)
    have hplace := hkid k (follow_cons (Tree.mk pm po []) ks r ▸ List.mem_cons_of_mem _ hk)
    refine (h.passes hT hend hitem hplace (hfloor cs) free_item).1 (hplace.not_absorbs hitem.single ?_)
    rcases follow_target hk with he | ⟨j, hj, he⟩
    · rw [he, show (a.node r).code = .ret from hret]
      decide
    · rw [he]
      exact fun hshort => short_notMem_solid hshort
        (hT.start_code (hks j hj) (subtrees_trans hm (kid_mem_subtrees (List.mem_cons_of_mem _ hj))))
  refine hmark.trans (hitems.trans (carries_near fun cs => ?_))
  rintro s - y m z m' ⟨k, rfl, hslide, hp⟩
  obtain ⟨n, hok, hoff, hhas⟩ := returnSub_flat (m := ticked m) hp.1.left.ticked (List.length_eq_zero_iff.mp hp.2.depth) hp.2.leave
  have hleft : step names? (a.node y) (ticked m) = .ok (some root) n := (congrFun (step_ret names? _ hret) _).trans hok
  refine h.twin_idle (hT.at hm (ho ▸ by decide)) hidle.2 hnr hslide hp.1.off hleft fun s' hle z' n' hslide' hn' => ?_
  have hlevel : n.Level := (hp.2.of_offStack hoff).level
  refine h.twin_ended hT hnone hq hqc hqn hslide' ⟨cs.map .scalar, ⟨[], [], hhas, ?_, ?_⟩, hlevel⟩
  · rcases hn' with rfl | rfl
    · exact hp.1.right
    · exact hp.1.right.ticked
  · rcases hn' with rfl | rfl
    · exact hp.1.off.trans hoff.symm
    · exact hp.1.off.trans hoff.symm

end Returns

section Blocks

variable (hT : Terrain S a root start) (h : Traced S a root start ps b)

include hT h

theorem Traced.carries_block (hend : ∀ s, Safe (a.code names?) (b.code names?) (Ended root) s)
    (hnone : (a.node root).next = none) (hks : Block tail ks) (hrow : Row S a b root tail d ks q) :
    Carries (a.code names?) (b.code names?) (Near a b (startAll ks q) (Loose root d))
      (Near a b q fun m m' => ∃ cs : List (Option CellId), (tail = false → cs = []) ∧
        Pose root .ground d (cs.map .scalar) m m') := by
  have hdone : ∀ {tail : Bool} {d : Nat} {q : RecId} {y z : RecId} {m m' : Machine},
      At a b none q (Pose root .ground d []) y m z m' →
      Near a b q (fun m m' => ∃ cs : List (Option CellId), (tail = false → cs = []) ∧
        Pose root .ground d (cs.map .scalar) m m') y m z m' := by
    intro tail d q y z m m' hp
    obtain ⟨hy, hslide, hpose⟩ := hp
    exact ⟨none, hy, hslide, [], fun _ => rfl, hpose⟩
  have hloose : ∀ {q : RecId} {d : Nat} {y z : RecId} {m m' : Machine},
      At a b none q (Pose root .ground d []) y m z m' → Near a b q (Loose root d) y m z m' := by
    intro q d y z m m' hp
    obtain ⟨hy, hslide, hpose⟩ := hp
    exact ⟨none, hy, hslide, .ground, [], rfl, rfl, hpose⟩
  have hstart : ∀ {tail : Bool} {d : Nat} {ks : List Tree} {q : RecId}, Block tail ks → Row S a b root tail d ks q →
      (a.node (startAll ks q)).code ∉ short := by
    intro tail d ks q hks hrow
    obtain ⟨r, o, rest, rfl, hc⟩ := hks.head_eq
    have hcode : (a.node r).code = o.code := hT.code (hrow.mem _ (List.mem_cons_self ..))
    change (a.node r).code ∉ short
    rw [hcode]
    rcases hc with hc | hc <;> rw [hc] <;> decide
  -- In the rounds of a loop no return may have been dropped, and nothing is left on the stack.
  have hround : ∀ {body : List Tree} {d : Nat} {i : RecId}, (Row S a b root false (d + 1) body i → Carries (a.code names?)
      (b.code names?) (Near a b (startAll body i) (Loose root (d + 1)))
      (Near a b i fun m m' => ∃ cs : List (Option CellId), (false = false → cs = []) ∧
        Pose root .ground (d + 1) (cs.map .scalar) m m')) → Row S a b root false (d + 1) body i →
      Carries (a.code names?) (b.code names?) (Near a b (startAll body i) (Loose root (d + 1)))
        (Near a b i (Pose root .ground (d + 1) [])) := by
    intro body d i ih hrow
    refine (ih hrow).post fun y m z m' hn => hn.mono fun n n' hp => ?_
    obtain ⟨cs, hcs, hpose⟩ := hp
    rw [hcs rfl] at hpose
    exact hpose
  induction hks generalizing d q with
  | close hc => exact (h.carries_clean hT (Or.inr hc) (hrow.single (hrow.inner rfl _ (List.mem_cons_self ..)))).post fun _ _ _ _ => hdone
  | @last r o hc =>
    refine (h.carries_clean hT (Or.inl hc) (hrow.single fun pm hf => ?_)).post fun _ _ _ _ => hdone
    have hret := (tailReturnOf_some hf.tail).1
    rw [hT.code (hrow.mem _ (List.mem_cons_self ..)), op_mk, hc] at hret
    cases hret
  | @value r o e hc he =>
    have hne : [e] ≠ [] := List.cons_ne_nil _ _
    have hlast := hrow.rest hne
    refine (h.carries_clean hT (Or.inl hc) (hrow.head hne)).trans ?_
    refine Carries.pre ?_ fun _ _ _ _ => At.near
    by_cases hf : ∃ pm, Falls a b pm e.root
    · obtain ⟨pm, hf⟩ := hf
      obtain ⟨rfl, hq, hqc, hqn⟩ := hrow.outer rfl
      exact h.carries_fallen hT hend hnone hq hqc hqn he (hlast.mem e (List.mem_cons_self ..))
        (hlast.flow (e, q) (List.mem_cons_self ..)) hf
    · have hp := hlast.single (not_exists.mp hf)
      refine ((h.passes hT hend he hp (Floor.below_ground _) free_item).1 (hp.not_absorbs he.single hrow.short)).post fun y m z m' hn => ?_
      refine Near.mono hn fun n n' hpose => ?_
      obtain ⟨cs, hpose⟩ := hpose
      exact ⟨cs, by rintro ⟨⟩, hpose⟩
  | @final r o x y t body hc ht hx hy hbody ih =>
    have hne : [t] ≠ [] := List.cons_ne_nil _ _
    have hlast := hrow.rest hne
    refine (h.carries_clean hT (Or.inl hc) (hrow.head hne)).trans ?_
    refine Carries.pre ?_ fun _ _ _ _ => At.near
    refine (h.carries_loop hT hend ht hx hy (hlast.single fun pm hf => ?_) fun i => hround ih).post fun _ _ _ _ => hdone
    have hret := (tailReturnOf_some hf.tail).1
    rw [hT.code (hlast.mem t (List.mem_cons_self ..)), ht.code] at hret
    cases hret
  | empty hc hks ih =>
    refine (h.carries_clean hT (Or.inl hc) (hrow.head hks.ne_nil)).trans ?_
    exact (ih (hrow.rest hks.ne_nil)).pre fun _ _ _ _ => hloose
  | @expr tail r o e ks hc he _ hks ih =>
    have hne : e :: ks ≠ [] := List.cons_ne_nil _ _
    have hmore := hrow.rest hne
    have hp := hmore.head hks.ne_nil
    have hrest := hmore.rest hks.ne_nil
    refine (h.carries_clean hT (Or.inl hc) (hrow.head hne)).trans ?_
    refine Carries.trans (Q := Near a b (startAll ks q) (Loose root d)) ?_ (ih hrest)
    have hpasses : Passes root a b names? .effect e (startAll ks q) := h.passes hT hend he hp
    exact ((@hpasses .ground [] d (Floor.below_ground _) fun _ => ⟨rfl, rfl⟩).1
      (hp.not_absorbs he.single (hstart hks hrest))).pre fun _ _ _ _ => At.near
  | @loop tail r o x y t body ks hc ht hx hy hbody _ hks ihb ih =>
    have hne : t :: ks ≠ [] := List.cons_ne_nil _ _
    have hmore := hrow.rest hne
    refine (h.carries_clean hT (Or.inl hc) (hrow.head hne)).trans ?_
    refine Carries.trans (Q := Near a b (startAll ks q) (Loose root d)) ?_ (ih (hmore.rest hks.ne_nil))
    refine (h.carries_loop hT hend ht hx hy (hmore.head hks.ne_nil) fun i => hround ihb).mono (fun _ _ _ _ => At.near) ?_
    exact fun _ _ _ _ => hloose

end Blocks

section Units

variable (hT : Terrain S a root start) (h : Traced S a root start ps b)

include hT

theorem Terrain.row {o so : Node} {s : RecId} (hu : a.tree root = .mk root o [.mk s so ks]) (hs : so.code = .lineseq)
    (hks : Block true ks) (hf : a.Flow (a.tree root) none) : Row S a b root true 0 ks s := by
  have hroot := hT.root_road.1
  have hself : Tree.mk root o [.mk s so ks] ∈ (a.tree root).subtrees := hu ▸ self_mem_subtrees _
  have hseq : Tree.mk s so ks ∈ (a.tree root).subtrees := subtrees_trans hself (kid_mem_subtrees (List.mem_singleton_self _))
  have ho : o.code = .leavesub := (hT.code hself).symm.trans hroot
  rw [hu] at hf
  have hfs := (hf.of_op (ho ▸ rfl) (ho ▸ by decide)).1 (Tree.mk s so ks, root) (List.mem_singleton_self _)
  obtain ⟨hfk, hn⟩ := hfs.of_op (hs ▸ rfl) (hs ▸ by decide)
  have hcode : (a.node s).code = .lineseq := (hT.code hseq).trans hs
  have hmem : ∀ k ∈ ks, k ∈ (a.tree root).subtrees := fun k hk => subtrees_trans hseq (kid_mem_subtrees hk)
  refine ⟨hmem, hfk, fun k hk pm hfall => ?_, by rintro ⟨⟩, fun _ => ⟨rfl, ?_, hcode, hn⟩, ?_⟩
  · have hmore := (hT.holds hseq).fits.sibs.more (k := k.root) (List.map_dropLast .. ▸ List.mem_map_of_mem hk)
    rw [(tailReturnOf_last hfall.tail).1] at hmore
    cases hmore
  · obtain ⟨k, hk, hb, hl⟩ := hks.getLast
    refine hT.step (hT.at (hmem k (List.mem_of_getLast? hk)) hl) (Or.inl ?_)
    exact (hfk (k, s) (getLast_follow hk s)).next_eq hb
  · rw [hcode]
    decide

include h

/-- A unit about scalars and what the optimizer has made of it end the same, from whatever machine they start with. -/
theorem Traced.twin_unit {o so : Node} {s : RecId} (hu : a.tree root = .mk root o [.mk s so ks]) (hs : so.code = .lineseq)
    (hks : Block true ks) (hf : a.Flow (a.tree root) none) (hstart : (a.tree root).start = start) {m : Machine}
    (hm : m.Has ⟨[], []⟩) (hd : m.Steady root 0) (n : Nat) :
    Twin (a.code names?) (b.code names?) n (some start) m ps.start m := by
  have hrow : Row S a b root true 0 ks s := hT.row hu hs hks hf
  obtain ⟨-, hq, hqc, hqn⟩ := hrow.outer rfl
  have hnone : (a.node root).next = none := by
    have hself : Tree.mk root o [.mk s so ks] ∈ (a.tree root).subtrees := hu ▸ self_mem_subtrees _
    have ho : o.code = .leavesub := (hT.code hself).symm.trans hT.root_road.1
    rw [hu] at hf
    exact hf.next_eq (by rw [op_mk, ho]; rfl)
  have hend : ∀ n, Safe (a.code names?) (b.code names?) (Ended root) n := h.safe_ended hT hnone
  have hfirst : start = startAll ks s := by
    obtain ⟨r, o', rest, rfl, -⟩ := hks.head_eq
    rw [← hstart, hu]
    rfl
  obtain ⟨z, hz, hslide⟩ := h.head
  have hblock := h.carries_block hT hend hnone hks hrow
  have hleave : Carries (a.code names?) (b.code names?) (Near a b s fun m m' => ∃ cs : List (Option CellId), (true = false → cs = []) ∧
      Pose root .ground 0 (cs.map .scalar) m m') (Ended root) := by
    have ht : (a.node s).transparent = true := by rw [Node.transparent, hqc]
    have hpast : Carries (a.code names?) (b.code names?) (After root a b .item s .ground 0 []) (After root a b .item root .ground 0 []) :=
      h.carries_past hq ht hqn .item
    refine hpast.mono (fun y m z m' hp => ?_) fun y m z m' hp => ?_
    · refine Near.mono hp fun n n' hpose => ?_
      obtain ⟨cs, -, hpose⟩ := hpose
      exact ⟨cs, hpose⟩
    · obtain ⟨k, rfl, hslide, cs, hpose⟩ := hp
      have hroot := (h.stays_root hT).stays _ _ hslide
      exact ⟨rfl, hroot, cs.map .scalar, ⟨[], [], hpose.1⟩, hpose.2.level⟩
  rw [hz]
  refine (hblock.trans hleave) n (fun n' _ => hend n') start m z m ⟨none, hfirst, hfirst ▸ hslide, .ground, [], rfl, rfl, ?_⟩
  exact ⟨⟨hm, hm, rfl⟩, hd⟩

end Units

end Peep

end OpTree
