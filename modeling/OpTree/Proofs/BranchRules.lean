import OpTree.Proofs.SteadyRules

/-!
# Rules about branches

Branching ops are threaded, decided by constants or freed from negations, and returns at the end of a
sub fall through. Each of these rules keeps a unit wired.
-/

namespace OpTree

set_option autoImplicit false

namespace Peep

open Arena OpTree.Tree

variable {S : Course} {root : RecId} {ps : PeepState} {a b c : Arena}

variable {α β : Type} {E : Failure → Prop} {prev : Option RecId} {s : PeepSlot}

theorem passes_congr {n n' : Node} (h : n'.code = n.code) : n'.passes = n.passes := by
  rw [Node.passes, Node.passes, h]

theorem gives_threadBranch {o : RecId} (h : Tended S root ps a) (hs : Waits S root a (.other o))
    (hp : (a.node o).passes = true) : Gives E (threadBranch o) ps a fun _ => Settled S root a := by
  obtain ⟨ho, hS, -⟩ := id hs
  unfold threadBranch
  refine Gives.andThen (gives_skipNulls h hs) fun ps₁ b hb => ?_
  refine gives_lift_bind (TreeM.node_apply o b) (gives_lift_bind (TreeM.get_apply b) ?_)
  have hpass : ∀ n : Node, n.code = (b.node o).code → n.passes = true := fun n hn =>
    (passes_congr hn).trans (hb.2.passes o ho hp)
  refine Gives.andThen (gives_threadFrom hpass _ hb.1 (hb.2.recs ho) hS) fun ps₂ c hc => ?_
  have hac := hb.trans hc
  have hoc : o ∈ (c.tree root).recs := hac.2.recs ho
  refine gives_lift_bind (TreeM.node_apply o c) ?_
  split
  · exact gives_pure hac
  · rename_i r hr
    refine gives_lift_bind (TreeM.node_apply r c) ?_
    refine gives_ite (fun hcond => ?_) fun _ => gives_pure hac
    have hrc : (c.node r).code = .and ∨ (c.node r).code = .or ∨ (c.node r).code = .dor := by
      simp only [Bool.and_eq_true, Bool.or_eq_true, decide_eq_true_iff] at hcond
      rcases hcond.2 with ⟨-, he⟩ | ⟨-, he⟩ <;> simp [he]
    obtain ⟨hrp, hrl⟩ := Node.branch_of_code hrc
    have hland := hc.1.wired.links o hoc hS r (Or.inl hr)
    obtain ⟨z, hz⟩ := Option.ne_none_iff_exists'.mp (hc.1.wired.arm r hland.mem hrl)
    rw [hz]
    refine Gives.andThen (gives_setNext hc.1 hoc (hc.1.past hland hrp (hc.1.link hland (Or.inr hz)))) fun ps₃ d hd => ?_
    exact (gives_noteChange _ hd.1).mono fun _ _ _ hk => (hac.trans hd).trans hk

def Moved (S : Course) (root : RecId) (a : Arena) (prev : Option RecId) (s : PeepSlot)
    (next : Option RecId) (ps' : PeepState) (b : Arena) : Prop :=
  Settled S root a ps' b ∧ ∀ z, next = some z → Leads S root b prev s z

theorem gives_relink_note {z : RecId} {kind : String} {v : α} (h : Settled S root a ps b)
    (hs : Waits S root b s) (hp : ∀ p, prev = some p → p ∈ (b.tree root).recs ∧ (b.node p).processed = true)
    (hz : Lands S b (b.tree root) (source prev s) z) :
    Gives E (do
      relink prev s (some z)
      noteChange kind
      return v : Peep α) ps b fun w ps' c => w = v ∧ Moved S root a prev s (some z) ps' c := by
  refine Gives.andThen (gives_relink h.1 hs (fun p hq => (hp p hq).1) hz) fun ps₁ c hc => ?_
  refine Gives.andThen (gives_noteChange _ hc.1) fun ps₂ d hd' => gives_pure ⟨rfl, (h.trans hc).trans hd', ?_⟩
  rintro y ⟨⟩
  exact (hc.2.trans hd'.2).leads ⟨hp, hz⟩

theorem gives_elide {o : RecId} (h : Tended S root ps a) (hs : Waits S root a s) (ho : Leads S root a prev s o)
    (hp : (a.node o).passes = true) :
    Gives E (do
      relink prev s (a.node o).next
      noteChange "elide"
      return .goOn (a.node o).next false : Peep Visit) ps a
      fun w ps' b => w = .goOn (a.node o).next false ∧ Moved S root a prev s (a.node o).next ps' b := by
  obtain ⟨z, hz, hl⟩ := h.onto ho.lands hp
  rw [hz]
  exact gives_relink_note (Settled.refl h) hs ho.known hl

theorem gives_constBranch {c : RecId} (h : Tended S root ps a) (hs : Waits S root a s)
    (hc : Leads S root a prev s c) (hcode : (a.node c).code = .const) (hm : (a.node c).processed = true) :
    Gives E (constBranch? c prev s) ps a fun v ps' b => match v with
      | none => Settled S root a ps' b
      | some (next, keep) => Moved S root a (if keep then some c else prev) s next ps' b := by
  unfold constBranch?
  refine gives_lift_bind (TreeM.node_apply c a) ?_
  split
  · exact gives_pure (Settled.refl h)
  · rename_i l hl
    refine gives_lift_bind (TreeM.node_apply l a) ?_
    refine gives_ite (fun _ => gives_pure (Settled.refl h)) fun _ => ?_
    have hland := h.link hc.lands (Or.inl hl)
    split
    · exact gives_pure (Settled.refl h)
    · rename_i stays hans
      have hlc : (a.node l).code = .and ∨ (a.node l).code = .or ∨ (a.node l).code = .dor := by
        unfold answers at hans
        split at hans <;> simp_all
      obtain ⟨hlp, hll⟩ := Node.branch_of_code hlc
      have hne : c ≠ l := fun he => by
        rw [← he, hcode] at hlc
        simp at hlc
      have hsoft : (a.node l).Softens { (a.node l).neutralized with priv := (a.node l).priv ||| Priv.short } := by
        refine (Node.softens_neutralized ?_).trans (Node.softens_priv _ _)
        rcases hlc with he | he | he <;> rw [he] <;> decide
      have hb := h.update (f := fun x => { x.neutralized with priv := x.priv ||| Priv.short }) hland.mem hsoft
      refine gives_lift_bind (TreeM.update_apply l _ a) (gives_modify_bind ?_)
      have hbc := node_update_of_ne (a := a) hne fun x => { x.neutralized with priv := x.priv ||| Priv.short }
      generalize a.update l _ = b at hb hbc
      replace hb : Settled S root a { ps with stats := ps.stats.count (utf8 "short_circuit") } b :=
        ⟨hb.1.of_start rfl rfl, hb.2⟩
      have hcm : c ∈ (b.tree root).recs := hb.2.recs hc.lands.mem
      refine gives_ite (fun _ => ?_) fun _ => ?_
      · refine Gives.andThen (gives_update hb.1 hcm (Node.softens_priv _ _)) fun ps₁ d hd =>
          gives_pure ⟨hb.trans hd, ?_⟩
        rintro z ⟨⟩
        have had := hb.2.trans hd.2
        refine ⟨?_, had.lands _ _ hland⟩
        rintro p ⟨⟩
        exact ⟨had.recs hc.lands.mem, (had.marks _).trans hm⟩
      · obtain ⟨hnull, hpass⟩ := hb.1.neutralize hcm (by rw [hbc, hcode]; decide)
        refine gives_lift_bind (TreeM.update_apply c _ b) ?_
        generalize b.update c Node.neutralized = d at hnull hpass
        have had := hb.trans hnull
        have hknown := had.2.known hc.known
        obtain ⟨z, hz⟩ := Option.ne_none_iff_exists'.mp (h.wired.arm l hland.mem hll)
        have hskip := had.1.past (had.2.lands _ _ hc.lands) hpass (had.2.lands _ _ hland)
        have hdest : Lands S d (d.tree root) (source prev s) z :=
          had.1.past hskip (had.2.passes l hland.mem hlp) (had.2.lands _ _ (h.link hland (Or.inr hz)))
        rw [hz]
        refine Gives.andThen (gives_relink had.1 (had.2.onward.waits hs) (fun p hp => (hknown p hp).1) hdest)
          fun ps₁ e he => gives_pure ⟨had.trans he, ?_⟩
        rintro y ⟨⟩
        exact he.2.leads ⟨hknown, hdest⟩

theorem gives_notBranch {r : RecId} (h : Tended S root ps a) (hs : Waits S root a s)
    (hr : Leads S root a prev s r) (hcode : (a.node r).code = .not) :
    Gives E (notBranch? r prev s) ps a fun v ps' b => match v with
      | none => Settled S root a ps' b
      | some l => Moved S root a prev s (some l) ps' b := by
  unfold notBranch?
  refine gives_lift_bind (TreeM.node_apply r a) ?_
  split
  · exact gives_pure (Settled.refl h)
  · rename_i l hl
    refine gives_lift_bind (TreeM.node_apply l a) ?_
    refine gives_ite (fun _ => gives_pure (Settled.refl h)) fun _ => ?_
    have hland := h.link hr.lands (Or.inl hl)
    dsimp only
    split
    · exact gives_pure (Settled.refl h)
    · rename_i t ht
      have hturn : ((a.node l).code, t) ∈ Node.turns := by
        split at ht <;> first | (rename_i he; cases ht; rw [he]; decide) | cases ht
      have hne : r ≠ l := fun he => by
        rw [← he, hcode] at hturn
        simp [Node.turns] at hturn
      have hb := h.retype hland.mem hturn
      refine gives_lift_bind (retype_apply l t a) ?_
      have hbr := node_update_of_ne (a := a) hne (turned a l t)
      generalize a.update l _ = b at hb hbr
      have hrm : r ∈ (b.tree root).recs := hb.2.recs hr.lands.mem
      obtain ⟨hnull, hpass⟩ := hb.1.neutralize hrm (by rw [hbr, hcode]; decide)
      refine gives_lift_bind (TreeM.update_apply r _ b) ?_
      generalize b.update r Node.neutralized = d at hnull hpass
      have had := hb.trans hnull
      have hskip := had.1.past (had.2.lands _ _ hr.lands) hpass (had.2.lands _ _ hland)
      refine (gives_relink_note had (had.2.onward.waits hs) (had.2.known hr.known) hskip).mono ?_
      rintro v ps' e ⟨rfl, he⟩
      exact he

theorem tailReturnOf_some {pm ret : RecId} (h : tailReturnOf? a pm = some ret) :
    (a.node ret).code = .ret ∧ FirstKid a pm ret := by
  obtain ⟨r, hr, h⟩ := some_bind.mp h
  obtain ⟨hg, h⟩ := guard_bind.mp h
  obtain ⟨seq, -, h⟩ := some_bind.mp h
  obtain ⟨-, h⟩ := guard_bind.mp h
  obtain ⟨leave, -, h⟩ := some_bind.mp h
  obtain ⟨-, h⟩ := guard_bind.mp h
  cases h
  simp only [Bool.and_eq_true, decide_eq_true_iff] at hg
  exact ⟨hg.1.1, hr, hg.1.2⟩

theorem Tended.last_mem (h : Tended S root ps a) {r l : RecId} (hr : r ∈ (a.tree root).recs)
    (hl : a.last? r = some l) :
    ∃ w ∈ (a.tree root).subtrees, w.root = r ∧ l ∈ w.recs ∧ S.out l = S.into r := by
  obtain ⟨w, hw, rfl, hh, hn⟩ := h.subtree hr
  rw [hh.last?_eq hn] at hl
  obtain ⟨k, hk, rfl⟩ := Option.map_eq_some_iff.mp hl
  have hkid := List.mem_of_getLast? hk
  exact ⟨w, hw, rfl, recs_subset (kid_mem_subtrees hkid) k.root_mem_recs, (h.wired.leveled.subtree hw).kid_out hkid⟩

theorem Tended.last_of_first (h : Tended S root ps a) {r k : RecId} (hr : r ∈ (a.tree root).recs)
    (hk : (a.node r).first = some k) : ∃ l, a.last? r = some l := by
  obtain ⟨w, hw, rfl, hh, hn⟩ := h.subtree hr
  rw [hh.fits.first] at hk
  obtain ⟨j, hj, -⟩ := Option.map_eq_some_iff.mp hk
  rw [hh.last?_eq hn, List.getLast?_eq_some_getLast (List.ne_nil_of_mem (List.mem_of_head? hj))]
  exact ⟨_, rfl⟩

theorem Tended.next_of_code (h : Tended S root ps a) {r : RecId} (hr : r ∈ (a.tree root).recs) (hS : S r)
    (hc : (a.node r).code ≠ .leavesub) : ∃ z, (a.node r).next = some z := by
  refine Option.ne_none_iff_exists'.mp (h.wired.next r hr hS ?_)
  rintro rfl
  exact hc h.wired.code_root

theorem gives_fallThrough {pm ret y z : RecId} {ps₁ : PeepState} (h : Tended S root ps a) (hs : Waits S root a s)
    (hpm : Leads S root a prev s pm) (hcode : (a.node pm).code = .pushmark) (hrc : (a.node ret).code = .ret)
    (hrm : ret ∈ (a.tree root).recs) (hy : (a.node pm).next = some y) (hz : Lands S a (a.tree root) (some ret) z)
    (hb : Settled S root a ps₁ b) (hbc : ∀ r, (b.node r).code = (a.node r).code) :
    Gives E (do
      TreeM.neutralize pm
      TreeM.neutralize ret
      relink prev s (if some y = some ret then some z else some y)
      noteChange "tail_return"
      return some (if some y = some ret then some z else some y) :
        Peep (Option (Option RecId))) ps₁ b fun v ps' c => match v with
      | none => ps' = ps ∧ c = a
      | some next => Moved S root a prev s next ps' c := by
  obtain ⟨hnull, hpass⟩ := hb.1.neutralize (hb.2.recs hpm.lands.mem) (by rw [hbc, hcode]; decide)
  have hne : ret ≠ pm := fun he => by
    rw [he, hcode] at hrc
    cases hrc
  have hret : (b.update pm Node.neutralized).node ret = b.node ret := node_update_of_ne hne _
  refine gives_lift_bind (TreeM.update_apply pm _ b) ?_
  generalize b.update pm Node.neutralized = c at hnull hpass hret
  have hac := hb.trans hnull
  obtain ⟨hnull', hpass'⟩ := hac.1.neutralize (hac.2.recs hrm) (by rw [hret, hbc, hrc]; decide)
  refine gives_lift_bind (TreeM.update_apply ret _ c) ?_
  generalize c.update ret Node.neutralized = d at hnull' hpass'
  have had := hac.trans hnull'
  have hpassd : (d.node pm).passes = true := hnull'.2.passes pm (hac.2.recs hpm.lands.mem) hpass
  have hland := had.1.past (had.2.lands _ _ hpm.lands) hpassd (had.2.lands _ _ (h.link hpm.lands (Or.inl hy)))
  have hend {w} hw := @gives_relink_note S root ps₁ a d (Option (Option RecId)) E prev s w "tail_return" (some (some w))
    had (had.2.onward.waits hs) (had.2.known hpm.known) hw
  by_cases hyr : y = ret
  · subst hyr
    rw [if_pos rfl]
    refine (hend (had.1.past hland hpass' (had.2.lands _ _ hz))).mono ?_
    rintro v ps' e ⟨rfl, he⟩
    exact he
  · rw [if_neg fun he => hyr (Option.some.inj he)]
    refine (hend hland).mono ?_
    rintro v ps' e ⟨rfl, he⟩
    exact he

theorem gives_tailReturn {pm : RecId} (h : Tended S root ps a) (hs : Waits S root a s)
    (hpm : Leads S root a prev s pm) (hcode : (a.node pm).code = .pushmark) :
    Gives E (tailReturn? pm prev s) ps a fun v ps' b => match v with
      | none => ps' = ps ∧ b = a
      | some next => Moved S root a prev s next ps' b := by
  unfold tailReturn?
  refine gives_lift_bind (TreeM.get_apply a) ?_
  split
  · exact gives_pure ⟨rfl, rfl⟩
  · rename_i ret hret
    obtain ⟨hrc, hkid⟩ := tailReturnOf_some hret
    have hrm : ret ∈ (a.tree root).recs := h.parent_mem hpm.lands.mem hkid.parent
    have hrS : S ret := h.wired.live_of hrm (by rw [hrc]; exact nofun)
    obtain ⟨y, hy⟩ := h.next_of_code hpm.lands.mem hpm.lands.live (by rw [hcode]; exact nofun)
    obtain ⟨z, hz⟩ := h.next_of_code hrm hrS (by rw [hrc]; exact nofun)
    have hafter : Lands S a (a.tree root) (some ret) z := h.wired.links ret hrm hrS z (Or.inl hz)
    obtain ⟨l, hl⟩ := h.last_of_first hrm hkid.first
    obtain ⟨w, hw, hwr, hlw, hlevel⟩ := h.last_mem hrm hl
    have hflat := h.wired.flat hrm (Node.turn_of_ne (by rw [hrc]; exact nofun) (by rw [hrc]; exact nofun))
    have hrest {qs b} hb :=
      @gives_fallThrough S root ps a b E prev s pm ret y z qs h hs hpm hcode hrc hrm hy hafter hb
    dsimp only
    rw [hl, hy, hz]
    -- The last operand leads where the return led.
    refine gives_ite (fun _ => gives_lift_bind (TreeM.update_apply l _ a) (hrest ?_ fun r => ?_)) fun _ =>
      hrest (Settled.refl h) fun _ => rfl
    · exact h.setNext (recs_subset hw hlw) (hafter.below h.wired.nodup hw hwr hlw (hlevel.trans hflat.symm))
    · rcases node_update_cases (a := a) (r := l) (f := fun n => { n with next := some z, real := true }) r with
        he | ⟨-, he⟩ <;> rw [he]

end Peep

end OpTree
