import OpTree.Proofs.Drops

/-!
# Rerouting a unit without containers

The two rules that make ops do nothing: a negation in front of a void branching op is taken in by the op, and a
return at the end of a sub falls through. With them all links of a unit stay traced through a whole optimization.
-/

namespace OpTree

set_option autoImplicit false

namespace Peep

open Arena Opcode

variable {S : Course} {root start : RecId} {a b c : Arena} {ps ps' : PeepState} {k : Option Opcode} {E : Failure → Prop}
  {prev : Option RecId} {s : PeepSlot} {r l : RecId} {t : Opcode}

/-- What a rule comes to that may lead the walk elsewhere: nothing, or a new place. -/
def Rerouted (S : Course) (a : Arena) (root start : RecId) (ps : PeepState) (b : Arena) (prev : Option RecId) (s : PeepSlot)
    (next? : Option (Option RecId)) (ps' : PeepState) (c : Arena) : Prop :=
  match next? with
  | none => ps' = ps ∧ c = b
  | some next => Traced S a root start ps' c ∧ ∀ z, next = some z → Onto S a root start c prev s z

section Rules

variable {o : RecId} (hT : Terrain S a root start) (h : Traced S a root start ps b)

include hT h

theorem traces_constBranch (ho : Road S a root o) (hc : (b.node o).code = .const) :
    Gives E (constBranch? o prev s) ps b fun v ps' c => v = none ∧ ps' = ps ∧ c = b := by
  have hcode : (a.node o).code = .const := by
    rw [← h.code_eq (by simp [hc]) (by rw [hc]; decide), hc]
  unfold constBranch?
  refine gives_lift_bind (TreeM.node_apply o b) ?_
  split
  · exact gives_pure ⟨rfl, rfl, rfl⟩
  · rename_i l hl
    refine gives_lift_bind (TreeM.node_apply l b) (gives_ite (fun _ => gives_pure ⟨rfl, rfl, rfl⟩) fun hfirst => ?_)
    rw [not_not, h.first] at hfirst
    have hrel := h.next o ho fun _ => not_absorbed (by simp [hc])
    rw [hl] at hrel
    generalize hy : (a.node o).next = y at hrel
    cases hrel with
    | some hslide =>
      have hroad := hT.slide (hT.step ho (Or.inl hy)) hslide
      split
      · exact gives_pure ⟨rfl, rfl, rfl⟩
      · rename_i stays hans
        have hshort : (b.node l).code ∈ short := by
          unfold answers at hans
          split at hans
          case h_4 => cases hans
          all_goals
            rename_i hlc
            rw [hlc]
            decide
        exact absurd hcode (hT.operand l hroad.1 (h.short_of hshort) o hfirst)

theorem traces_notBranch (ho : Road S a root o) (honto : Onto S a root start b prev s o) (hc : (b.node o).code = .not)
    (hm : (b.node o).processed = true) (hprev : ∀ p, prev = some p → p ≠ o)
    (hfresh : ∀ l ∈ (a.tree root).recs, (a.node l).code ∈ short → (a.node l).first = some o → (b.node l).processed = false) :
    Gives E (notBranch? o prev s) ps b fun v => Rerouted S a root start ps b prev s (v.map some) := by
  unfold notBranch?
  refine gives_lift_bind (TreeM.node_apply o b) ?_
  split
  · exact gives_pure ⟨rfl, rfl⟩
  · rename_i l hl
    refine gives_lift_bind (TreeM.node_apply l b) (gives_ite (fun _ => gives_pure ⟨rfl, rfl⟩) fun hcond => ?_)
    simp only [Bool.or_eq_true, decide_eq_true_iff, not_or, not_not] at hcond
    dsimp only
    split
    · exact gives_pure ⟨rfl, rfl⟩
    · rename_i t ht
      have hop : Opposite (b.node l).code t := by
        split at ht
        · rename_i hlc
          cases ht
          exact Or.inl ⟨hlc, rfl⟩
        · rename_i hlc
          cases ht
          exact Or.inr ⟨hlc, rfl⟩
        · cases ht
      have hne : o ≠ l := by
        rintro rfl
        have hs := hop.short
        rw [hc] at hs
        exact absurd hs (by decide)
      have hrel := h.next o ho fun _ => not_absorbed (by simp [hc])
      rw [hl] at hrel
      generalize hy : (a.node o).next = y at hrel
      cases hrel with
      | some hslide =>
        have hroad := hT.slide (hT.step ho (Or.inl hy)) hslide
        have hb : Flippable b o l := ⟨hc, hop.short, hl, hcond.1, hcond.2, hm,
          hfresh l hroad.1 (h.short_of hop.short) ((h.first l).symm.trans hcond.1)⟩
        refine gives_lift_bind (retype_apply l t b) (gives_lift_bind (TreeM.update_apply o _ _) ?_)
        have hnode : ∀ q, ((b.update l (turned b l t)).update o Node.neutralized).node q =
            if q = o then (b.node o).neutralized else if q = l then turned b l t (b.node l) else b.node q := by
          intro q
          by_cases hqo : q = o
          · subst hqo
            rw [if_pos rfl, node_update_self (by rw [size_update]; exact h.lt hT ho.1), node_update_of_ne hne]
          · rw [if_neg hqo, node_update_of_ne hqo]
            by_cases hql : q = l
            · subst hql
              rw [if_pos rfl, node_update_self (h.lt hT hroad.1)]
            · rw [if_neg hql, node_update_of_ne hql]
        have hsize : ((b.update l (turned b l t)).update o Node.neutralized).recs.size = b.recs.size := by
          rw [size_update, size_update]
        generalize (b.update l (turned b l t)).update o Node.neutralized = c at hnode hsize
        have hneut : (b.node o).neutralized = { b.node o with ex := (b.node o).code, code := .null } := by
          rw [Node.neutralized, hc]
          rfl
        have hc' : Flips b c o l := by
          refine ⟨⟨hsize, fun q => ?_, fun q => ?_, fun q => ?_, fun q => ?_, fun q => ?_⟩, fun q => ?_, fun q hqo hql => ?_,
            ?_, ?_, ?_⟩
          iterate 6
            rw [hnode q, hneut]
            split
            · rename_i hq
              subst hq
              rfl
            · split
              · rename_i hq
                subst hq
                rfl
              · rfl
          · rw [hnode q, if_neg hqo, if_neg hql]
          · rw [hnode l, if_neg (Ne.symm hne), if_pos rfl]
            rfl
          · rw [hnode l, if_neg (Ne.symm hne), if_pos rfl]
            exact hop
          · rw [hnode o, if_pos rfl]
            exact Node.neutralized_code _
        have habs := hc'.absorbs hT h ho hb
        refine (traces_relink hT (h.flip hT ho hb hc') (Onto.flip hT h ho hb hc' honto hprev) (z := l) fun {k y} _ hy => ?_).bind ?_
        · refine hy.trans (fun hsolid => hsolid.not_absorbs habs) fun x hg => ?_
          cases hg with
          | self => exact .stop (.taken habs)
          | taken hq =>
            have hs := hq.opposite.short
            rw [hb.code_operand h] at hs
            exact absurd hs (by decide)
        · rintro _ ps₁ d ⟨hd, hdo⟩
          refine (traces_noteChange hd _).bind ?_
          rintro _ ps₂ e ⟨he, rfl⟩
          refine gives_pure ⟨he, ?_⟩
          rintro z ⟨⟩
          exact hdo

theorem drops_of_apply {pm ret : RecId} {d : Arena} (hpm : Road S a root pm) (hret : Road S a root ret) (hne : ret ≠ pm)
    (htail : tailReturnOf? a pm = some ret) (hmark : (b.node pm).code = .pushmark) (hrc : (b.node ret).code = .ret)
    (hd : Linkwise b d) (hother : ∀ q, (d.node q).other = (b.node q).other)
    (hproc : ∀ q, (d.node q).processed = (b.node q).processed)
    (hnext : ∀ q, (d.node q).next = (b.node q).next ∨
      (a.kids ret).getLast? = some q ∧ q ≠ pm ∧ (d.node q).next = (b.node ret).next) :
    Drops a b ((d.update pm Node.neutralized).update ret Node.neutralized) pm ret := by
  have hnode : ∀ q, ((d.update pm Node.neutralized).update ret Node.neutralized).node q =
      if q = ret ∨ q = pm then (d.node q).neutralized else d.node q := by
    intro q
    by_cases hqr : q = ret
    · subst hqr
      rw [if_pos (Or.inl rfl), node_update_self (by rw [size_update, hd.size]; exact h.lt hT hret.1), node_update_of_ne hne]
    · rw [node_update_of_ne hqr]
      by_cases hqp : q = pm
      · subst hqp
        rw [if_pos (Or.inr rfl), node_update_self (by rw [hd.size]; exact h.lt hT hpm.1)]
      · rw [if_neg (not_or.mpr ⟨hqr, hqp⟩), node_update_of_ne hqp]
  have hkeep : ∀ n : Node, n.neutralized.first = n.first ∧ n.neutralized.sib = n.sib ∧ n.neutralized.want = n.want ∧
      n.neutralized.other = n.other ∧ n.neutralized.processed = n.processed ∧ n.neutralized.next = n.next := by
    intro n
    unfold Node.neutralized
    split <;> exact ⟨rfl, rfl, rfl, rfl, rfl, rfl⟩
  have hsize : ((d.update pm Node.neutralized).update ret Node.neutralized).recs.size = b.recs.size := by
    rw [size_update, size_update, hd.size]
  generalize (d.update pm Node.neutralized).update ret Node.neutralized = c at hnode hsize
  have hfields : ∀ q, (c.node q).first = (d.node q).first ∧ (c.node q).sib = (d.node q).sib ∧
      (c.node q).want = (d.node q).want ∧ (c.node q).other = (d.node q).other ∧
      (c.node q).processed = (d.node q).processed ∧ (c.node q).next = (d.node q).next := by
    intro q
    rw [hnode q]
    split
    · exact hkeep _
    · exact ⟨rfl, rfl, rfl, rfl, rfl, rfl⟩
  refine ⟨⟨hsize, fun q => ?_, fun q => ?_, fun q => ?_, fun q => ?_, fun q => ?_⟩, htail, hT.mark pm hpm.1 ret htail, hmark, hrc, fun q hqp hqr => ?_, ?_, ?_,
    fun q => ?_⟩
  · rw [(hfields q).1, hd.node q]
  · rw [(hfields q).2.1, hd.node q]
  · rw [(hfields q).2.2.1, hd.node q]
    rfl
  · rw [(hfields q).2.2.2.1, hother]
  · rw [(hfields q).2.2.2.2.1, hproc]
  · rw [hnode q, if_neg (not_or.mpr ⟨hqr, hqp⟩), hd.node q]
    rfl
  · rw [hnode pm, if_pos (Or.inr rfl), Node.neutralized_code]
  · rw [hnode ret, if_pos (Or.inl rfl), Node.neutralized_code]
  · rw [(hfields q).2.2.2.2.2]
    exact hnext q

theorem traces_tailReturn (hten : Tended S root ps b) (hwithin : (b.tree root).recs ⊆ (a.tree root).recs)
    (hom : o ∈ (b.tree root).recs) (ho : Road S a root o) (honto : Onto S a root start b prev s o)
    (hc : (b.node o).code = .pushmark) :
    Gives E (tailReturn? o prev s) ps b fun v => Rerouted S a root start ps b prev s v := by
  unfold tailReturn?
  refine gives_lift_bind (TreeM.get_apply b) ?_
  split
  · exact gives_pure ⟨rfl, rfl⟩
  · rename_i ret hret
    obtain ⟨hrc, hkid⟩ := tailReturnOf_some hret
    have hrm := hten.parent_mem hom hkid.parent
    have hrS : Road S a root ret := ⟨hwithin hrm, hten.wired.live_of hrm (by rw [hrc]; decide)⟩
    have htail := h.tailReturnOf hret
    obtain ⟨l, hl⟩ := hten.last_of_first hrm hkid.first
    have hlast : (a.kids ret).getLast? = some l := by
      rw [← h.kids_eq, ← hten.last?_eq hrm, hl]
    have hne : ret ≠ o := by
      rintro rfl
      rw [hc] at hrc
      cases hrc
    obtain ⟨z, hz, -⟩ := h.onto hT hrS (by rw [(tailReturnOf_some htail).1]; decide)
    have hcode : (a.node o).code = .pushmark := hT.mark o ho.1 ret htail
    obtain ⟨y, hy, -⟩ := h.onto hT ho (by rw [hcode]; decide)
    obtain ⟨w, hw⟩ : ∃ w, some w = if (b.node o).next = some ret then (b.node ret).next else (b.node o).next := by
      split
      · exact ⟨z, hz.symm⟩
      · exact ⟨y, hy.symm⟩
    have hend : ∀ {d : Arena}, Linkwise b d → (∀ q, (d.node q).other = (b.node q).other) →
        (∀ q, (d.node q).processed = (b.node q).processed) → (∀ q, (d.node q).next = (b.node q).next ∨
          (a.kids ret).getLast? = some q ∧ q ≠ o ∧ (d.node q).next = (b.node ret).next) → Gives E (do
        TreeM.neutralize o
        TreeM.neutralize ret
        relink prev s (if (b.node o).next = some ret then (b.node ret).next else (b.node o).next)
        noteChange "tail_return"
        return some (if (b.node o).next = some ret then (b.node ret).next else (b.node o).next) :
          Peep (Option (Option RecId))) ps d fun v => Rerouted S a root start ps b prev s v := by
      intro d hd hother hproc hnext
      have hdrop := drops_of_apply hT h ho hrS hne htail hc hrc hd hother hproc hnext
      refine gives_lift_bind (TreeM.update_apply o _ d) (gives_lift_bind (TreeM.update_apply ret _ _) ?_)
      generalize (d.update o Node.neutralized).update ret Node.neutralized = c at hdrop
      rw [← hw]
      refine (traces_relink hT (h.drop hT hdrop ho hrS) (Onto.drop hT h hdrop ho honto) (z := w)
        fun _ hx => hdrop.past hT h ho hrS hw hx).bind ?_
      rintro _ ps₁ e ⟨he, heo⟩
      refine (traces_noteChange he _).bind ?_
      rintro _ ps₂ f ⟨hf, rfl⟩
      refine gives_pure ⟨hf, ?_⟩
      rintro x ⟨⟩
      exact heo
    dsimp only
    rw [hl]
    refine gives_ite (fun hlo => gives_lift_bind (TreeM.update_apply l _ b) ?_) fun _ =>
      hend (Linkwise.refl b) (fun _ => rfl) (fun _ => rfl) fun _ => Or.inl rfl
    have hcases := fun q => node_update_cases (a := b) (r := l) (f := fun n => { n with next := (b.node ret).next, real := true }) q
    refine hend (linkwise_update (fun _ => rfl) fun _ hm => hm) (fun q => ?_) (fun q => ?_) fun q => ?_
    · rcases hcases q with he | ⟨-, he⟩ <;> rw [he]
    · rcases hcases q with he | ⟨-, he⟩ <;> rw [he]
    · rcases hcases q with he | ⟨rfl, he⟩
      · exact Or.inl (by rw [he])
      · exact Or.inr ⟨hlast, hlo, by rw [he]⟩

end Rules

section Quiet

variable {o : RecId} (hT : Terrain S a root start) (h : Traced S a root start ps b) (hten : Tended S root ps b)
  (hwithin : (b.tree root).recs ⊆ (a.tree root).recs)

include hT h hwithin

theorem Traced.simple {q : RecId} (hq : q ∈ (b.tree root).recs) : (b.node q).code ∉ compound := by
  intro hc
  refine hT.simple q (hwithin hq) ?_
  rw [← h.code_eq]
  · exact hc
  · intro hn
    rw [hn] at hc
    exact absurd hc (by decide)
  · revert hc
    generalize (b.node q).code = t
    revert t
    decide

include hten

theorem traces_padrange (ho : o ∈ (b.tree root).recs) :
    Gives E (padrange o) ps b fun _ ps' c => ps' = ps ∧ c = b := by
  unfold padrange
  refine gives_lift_bind (TreeM.get_apply b) ?_
  split
  · exact gives_pure ⟨rfl, rfl⟩
  · rename_i run hrun
    have hd := declared_of_some hrun
    have hsimple := h.simple hT hwithin (hten.parent_mem ho hd.parent)
    rw [hd.code] at hsimple
    exact absurd (by decide) hsimple

theorem Traced.collects_nothing {range : LoopRange} {fuel : Nat} {stack : List RecId} {acc acc' : LoopAccesses}
    (hs : ∀ q ∈ stack, q ∈ (b.tree root).recs) (hok : collectAccesses b range fuel stack acc = some acc') : acc' = acc := by
  induction fuel generalizing stack with
  | zero =>
    cases stack with
    | nil =>
      cases hok
      rfl
    | cons q stack => cases hok
  | succ fuel ih =>
    cases stack with
    | nil =>
      cases hok
      rfl
    | cons q stack =>
      have hq := hs q (List.mem_cons_self ..)
      have hsimple := h.simple hT hwithin hq
      have helem : ((b.node q).code == Opcode.aelem) = false := beq_false_of_ne fun he => hsimple (by rw [he]; decide)
      have hfused : ((b.node q).code == Opcode.multideref) = false := beq_false_of_ne fun he => hsimple (by rw [he]; decide)
      unfold collectAccesses at hok
      dsimp only at hok
      rw [helem, hfused] at hok
      split at hok
      · cases hok
      · refine ih (fun k hk => ?_) hok
        rcases List.mem_append.mp hk with hk | hk
        · exact hten.kid_mem hq (List.mem_reverse.mp hk)
        · exact hs k (List.mem_cons_of_mem q hk)

theorem traces_loopBounds (ho : o ∈ (b.tree root).recs) :
    Gives E (loopBounds o) ps b fun _ ps' c => ps' = ps ∧ c = b := by
  unfold loopBounds
  refine gives_lift_bind (TreeM.get_apply b) ?_
  split
  · rename_i range body hrange hbody
    split
    · exact gives_pure ⟨rfl, rfl⟩
    · rename_i acc hacc
      obtain rfl := h.collects_nothing hT hten hwithin (fun q hq => by
        rw [List.mem_singleton.mp hq]
        exact hten.loopBody_mem ho hbody) hacc
      exact gives_pure ⟨rfl, rfl⟩
  · exact gives_pure ⟨rfl, rfl⟩

theorem Traced.pathStart?_eq (ho : o ∈ (b.tree root).recs) : pathStart? b o = none := by
  rw [Option.eq_none_iff_forall_ne_some]
  rintro ⟨act, r, elem⟩ hsome
  obtain ⟨⟨ops, hops⟩, -⟩ := start_of_some hsome
  have hderef : ∀ {hash : Bool} {q : RecId}, Deref b hash o q → False := by
    intro hash q hd
    have hsimple := h.simple hT hwithin (hten.parent_mem ho hd.kid.parent)
    rw [hd.code] at hsimple
    cases hash <;> exact hsimple (by decide)
  cases hops with
  | pad hash hc =>
    have hsimple := h.simple hT hwithin ho
    rw [hc] at hsimple
    cases hash <;> exact hsimple (by decide)
  | glob hash _ hr => exact hderef hr
  | ref hash _ _ _ hr => exact hderef hr

theorem traces_visitRest (ho : o ∈ (b.tree root).recs) :
    Gives E (visitRest o prev s) ps b fun v ps' c => v = .goOn (b.node o).next true ∧ ps' = ps ∧ c = b := by
  have hsimple := h.simple hT hwithin ho
  have hend : Gives E (do
      return .goOn (← (TreeM.node o : TreeM Node)).next true : Peep Visit) ps b fun v ps' c =>
        v = .goOn (b.node o).next true ∧ ps' = ps ∧ c = b :=
    gives_lift_bind (TreeM.node_apply o b) (gives_pure ⟨rfl, rfl, rfl⟩)
  have hscan : multideref? o prev s ps b = .ok (none, ps) b := by
    have hpath : scanPath o ps b = .ok (.ok none, ps) b := by
      have hget : (liftM (get : TreeM Arena) : Peep Arena) ps b = .ok (b, ps) b := rfl
      rw [scanPath, peep_bind, hget]
      simp only
      rw [h.pathStart?_eq hT hten hwithin ho]
      rfl
    rw [multideref?, peep_bind, hpath]
    rfl
  unfold visitRest
  refine gives_lift_bind (TreeM.node_apply o b) ?_
  extract_lets -underBinder jp
  have hjp : Gives E (jp ()) ps b fun v ps' c => v = .goOn (b.node o).next true ∧ ps' = ps ∧ c = b := by
    refine gives_lift_bind (TreeM.get_apply b) (gives_ite (fun _ => ?_) fun _ => hend)
    refine Gives.bind (P := fun v ps' c => v = none ∧ ps' = ps ∧ c = b) ?_ ?_
    · rw [Gives, hscan]
      exact ⟨rfl, rfl, rfl⟩
    · rintro _ _ _ ⟨rfl, rfl, rfl⟩
      exact hend
  clear_value jp
  split
  case h_5 => exact hjp
  all_goals
    rename_i hc
    rw [hc] at hsimple
    exact absurd (by decide) hsimple

end Quiet

def Tracked (S : Course) (a : Arena) (root start o : RecId) (prev : Option RecId) (s : PeepSlot) (v : Visit)
    (ps' : PeepState) (c : Arena) : Prop :=
  Traced S a root start ps' c ∧ match v with
    | .goOn next keep => ∀ z, next = some z → Onto S a root start c (if keep then some o else prev) s z
    | .branch => Road S a root o ∧ (a.node o).code ≠ .not

theorem Onto.marked {o q : RecId} (h : Onto S a root start b prev s o) : Onto S a root start (b.mark q) prev s o := by
  have hc : Linkwise b (b.mark q) := linkwise_update (fun _ => rfl) fun _ _ => rfl
  have hsame : ∀ p, ((b.mark q).node p).next = (b.node p).next ∧ ((b.mark q).node p).other = (b.node p).other := by
    intro p
    rcases node_update_cases (a := b) (r := q) (f := fun n => { n with processed := true }) p with he | ⟨-, he⟩ <;>
      exact ⟨by rw [Arena.mark, he], by rw [Arena.mark, he]⟩
  cases prev with
  | some p => exact ⟨h.1, fun l hl => h.2.1 l ((Absorbs.of_codes hc.code).mp hl), (hsame p).1.trans h.2.2⟩
  | none =>
    cases s with
    | other p => exact ⟨h.1, (hsame p).2.trans h.2⟩
    | start => exact h.recode hc.code

theorem traces_visit {o : RecId} (hT : Terrain S a root start) (h : Traced S a root start ps b) (hten : Tended S root ps b)
    (hwithin : (b.tree root).recs ⊆ (a.tree root).recs) (hs : Waits S root b s) (hlead : Leads S root b prev s o)
    (honto : Onto S a root start b prev s o) (hm : (b.node o).processed = false) :
    Gives E (visit o prev s) ps (b.mark o) (Tracked S a root start o prev s) := by
  have ho : Road S a root o := ⟨hwithin hlead.lands.mem, hlead.lands.live⟩
  have hprev : ∀ p, prev = some p → (b.node p).processed = true := fun p hp => (hlead.known p hp).2
  have hprevne : ∀ p, prev = some p → p ≠ o := by
    rintro p hp rfl
    rw [hprev p hp] at hm
    cases hm
  have hmark := h.mark hT ho fun r hshort hf hr => h.operand_visited hT honto hprev ho.1 hshort hf hr
  obtain ⟨hten', hon, hlead', -⟩ := hten.mark hs hlead hm
  have hwithin' : ((b.mark o).tree root).recs ⊆ (a.tree root).recs := fun q hq => hwithin (hon.within hq)
  have honto' : Onto S a root start (b.mark o) prev s o := honto.marked
  have hproc : ((b.mark o).node o).processed = true := by
    rw [Arena.mark, node_update_self (hten.lt hlead.lands.mem)]
  -- An op behind a negation that is visited only now has not been visited.
  have hfresh : ∀ l ∈ (a.tree root).recs, (a.node l).code ∈ short → (a.node l).first = some o →
      ((b.mark o).node o).code = .not → ((b.mark o).node l).processed = false := by
    intro l hl hshort hf hn
    have hcode := hmark.code_eq (r := o) (by simp [hn]) (by rw [hn]; decide)
    rw [hn] at hcode
    have hlo : l ≠ o := by
      rintro rfl
      rw [← hcode] at hshort
      exact absurd hshort (by decide)
    rw [Arena.mark, node_update_of_ne hlo]
    by_contra hp
    have hb := h.before l hl hshort o hf hcode.symm (by simpa using hp)
    rw [hm] at hb
    cases hb
  have hom := hlead'.lands.mem
  generalize b.mark o = c at *
  have hnext : (c.node o).code ≠ .null → ∀ z, (c.node o).next = some z → Onto S a root start c (some o) s z :=
    fun hn z hz => ⟨ho, fun _ => not_absorbed hn, hz⟩
  have hrest : (c.node o).code ≠ .null → ∀ {ps' : PeepState}, ps'.start = ps.start → ps'.failure? = ps.failure? →
      Gives E (visitRest o prev s) ps' c (Tracked S a root start o prev s) := by
    intro hn ps' hst hfail
    have hc' := hmark.of_start hst hfail
    refine (traces_visitRest hT hc' (hten'.of_start hst hfail) hwithin' hom).mono ?_
    rintro _ _ _ ⟨rfl, rfl, rfl⟩
    exact ⟨hc', hnext hn⟩
  have hsimple := hmark.simple hT hwithin' hom
  unfold visit
  refine gives_lift_bind (TreeM.node_apply o c) ?_
  extract_lets -underBinder jp
  have hjp : (c.node o).code ≠ .null → ∀ {ps' : PeepState}, ps'.start = ps.start → ps'.failure? = ps.failure? →
      Gives E (jp ()) ps' c (Tracked S a root start o prev s) := hrest
  have helide : (c.node o).transparent = true → Gives E (do
      relink prev s (c.node o).next
      noteChange "elide"
      return .goOn (c.node o).next false : Peep Visit) ps c (Tracked S a root start o prev s) := by
    intro ht
    obtain ⟨z, hz, -⟩ := hmark.onto hT ho (hmark.not_leavesub ht)
    rw [hz]
    refine (traces_relink hT hmark honto' fun _ hx => hmark.past ho ht hz hx).bind ?_
    rintro _ ps₁ d ⟨hd, hdo⟩
    refine (traces_noteChange hd _).bind ?_
    rintro _ ps₂ e ⟨he, rfl⟩
    refine gives_pure ⟨he, ?_⟩
    rintro y ⟨⟩
    exact hdo
  have hstep : ∀ {x : Peep Unit}, (c.node o).code ≠ .null → Gives E x ps c (fun _ ps' d => ps' = ps ∧ d = c) →
      Gives E (do
        let r ← x
        jp r) ps c (Tracked S a root start o prev s) := by
    intro x hn hx
    refine hx.bind ?_
    rintro _ _ _ ⟨rfl, rfl⟩
    exact hjp hn rfl rfl
  have hbranch : (c.node o).code ∈ short → Gives E (do
      threadBranch o
      return .branch : Peep Visit) ps c (Tracked S a root start o prev s) := by
    intro hshort
    refine (traces_threadBranch hT hmark ho hshort hproc).bind fun _ ps' d hd => gives_pure ⟨hd, ho, fun hn => ?_⟩
    have hs' := hmark.short_of hshort
    rw [hn] at hs'
    exact absurd hs' (by decide)
  have htrans : ∀ {t : Opcode}, (c.node o).code = t → Node.transparent { code := t } = true → (c.node o).transparent = true :=
    fun hc hp => by rwa [Node.transparent, hc]
  clear_value jp
  split
  case h_1 hc => exact helide (htrans hc rfl)
  case h_2 hc => exact helide (htrans hc rfl)
  case h_3 hc => exact helide (htrans hc rfl)
  case h_4 hc => exact helide (htrans hc rfl)
  case h_5 hc => exact gives_modify_bind (hjp (by simp [hc]) rfl rfl)
  case h_6 hc =>
    refine (traces_constBranch hT hmark ho hc).bind ?_
    rintro _ _ _ ⟨rfl, rfl, rfl⟩
    exact hjp (by simp [hc]) rfl rfl
  case h_7 hc =>
    refine (traces_notBranch hT hmark ho honto' hc hproc hprevne fun l hl hshort hf => hfresh l hl hshort hf hc).bind
      fun v ps' d hv => ?_
    cases v with
    | none =>
      obtain ⟨rfl, rfl⟩ := hv
      exact hjp (by simp [hc]) rfl rfl
    | some l => exact gives_pure hv
  case h_8 hc =>
    refine (traces_tailReturn hT hmark hten' hwithin' hom ho honto' hc).bind fun v ps' d hv => ?_
    cases v with
    | none =>
      obtain ⟨rfl, rfl⟩ := hv
      exact hstep (by simp [hc]) (traces_padrange hT hmark hten' hwithin' hom)
    | some next => exact gives_pure hv
  case h_9 hc => exact hbranch (by rw [hc]; decide)
  case h_10 hc => exact hbranch (by rw [hc]; decide)
  case h_11 hc => exact hbranch (by rw [hc]; decide)
  case h_12 hc =>
    refine (traces_skipNulls hT hmark (s := .other o) ?_).bind fun _ ps' d hd => gives_pure ⟨hd, ho, fun hn => ?_⟩
    · rintro r ⟨⟩
      exact ho
    · have hcode := hmark.code_eq (r := o) (by simp [hc]) (by rw [hc]; decide)
      rw [hc, hn] at hcode
      cases hcode
  case h_13 hc => exact hstep (by simp [hc]) (traces_loopBounds hT hmark hten' hwithin' hom)
  case h_14 hc =>
    rw [hc] at hsimple
    exact absurd (by decide) hsimple
  case h_15 hc =>
    rw [hc] at hsimple
    exact absurd (by decide) hsimple
  case h_16 hn _ _ _ _ _ _ _ _ _ _ _ _ _ _ => exact hjp hn rfl rfl

theorem traced_rule (hT : Terrain S a root start)
    (hE : E (.fatal none) ∨ Memory.holds 8 a.tune.deferQueue = true) :
    Rule E (fun ps b => (Tended S root ps b ∧ Onward root a b) ∧ Traced S a root start ps b)
      (fun b s => Waits S root b s ∧ ∀ r, s = .other r → Road S a root r ∧ (a.node r).code ≠ .not)
      (fun b prev s o => Leads S root b prev s o ∧ Onto S a root start b prev s o) := by
  have R : Rule E _ _ _ := onward_rule S root (K := Onward root a) (fun h hab => h.trans hab) fun h => h.tune ▸ hE
  refine ⟨fun h => R.memory h.1, fun h hs hf hst => ⟨R.stats h.1 hs hf hst, h.2.of_start hs hf⟩,
    fun h hs ho hm => ⟨R.head h.1 hs.1 ho hm, h.2.ontoHead (fun r hr => (hs.2 r hr).1) ho⟩, fun {ps b o s z} h hs hz =>
      ⟨R.next h.1 hs.1 hz, (hs.2 o rfl).1, fun l hl => (hs.2 o rfl).2 hl.code, hz⟩, fun h ho => R.lt h.1 ho.1,
    fun {ps b s} h hs => ?_, fun {ps b prev s o} h hs ho hm hf => ?_⟩
  · refine ((R.skip h.1 hs.1).and (traces_skipNulls hT h.2 fun r hr => (hs.2 r hr).1)).mono ?_
    rintro _ ps' c ⟨⟨hk, hlater⟩, hc⟩
    exact ⟨⟨hk, hc⟩, fun s hs => ⟨hlater.slot s hs.1, hs.2⟩, hlater.size, hlater.marks⟩
  · refine ((R.visit h.1 hs.1 ho.1 hm hf).and (traces_visit hT h.2 h.1.1 h.1.2.within hs.1 ho.1 ho.2 hm)).mono ?_
    rintro v ps' c ⟨⟨hk, hlater, hslots, hv⟩, hc, hto⟩
    refine ⟨⟨hk, hc⟩, ⟨fun s hs => ⟨hlater.slot s hs.1, hs.2⟩, hlater.size, hlater.marks⟩,
      fun s hs => ⟨hslots s hs.1, hs.2⟩, ?_⟩
    cases v with
    | goOn next keep => exact fun z hz => ⟨hv z hz, hto z hz⟩
    | branch =>
      refine ⟨hv, ?_⟩
      rintro r ⟨⟩
      exact hto

theorem traced_start (hm : ∀ r, (a.node r).processed = false) (hs : ps.start = some start)
    (hf : ps.failure? = none) : Traced S a root start ps a := by
  have habs : ∀ r l, ¬ Absorbs a a r l := by
    intro r l hl
    have hn := hl.null
    rw [hl.code] at hn
    cases hn
  have hrel : ∀ {k : Option Opcode} (z? : Option RecId), Option.Rel (Slide a a k) z? z? := by
    intro k z?
    cases z? with
    | none => exact .none
    | some z => exact .some (.stop (.self fun r => habs r z))
  refine ⟨rfl, fun _ => rfl, fun _ => rfl, fun _ => rfl, fun _ => .plain rfl, fun p _ _ => hrel _, fun r l hl => absurd hl (habs r l),
    fun p _ => hrel _, ⟨start, hs, .stop (.self fun r => habs r start)⟩, hf, fun l _ _ r _ _ hp => ?_⟩
  rw [hm] at hp
  cases hp

end Peep

namespace TreeM

open Peep Arena

/-- A unit without containers is optimized without a complaint, and all of its links are traced then. -/
theorem optimize_traced {S : Course} {root start : RecId} {a : Arena} (hT : Terrain S a root start)
    (h : Tended S root { start := some start } a) (hm : ∀ r, (a.node r).processed = false) :
    match optimize (some start) a with
    | .ok opt b => ∃ ps, opt = ⟨ps.start, ps.stats, none⟩ ∧ Traced S a root start ps b
    | .error e _ => e = .fatal none ∧ Memory.holds 8 a.tune.deferQueue = false := by
  have hmemory : (Failure.fatal none = .fatal none ∧ Memory.holds 8 a.tune.deferQueue = false) ∨
      Memory.holds 8 a.tune.deferQueue = true := by
    cases Memory.holds 8 a.tune.deferQueue <;> simp
  have R := @traced_rule S root start a (fun e => e = .fatal none ∧ Memory.holds 8 a.tune.deferQueue = false) hT hmemory
  have hopt := optimize_rule R
    ⟨⟨h, (Calm.refl (S := S) a).onward⟩, traced_start hm rfl rfl⟩ ⟨trivial, fun r hr => by cases hr⟩
  cases hrun : optimize (some start) a with
  | ok opt b =>
    rw [hrun] at hopt
    obtain ⟨ps, rfl, ⟨-, htraced⟩, -⟩ := hopt
    exact ⟨ps, by rw [htraced.failure], htraced⟩
  | error e b =>
    rw [hrun] at hopt
    exact hopt

end TreeM

end OpTree
