import OpTree.Proofs.BranchRules

/-!
# Rewriting

Every rule of the optimizer keeps a unit wired. A rule only ever relinks an op past others that control
passes, or that it makes pass, and softens ops where they stand.
-/

namespace OpTree

set_option autoImplicit false

namespace Peep

open Arena OpTree.Tree

variable {S : Course} {root : RecId} {ps : PeepState} {a b c : Arena}

variable {α β : Type} {E : Failure → Prop} {prev : Option RecId} {s : PeepSlot}

theorem gives_neutralizeAll (ks : List RecId) (h : Tended S root ps a)
    (hk : ∀ k ∈ ks, k ∈ (a.tree root).recs ∧ (a.node k).code ∉ Node.fixed) :
    Gives E (ks.forM fun k => liftM (TreeM.neutralize k) : Peep Unit) ps a fun _ ps' b =>
      Settled S root a ps' b ∧ (∀ k ∈ ks, (b.node k).passes = true) ∧ ∀ r ∉ ks, b.node r = a.node r := by
  induction ks generalizing ps a with
  | nil => exact gives_pure ⟨Settled.refl h, nofun, fun _ _ => rfl⟩
  | cons k ks ih =>
    obtain ⟨hr, hc⟩ := hk k (List.mem_cons_self ..)
    obtain ⟨hb, hpass⟩ := h.neutralize hr hc
    refine gives_lift_bind (TreeM.update_apply k _ a) ?_
    have hother := fun q => node_update_cases (a := a) (r := k) (f := Node.neutralized) q
    generalize a.update k Node.neutralized = b at hb hpass hother
    refine (ih hb.1 fun q hq => ⟨hb.2.recs (hk q (List.mem_cons_of_mem k hq)).1, ?_⟩).mono ?_
    · rcases hother q with he | ⟨-, he⟩
      · rw [he]
        exact (hk q (List.mem_cons_of_mem k hq)).2
      · rw [he, Node.neutralized_code]
        decide
    · rintro _ ps' c ⟨hbc, hall, hrest⟩
      refine ⟨hb.trans hbc, fun q hq => ?_, fun q hq => ?_⟩
      · rcases List.mem_cons.mp hq with rfl | hq
        · exact hbc.2.passes q (hb.2.recs hr) hpass
        · exact hall q hq
      · rw [List.mem_cons, not_or] at hq
        rw [hrest q hq.2]
        exact (hother q).elim (fun he => he) fun he => absurd he.1 hq.1

structure Declared (a : Arena) (pm : RecId) (run : IntroRun) : Prop where
  parent : a.parent? pm = some run.list
  code : (a.node run.list).code = .list
  ops : introOps? a run.list a.bound (a.node pm).next = some run.ops

theorem declared_of_some {pm : RecId} {run : IntroRun} (h : introRun? a pm = some run) : Declared a pm run := by
  obtain ⟨list, hlist, h⟩ := some_bind.mp h
  obtain ⟨hg, h⟩ := guard_bind.mp h
  obtain ⟨ops, hops, h⟩ := some_bind.mp h
  obtain ⟨-, h⟩ := guard_bind.mp h
  cases h
  simp only [Bool.and_eq_true, decide_eq_true_iff] at hg
  exact ⟨hlist, hg.1.1, hops⟩

theorem declares_code {list k : RecId} (h : declares a list k = true) :
    (a.node k).code ∉ Node.fixed ∧ (a.node k).code ≠ .pushmark := by
  simp only [declares, Bool.and_eq_true, Bool.or_eq_true, beq_iff_eq] at h
  rcases h.1.1.1 with (h | h) | h <;> rw [h] <;> decide

theorem Tended.declared (h : Tended S root ps a) {list : RecId} {fuel : Nat} {k? p? : Option RecId}
    {ops : List RecId} (hk : ∀ z, k? = some z → Lands S a (a.tree root) p? z)
    (hops : introOps? a list fuel k? = some ops) :
    (∀ k ∈ ops, k ∈ (a.tree root).recs ∧ (a.node k).code ∉ Node.fixed ∧
      (a.node k).code ≠ .pushmark) ∧
      ∀ ps' b, Settled S root a ps' b → (∀ k ∈ ops, (b.node k).passes = true) → Lands S b (b.tree root) p? list := by
  induction fuel generalizing k? p? ops with
  | zero => cases k? <;> cases hops
  | succ fuel ih =>
    cases k? with
    | none => cases hops
    | some k =>
      have hland := hk k rfl
      unfold introOps? at hops
      split at hops
      · rename_i he
        subst he
        cases hops
        exact ⟨nofun, fun _ b hb _ => hb.2.lands _ _ hland⟩
      · split at hops
        · rename_i hd
          obtain ⟨rest, hrest, rfl⟩ := Option.map_eq_some_iff.mp hops
          obtain ⟨hmem, hlands⟩ := @ih _ (some k) _ (fun z hz => h.link hland (Or.inl hz)) hrest
          refine ⟨fun q hq => ?_, fun ps' b hb hp => ?_⟩
          · rcases List.mem_cons.mp hq with rfl | hq
            · exact ⟨hland.mem, declares_code hd⟩
            · exact hmem q hq
          · refine hb.1.past (hb.2.lands _ _ hland) (hp k (List.mem_cons_self ..)) ?_
            exact hlands ps' b hb fun q hq => hp q (List.mem_cons_of_mem k hq)
        · cases hops

theorem gives_mergeRuns {pm list : RecId} (fuel : Nat) (h : Tended S root ps a) (hpm : pm ∈ (a.tree root).recs)
    (hl : list ∈ (a.tree root).recs) (hS : S list) :
    Gives E (mergeRuns pm list fuel) ps a fun _ => Settled S root a := by
  induction fuel generalizing ps a with
  | zero => exact gives_pure (Settled.refl h)
  | succ fuel ih =>
    unfold mergeRuns
    refine gives_lift_bind (TreeM.get_apply a) ?_
    split
    · exact gives_pure (Settled.refl h)
    · rename_i ns pm2 run hrun
      refine gives_ite (fun _ => gives_pure (Settled.refl h)) fun _ => ?_
      obtain ⟨ns', hns, hrun⟩ := some_bind.mp hrun
      obtain ⟨-, hrun⟩ := guard_bind.mp hrun
      obtain ⟨pm', hpm2, hrun⟩ := some_bind.mp hrun
      obtain ⟨hg, hrun⟩ := guard_bind.mp hrun
      obtain ⟨run', hdecl, hrun⟩ := some_bind.mp hrun
      cases hrun
      simp only [Bool.and_eq_true, decide_eq_true_iff] at hg
      have hd := declared_of_some hdecl
      have hns := h.wired.links list hl hS ns (Or.inl hns)
      have hpm2 := h.link hns (Or.inl hpm2)
      obtain ⟨hmem, hlands⟩ := h.declared (fun z hz => h.link hpm2 (Or.inl hz)) hd.ops
      have hlist : run.list ∈ (a.tree root).recs := h.parent_mem hpm2.mem hd.parent
      have hlS : S run.list := h.wired.live_of hlist (by rw [hd.code]; exact nofun)
      refine (gives_neutralizeAll _ h fun k hk => ?_).bind fun _ ps₁ b hb => ?_
      · simp only [List.cons_append, List.mem_cons, List.mem_append, List.not_mem_nil, or_false] at hk
        rcases hk with rfl | hk | rfl
        · exact ⟨hpm2.mem, by rw [hg.1]; decide⟩
        · exact ⟨(hmem k hk).1, (hmem k hk).2.1⟩
        · exact ⟨hlist, by rw [hd.code]; decide⟩
      · obtain ⟨hb, hall, -⟩ := hb
        refine Gives.andThen (gives_update hb.1 (hb.2.recs hpm) (Node.softens_data rfl rfl
          (fun _ hk => hk.alike ⟨rfl, rfl, rfl, rfl⟩) ⟨rfl, rfl, rfl, rfl, rfl, rfl, rfl, rfl⟩
          (fun _ => ⟨rfl, rfl, rfl⟩) (Node.eases_of_path rfl rfl))) fun ps₂ c hc => ?_
        have hac := hb.trans hc
        have hpasses : ∀ k ∈ pm2 :: run.ops ++ [run.list], k ∈ (a.tree root).recs → (c.node k).passes = true :=
          fun k hk hr => hc.2.passes k (hb.2.recs hr) (hall k hk)
        obtain ⟨z, hz⟩ := h.next_of_code hlist hlS (by rw [hd.code]; exact nofun)
        rw [hz]
        refine Gives.andThen (gives_setNext hac.1 (hac.2.recs hns.mem) ?_) fun ps₃ d hd' => ?_
        · have htail := hac.2.lands _ _ (h.wired.links run.list hlist hlS z (Or.inl hz))
          have hmid := hlands _ c hac fun k hk => hpasses k (by simp [hk]) (hmem k hk).1
          have hhead := hac.1.past (hac.2.lands _ _ hpm2) (hpasses pm2 (by simp) hpm2.mem) hmid
          exact hac.1.past hhead (hpasses run.list (by simp) hlist) htail
        · have had := hac.trans hd'
          refine Gives.andThen (gives_noteChange _ hd'.1) fun ps₄ e he => ?_
          have hae := had.trans he
          exact (ih hae.1 (hae.2.recs hpm) (hae.2.recs hl)).mono fun _ _ _ hk => hae.trans hk

theorem gives_padrange {pm : RecId} (h : Tended S root ps a) {p? : Option RecId}
    (hpm : Lands S a (a.tree root) p? pm) (hcode : (a.node pm).code = .pushmark) :
    Gives E (padrange pm) ps a fun _ => Settled S root a := by
  unfold padrange
  refine gives_lift_bind (TreeM.get_apply a) ?_
  split
  · exact gives_pure (Settled.refl h)
  · rename_i run hrun
    refine gives_ite (fun _ => gives_pure (Settled.refl h)) fun _ => ?_
    have hd := declared_of_some hrun
    obtain ⟨hmem, hlands⟩ := h.declared (fun z hz => h.link hpm (Or.inl hz)) hd.ops
    have hlist : run.list ∈ (a.tree root).recs := h.parent_mem hpm.mem hd.parent
    have hlS : S run.list := h.wired.live_of hlist (by rw [hd.code]; exact nofun)
    refine (gives_neutralizeAll _ h fun k hk => ⟨(hmem k hk).1, (hmem k hk).2.1⟩).bind fun _ ps₁ b hb => ?_
    obtain ⟨hb, hall, hrest⟩ := hb
    have hbpm : b.node pm = a.node pm := hrest pm fun hk => (hmem pm hk).2.2 hcode
    have hc := hb.1.retype (t := .padrange) (hb.2.recs hpm.mem) (by rw [hbpm, hcode]; decide)
    have hcpm : ((b.update pm (turned b pm .padrange)).node pm).code = .padrange := by
      rw [node_update_self (hb.1.lt (hb.2.recs hpm.mem))]
      rfl
    refine gives_lift_bind (retype_apply pm .padrange b) ?_
    generalize b.update pm _ = c at hc hcpm
    have hac := hb.trans hc
    have hturn : ∀ n : Node, n.code = (c.node pm).code → n.turn = .stays := fun n hn => by
      rw [hcpm] at hn
      exact Node.turn_of_ne (hn ▸ Opcode.noConfusion) (hn ▸ Opcode.noConfusion)
    refine Gives.andThen (gives_update hac.1 (hac.2.recs hpm.mem) (Node.softens_data rfl rfl
      (fun _ hk => hk.alike ⟨rfl, rfl, Flags.has_withWant _ _, rfl⟩)
      ⟨rfl, rfl, rfl, rfl, rfl, rfl, rfl, by rw [hturn (c.node pm) rfl]; exact hturn _ rfl⟩
      (fun hs => absurd (hcpm ▸ hs) (by decide)) (Node.eases_of_path rfl rfl))) fun ps₃ d hd' => ?_
    have had := hac.trans hd'
    refine Gives.andThen (gives_setNext had.1 (had.2.recs hpm.mem) ?_) fun ps₄ e he => ?_
    · exact hlands _ d had fun k hk => (hc.2.trans hd'.2).passes k (hb.2.recs (hmem k hk).1) (hall k hk)
    · have hae := had.trans he
      refine Gives.andThen (gives_noteChange _ he.1) fun ps₅ f hf => ?_
      have haf := hae.trans hf
      exact (gives_mergeRuns _ haf.1 (haf.2.recs hpm.mem) (haf.2.recs hlist) hlS).mono
        fun _ _ _ hk => haf.trans hk

/-- Nothing of an access that starts at the op has been visited but the op itself. -/
def Clear (root o : RecId) (a : Arena) : Prop :=
  ∀ u ∈ (a.tree root).subtrees, u.op.Firm → u.start = o → ∀ r ∈ u.recs, (a.node r).processed = true → r = o

theorem Calm.clear {o : RecId} (h : Calm S root a b) (hc : Clear root o a) : Clear root o b := by
  intro w' hw' hf hs r hr hp
  obtain ⟨w, hw, hf, hs', hr'⟩ := h.firm w' hw' hf
  exact hc w hw hf (hs'.trans hs) r (hr' ▸ hr) ((h.marks r).symm.trans hp)

theorem Tended.mark {o : RecId} (h : Tended S root ps a) (hs : Waits S root a s) (ho : Leads S root a prev s o)
    (hm : (a.node o).processed = false) :
    Tended S root ps (a.mark o) ∧ Onward root a (a.mark o) ∧ Leads S root (a.mark o) prev s o ∧
      ((a.node o).passes = false → Clear root o (a.mark o)) := by
  have hsrc : ∀ p, source prev s = some p → (a.node p).processed = true := by
    intro p hp
    cases prev with
    | some q => exact (ho.known p hp).2
    | none =>
      cases s with
      | start => cases hp
      | other r =>
        cases hp
        exact hs.2.2.1
  have hw := h.wired.mark ho.lands hsrc
  have htree : (a.mark o).tree root = a.tree root := by
    have he := hw.tree_eq
    rwa [root_tree] at he
  have hre : Rewired a (a.mark o) (a.tree root).recs := rewired_mark ho.lands.mem
  have hmarks : ∀ r, (a.node r).processed = true → ((a.mark o).node r).processed = true := fun r hr =>
    processed_mark hr
  have hwithin : ((a.mark o).tree root).recs ⊆ (a.tree root).recs := by
    rw [htree]
    exact fun _ h => h
  refine ⟨⟨htree ▸ hw, fun z hz => htree ▸ hre.lands (h.start z hz), h.begun, h.failure⟩,
    ⟨hre.size, hre.tune_eq, ⟨⟨hre.size, hre.pad_eq, hwithin, fun r _ => hre.recalls r⟩,
      fun r _ => Or.inl (hre.eases r)⟩, hmarks, fun r hr _ => htree ▸ hr, hwithin,
      fun r _ _ hc => by rwa [hre.node r], fun r _ _ hc => (hre.opClass r).trans hc⟩,
    ⟨fun p hp => ⟨htree ▸ (ho.known p hp).1, hmarks p (ho.known p hp).2⟩,
    htree ▸ hre.lands ho.lands⟩, fun hsolid u hu hf hstart r hr hp => ?_⟩
  rw [htree] at hu
  by_contra hne
  rw [Arena.mark, node_update_of_ne hne] at hp
  -- The start of the access would have been visited before.
  rcases h.wired.marks u hu hf r hr hp with hm' | hp'
  · rw [hstart, hm] at hm'
    cases hm'
  · rw [hstart, hsolid] at hp'
    cases hp'

theorem looks_scanPath (o : RecId) : Looks (scanPath o) := by
  refine looks_arena.bind fun c => ?_
  split
  · exact looks_pure _
  · exact looks_scanLevels _ _ _ _ _ _ _

/-- A chain is accepted only if it starts at a variable, and its top is on the way up from there. -/
theorem stem_of_scan {o : RecId} {m : PathMatch} {ps' : PeepState}
    (h : scanPath o ps a = .ok (.ok (some m), ps') b) :
    (a.node o).code.isLeaf = true ∧ (a.node o).code ≠ .nextstate ∧ Stem a o m.top ∧ m.levels ≠ [] ∧
      (a.node m.top).code ∈ [Opcode.aelem, .aelemU, .helem, .existsElem, .deleteElem] := by
  obtain ⟨-, -, -, act, r, elem, front, fin, hstart, hladder⟩ := chain_of_scan h
  obtain ⟨⟨ops, hops⟩, hstem, hkid⟩ := start_of_some hstart
  obtain ⟨htop, hcode⟩ := hladder.stem (hstem.up hkid)
  refine ⟨?_, ?_, htop, hladder.ne_nil, hcode⟩
  · cases hops with
    | pad hash hc => rw [hc]; cases hash <;> rfl
    | glob hash hc => rw [hc]; rfl
    | ref hash hc => rw [hc]; rfl
  · cases hops with
    | pad hash hc => rw [hc]; cases hash <;> exact nofun
    | glob hash hc => rw [hc]; exact nofun
    | ref hash hc => rw [hc]; exact nofun

theorem Tended.swapped {o : RecId} {u : Tree} (h : Tended S root ps a) (hs : Waits S root a s)
    (ho : Leads S root a prev s o) (hsw : Swapped a b (a.tree root) u o) (hleaf : (a.node o).opClass ≠ .logop)
    (hstate : (a.node o).code ≠ .nextstate) (hfused : Fused root a b u.root) :
    Tended S root ps b ∧ Onward root a b ∧ Leads S root b prev s o ∧ Leads S root b prev s u.root := by
  have hn := h.wired.nodup
  have hw := hsw.wired h.wired
  have htree : b.tree root = Tree.graft u.root (Swapped.tree b u o) (a.tree root) := by
    have he := hw.tree_eq
    rwa [root_graft _ (hsw.fitting hn).root, root_tree] at he
  have hmem : ∀ r ∈ (a.tree root).recs, (a.node r).processed = true → r ∈ (b.tree root).recs := by
    intro r hr hp
    rw [htree]
    exact (hsw.mem_recs hn).mpr ⟨hr, fun hru => Or.inr (hsw.clear r hru hp)⟩
  have hmarks : ∀ r, (a.node r).processed = true → (b.node r).processed = true := by
    intro r hp
    by_cases hr : r ∈ (a.tree root).recs
    · by_cases hru : r ∈ u.recs
      · obtain rfl := hsw.clear r hru hp
        rw [hsw.processed]
        exact hp
      · rw [hsw.outside r hr hru]
        exact hp
    · rw [h.wired.unmarked r hr] at hp
      cases hp
  have hsrc : ∀ p, source prev s = some p → p ∈ u.recs → p = u.root ∨ p = o := by
    intro p hp hpu
    refine Or.inr (hsw.clear p hpu ?_)
    cases prev with
    | some q => exact (ho.known p hp).2
    | none =>
      cases s with
      | start => cases hp
      | other r =>
        cases hp
        exact hs.2.2.1
  have hland : Lands S b (b.tree root) (source prev s) o :=
    htree ▸ hsw.lands hn ho.lands (fun _ => Or.inr rfl) hsrc
  have hlive : S u.root := h.wired.live u hsw.mem hsw.firm.lineseq
  have htop : Lands S b (b.tree root) (source prev s) u.root :=
    hland.trans hsw.passes_start (h.wired.flat ho.lands.mem hsw.turn)
      (htree ▸ hsw.lands_root hn hlive (hsw.level h.wired))
  have hknown : ∀ p, prev = some p → p ∈ (b.tree root).recs ∧ (b.node p).processed = true := fun p hp =>
    ⟨hmem p (ho.known p hp).1 (ho.known p hp).2, hmarks p (ho.known p hp).2⟩
  have hwithin : (b.tree root).recs ⊆ (a.tree root).recs := fun r hr => by
    rw [htree] at hr
    exact ((hsw.mem_recs hn).mp hr).1
  have hplace : ∀ r ∈ (b.tree root).recs, b.node r = a.node r ∨ r = u.root ∨ r = o := fun r hr => by
    rw [htree] at hr
    obtain ⟨hra, hru⟩ := (hsw.mem_recs hn).mp hr
    by_cases hm : r ∈ u.recs
    · exact Or.inr (hru hm)
    · exact Or.inl (hsw.outside r hra hm)
  refine ⟨⟨htree ▸ hw, fun z hz => ?_, h.begun, h.failure⟩, ⟨hsw.size, hsw.tune,
    ⟨⟨hsw.size, hsw.pad, hwithin, fun r hr => ?_⟩, fun r hr => ?_⟩, hmarks, hmem, hwithin,
    fun r hr hp hc => ?_, fun r hr hp hc => ?_⟩, ⟨hknown, hland⟩, ⟨hknown, htop⟩⟩
  · rw [htree]
    refine hsw.lands hn (h.start z hz) (fun hzu => Or.inr ?_) nofun
    rcases (h.start z hz).enters u hsw.mem hsw.firm hzu with he | hp | ⟨p, hp, -⟩
    · exact he.trans hsw.start
    · rw [hsw.start, hsw.solid] at hp
      cases hp
    · cases hp
  · rcases hplace r hr with he | rfl | rfl
    · rw [he]
      exact .refl _
    · exact Node.recalls_of_code (by rw [hsw.code]; decide) (by rw [hsw.code]; decide)
    · exact hsw.recalls
  · rcases hplace r hr with he | rfl | rfl
    · exact Or.inl (Node.eases_of_path (by rw [he]) (by rw [he]))
    · exact Or.inr hfused
    · exact Or.inl fun hc => absurd (hsw.null.symm.trans hc) (by decide)
  · by_cases hru : r ∈ u.recs
    · obtain rfl := hsw.clear r hru hp
      exact absurd hc hstate
    · rw [hsw.outside r hr hru]
      exact hc
  · by_cases hru : r ∈ u.recs
    · obtain rfl := hsw.clear r hru hp
      exact absurd hc hleaf
    · rw [hsw.outside r hr hru]
      exact hc

theorem gives_multideref {o : RecId} (h : Tended S root ps a) (hs : Waits S root a s)
    (ho : Leads S root a prev s o) (hclear : Clear root o a) :
    Gives E (multideref? o prev s) ps a fun v ps' b => match v with
      | none => Settled S root a ps' b
      | some top => Tended S root ps' b ∧ Onward root a b ∧ Leads S root b prev s top := by
  unfold multideref?
  obtain ⟨v, hv⟩ := looks_scanPath o ps a
  have hplain : Plain v := ((gives_scanPath o : Gives E _ ps a _).of_ok hv).1
  have hscan : Gives E (scanPath o) ps a fun w qs c => w = v ∧ qs = ps ∧ c = a := by
    rw [Gives, hv]
    exact ⟨rfl, rfl, rfl⟩
  refine hscan.bind ?_
  rintro _ ps a ⟨rfl, rfl, rfl⟩
  split
  · exact Gives.andThen (gives_fail h (hplain _ rfl)) fun ps₁ b hb => gives_pure hb
  · exact gives_pure (Settled.refl h)
  · rename_i m
    obtain ⟨hleaf, hstate, hstem, hlevels, hcode⟩ := stem_of_scan hv
    obtain ⟨u, b, hfuse, hu, hsw, hpath⟩ := fuse_ok h.wired ho.lands.mem hleaf hstem hcode
      (fun u hu hf hs => hclear u hu hf hs) hlevels
    obtain ⟨hb, hon, -, htop⟩ := h.swapped hs ho hsw (not_logop_of_leaf hleaf) hstate
      ⟨S, a, ps, o, m, _, h, .refl a, ho.lands.mem, hv, hu.symm, hu ▸ hpath, .refl _⟩
    rw [hu] at htop
    refine gives_lift_bind hfuse ?_
    refine (gives_relink_note (Settled.refl hb) (hon.waits hs) htop.known htop.lands).mono ?_
    rintro v ps' c ⟨rfl, hc, hlead⟩
    exact ⟨hc.1, hon.trans hc.2.onward, hlead _ rfl⟩

def Visited (S : Course) (root o : RecId) (prev : Option RecId) (s : PeepSlot) (a : Arena) (v : Visit)
    (ps' : PeepState) (b : Arena) : Prop :=
  Tended S root ps' b ∧ Onward root a b ∧ match v with
    | .goOn next keep => ∀ z, next = some z → Leads S root b (if keep then some o else prev) s z
    | .branch => Waits S root b (.other o)

theorem Visited.onward {o : RecId} {v : Visit} {qs : PeepState} (h : Onward root a b)
    (hv : Visited S root o prev s b v qs c) : Visited S root o prev s a v qs c :=
  ⟨hv.1, h.trans hv.2.1, hv.2.2⟩

theorem Moved.visited {o : RecId} {next : Option RecId} {qs : PeepState} (keep : Bool)
    (h : Moved S root a (if keep then some o else prev) s next qs b) :
    Visited S root o prev s a (.goOn next keep) qs b := ⟨h.1.1, h.1.2.onward, h.2⟩

theorem visited_next {o : RecId} (h : Tended S root ps a) (ho : Leads S root a prev s o)
    (hm : (a.node o).processed = true) : Visited S root o prev s a (.goOn (a.node o).next true) ps a := by
  refine ⟨h, (Calm.refl (S := S) a).onward, fun z hz => ⟨?_, h.link ho.lands (Or.inl hz)⟩⟩
  rintro p ⟨⟩
  exact ⟨ho.lands.mem, hm⟩

theorem gives_visitRest {o : RecId} (h : Tended S root ps a) (hs : Waits S root a s)
    (ho : Leads S root a prev s o) (hm : (a.node o).processed = true) (hclear : Clear root o a) :
    Gives E (visitRest o prev s) ps a (Visited S root o prev s a) := by
  have hend : ∀ {ps' b}, Settled S root a ps' b → Gives E (do
      return .goOn (← (TreeM.node o : TreeM Node)).next true : Peep Visit) ps' b (Visited S root o prev s a) := by
    intro ps' b hb
    refine gives_lift_bind (TreeM.node_apply o b) (gives_pure ?_)
    exact (visited_next hb.1 (hb.2.leads ho) ((hb.2.marks o).trans hm)).onward hb.2.onward
  unfold visitRest
  refine gives_lift_bind (TreeM.node_apply o a) ?_
  extract_lets -underBinder jp
  have hjp : ∀ {ps' b}, Settled S root a ps' b → Gives E (jp ()) ps' b (Visited S root o prev s a) := by
    intro ps' b hb
    refine gives_lift_bind (TreeM.get_apply b) ?_
    refine gives_ite (fun _ => ?_) fun _ => hend hb
    refine (gives_multideref hb.1 (hb.2.onward.waits hs) (hb.2.leads ho) (hb.2.clear hclear)).bind
      fun v ps₁ c hc => ?_
    cases v with
    | none => exact hend (hb.trans hc)
    | some top =>
      refine gives_pure ⟨hc.1, hb.2.onward.trans hc.2.1, ?_⟩
      rintro z ⟨⟩
      exact hc.2.2
  have htag : Gives E (do
      let r ← tagTruth o
      jp r) ps a (Visited S root o prev s a) :=
    Gives.andThen (gives_tagTruth h ho.lands.mem) fun _ _ hb => hjp hb
  clear_value jp
  split
  case h_5 => exact hjp (Settled.refl h)
  all_goals exact gives_ite (fun _ => htag) fun _ => hjp (Settled.refl h)

theorem gives_visit {o : RecId} (h : Tended S root ps a) (hs : Waits S root a s)
    (ho : Leads S root a prev s o) (hm : (a.node o).processed = false) :
    Gives E (visit o prev s) ps (a.mark o) (Visited S root o prev s (a.mark o)) := by
  have hnode : (a.mark o).node o = { a.node o with processed := true } := node_update_self (h.lt ho.lands.mem) _
  obtain ⟨ht, hon, hlead, hclear⟩ := h.mark hs ho hm
  have hw := hon.waits hs
  have hproc : ((a.mark o).node o).processed = true := by rw [hnode]
  replace hclear : ((a.mark o).node o).passes = false → Clear root o (a.mark o) := fun hp =>
    hclear (by rw [hnode] at hp; exact hp)
  generalize a.mark o = b at *
  have hrest : ∀ {ps' c}, Clear root o b → Settled S root b ps' c →
      Gives E (visitRest o prev s) ps' c (Visited S root o prev s b) := fun hcl hc =>
    (gives_visitRest hc.1 (hc.2.onward.waits hw) (hc.2.leads hlead) ((hc.2.marks o).trans hproc)
      (hc.2.clear hcl)).mono fun _ _ _ hv => hv.onward hc.2.onward
  have hbranch : ∀ {x : Peep Unit}, (b.node o).opClass = .logop →
      Gives E x ps b (fun _ => Settled S root b) → Gives E (do
        x
        return .branch : Peep Visit) ps b (Visited S root o prev s b) := by
    intro x hc hx
    refine Gives.andThen hx fun ps' c hbc => gives_pure ⟨hbc.1, hbc.2.onward, hbc.2.onward.waits ?_⟩
    exact ⟨hlead.lands.mem, hlead.lands.live, hproc, hc⟩
  unfold visit
  refine gives_lift_bind (TreeM.node_apply o b) ?_
  extract_lets -underBinder jp
  have hjp : ∀ {ps' c}, (b.node o).passes = false → Settled S root b ps' c →
      Gives E (jp ()) ps' c (Visited S root o prev s b) := fun hp hc => hrest (hclear hp) hc
  have hsolid : ∀ {t : Opcode}, (b.node o).code = t → Node.passes { code := t } = false →
      (b.node o).passes = false := fun hc hp => by rwa [Node.passes, hc]
  have hpass : ∀ {t : Opcode}, (b.node o).code = t → Node.passes { code := t } = true →
      (b.node o).passes = true := fun hc hp => by rwa [Node.passes, hc]
  have hlogop : ∀ {t : Opcode}, (b.node o).code = t → t ≠ .null → t.opClass = .logop →
      (b.node o).opClass = .logop := fun hc hn hl => by
    have hne : (b.node o).code ≠ .null := hc ▸ hn
    rw [Node.opClass, Node.isEx, hc]
    simp [hn, hl]
  have helide : (b.node o).passes = true → Gives E (do
      relink prev s (b.node o).next
      noteChange "elide"
      return .goOn (b.node o).next false : Peep Visit) ps b (Visited S root o prev s b) := fun hp =>
    (gives_elide ht hw hlead hp).mono fun _ _ _ hv => hv.1 ▸ hv.2.visited
  have hstep : ∀ {x : Peep Unit}, (b.node o).passes = false → Gives E x ps b (fun _ => Settled S root b) →
      Gives E (do
        let r ← x
        jp r) ps b (Visited S root o prev s b) := fun hp hx =>
    Gives.andThen hx fun _ _ hc => hjp hp hc
  have hbranchAt : (b.node o).opClass = .logop → Waits S root b (.other o) := fun hc =>
    ⟨hlead.lands.mem, hlead.lands.live, hproc, hc⟩
  clear_value jp
  split
  case h_1 hc => exact helide (hpass hc rfl)
  case h_2 hc => exact helide (hpass hc rfl)
  case h_3 hc => exact helide (hpass hc rfl)
  case h_4 hc => exact helide (hpass hc rfl)
  case h_5 hc =>
    exact hstep (hsolid hc rfl) (gives_modify ⟨ht.of_start rfl rfl, Calm.refl b⟩)
  case h_6 hc =>
    refine (gives_constBranch ht hw hlead hc hproc).bind fun v ps' c hv => ?_
    cases v with
    | none => exact hjp (hsolid hc rfl) hv
    | some p => exact gives_pure (hv.visited p.2)
  case h_7 hc =>
    refine (gives_notBranch ht hw hlead hc).bind fun v ps' c hv => ?_
    cases v with
    | none => exact hjp (hsolid hc rfl) hv
    | some l => exact gives_pure (hv.visited false)
  case h_8 hc =>
    refine (gives_tailReturn ht hw hlead hc).bind fun v ps' c hv => ?_
    cases v with
    | none =>
      obtain ⟨rfl, rfl⟩ := hv
      exact hstep (hsolid hc rfl) (gives_padrange ht hlead.lands hc)
    | some next => exact gives_pure (hv.visited false)
  case h_9 hc =>
    have hl := hlogop hc Opcode.noConfusion rfl
    exact hbranch hl (gives_threadBranch ht (hbranchAt hl) (hpass hc rfl))
  case h_10 hc =>
    have hl := hlogop hc Opcode.noConfusion rfl
    exact hbranch hl (gives_threadBranch ht (hbranchAt hl) (hpass hc rfl))
  case h_11 hc =>
    have hl := hlogop hc Opcode.noConfusion rfl
    exact hbranch hl (gives_threadBranch ht (hbranchAt hl) (hpass hc rfl))
  case h_12 hc =>
    have hl := hlogop hc Opcode.noConfusion rfl
    exact hbranch hl (gives_skipNulls ht (hbranchAt hl))
  case h_13 hc => exact hstep (hsolid hc rfl) (gives_loopBounds ht hlead.lands.mem)
  case h_14 hc => exact hstep (hsolid hc rfl) (gives_constIndex ht hlead.lands.mem hc)
  case h_15 hc => exact hstep (hsolid hc rfl) (gives_tagTruth ht hlead.lands.mem)
  case h_16 =>
    refine hjp ?_ (Settled.refl ht)
    unfold Node.passes
    split <;> first | rfl | (exfalso; simp_all)

/-- What the walk of the optimizer keeps if no rule breaks it. Nothing but memory can fail the walk. -/
theorem onward_rule (S : Course) (root : RecId) {K : Arena → Prop}
    (hK : ∀ {a b : Arena}, K a → Onward root a b → K b)
    (hE : ∀ {a : Arena}, K a → E (.fatal none) ∨ Memory.holds 8 a.tune.deferQueue = true) :
    Rule E (fun ps a => Tended S root ps a ∧ K a) (Waits S root) (Leads S root) where
  memory h := hE h.2
  stats h hs hf _ := ⟨h.1.of_start hs hf, h.2⟩
  head h hs ho _ := ⟨nofun, h.1.head hs ho⟩
  next {ps a o s z} h ho hz := by
    refine ⟨?_, h.1.wired.links o ho.1 ho.2.1 z (Or.inl hz)⟩
    rintro p ⟨⟩
    exact ⟨ho.1, ho.2.2.1⟩
  lt h ho := h.1.lt ho.lands.mem
  skip h hs := (gives_skipNulls h.1 hs).mono fun _ _ _ hk => ⟨⟨hk.1, hK h.2 hk.2.onward⟩, hk.2.onward.later⟩
  visit h hs ho hm _ := by
    have hon := (h.1.mark hs ho hm).2.1
    refine (gives_visit h.1 hs ho hm).mono fun v ps' b hv => ?_
    have hab := hon.trans hv.2.1
    refine ⟨⟨hv.1, hK h.2 hab⟩, hv.2.1.later, fun s hs => hab.waits hs, ?_⟩
    cases v with
    | goOn next keep => exact hv.2.2
    | branch => exact hv.2.2

theorem tended_rule (S : Course) (root : RecId) {T : Tuning} {ops : List RecId}
    (hE : E (.fatal none) ∨ Memory.holds 8 T.deferQueue = true) :
    Rule E (fun ps a => Tended S root ps a ∧ a.tune = T ∧ (a.tree root).recs ⊆ ops) (Waits S root)
      (Leads S root) :=
  onward_rule S root (fun h hab => ⟨hab.tune.trans h.1, fun _ hr => h.2 (hab.within hr)⟩) fun h => h.1 ▸ hE

end Peep

end OpTree
