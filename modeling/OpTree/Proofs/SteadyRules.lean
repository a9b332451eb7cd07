import OpTree.Proofs.Tended

/-!
# Rules that lead nowhere else

Rules that look at the unit, tag its ops or drop checks, but leave the walk where it is.
-/

namespace OpTree

set_option autoImplicit false

namespace Peep

open Arena OpTree.Tree

variable {S : Course} {root : RecId} {ps : PeepState} {a b c : Arena}

variable {α β : Type} {E : Failure → Prop} {prev : Option RecId} {s : PeepSlot}

def turned (a : Arena) (r : RecId) (t : Opcode) (n : Node) : Node :=
  { n with code := t, last := if t.tracksLast then (a.kids r).getLast? else none }

theorem retype_apply (r : RecId) (t : Opcode) (a : Arena) :
    TreeM.retype r t a = .ok () (a.update r (turned a r t)) := rfl

theorem Tended.retype {r : RecId} {t : Opcode} (h : Tended S root ps a) (hr : r ∈ (a.tree root).recs)
    (ht : ((a.node r).code, t) ∈ Node.turns) : Settled S root a ps (a.update r (turned a r t)) :=
  h.update (f := turned a r t) hr (Node.softens_turned ht fun hl => h.last_eq hr hl)

theorem gives_retype {r : RecId} {t : Opcode} (h : Tended S root ps a) (hr : r ∈ (a.tree root).recs)
    (ht : ((a.node r).code, t) ∈ Node.turns) :
    Gives E (liftM (TreeM.retype r t) : Peep Unit) ps a fun _ => Settled S root a :=
  gives_lift (retype_apply r t a) (h.retype hr ht)

theorem gives_tagTruth {o : RecId} (h : Tended S root ps a) (ho : o ∈ (a.tree root).recs) :
    Gives E (tagTruth o) ps a fun _ => Settled S root a := by
  have hpriv : ∀ f : Priv → Priv, Gives E (do
      TreeM.update o fun n => { n with priv := f n.priv }
      noteChange "boolean" : Peep Unit) ps a fun _ => Settled S root a := fun f =>
    Gives.andThen (gives_update h ho (Node.softens_priv _ _)) fun ps₁ b hb =>
      (gives_noteChange _ hb.1).mono fun _ _ _ hk => hb.trans hk
  unfold tagTruth
  refine gives_lift_bind (TreeM.get_apply a) ?_
  split
  · exact gives_pure (Settled.refl h)
  · exact hpriv fun p => (p ||| Priv.trueBool) &&& ~~~Priv.maybeTrueBool
  · exact hpriv fun p => p ||| Priv.maybeTrueBool

/-- Only complaints about the listing are kept as failures. -/
def Plain (v : Except Failure α) : Prop := ∀ why, v = .error why → ∃ msg, why = .plain msg

def Noted (ps : PeepState) (a : Arena) (v : Except Failure α) (qs : PeepState) (b : Arena) : Prop :=
  Plain v ∧ qs = ps ∧ b = a

theorem gives_found {v : α} : Gives E (pure (.ok v) : Peep (Except Failure α)) ps a (Noted ps a) :=
  gives_pure ⟨nofun, rfl, rfl⟩

theorem gives_complaint (msg : Bytes) :
    Gives E (complaint msg) ps a fun why qs b => (∃ m, why = .plain m) ∧ qs = ps ∧ b = a := by
  unfold complaint
  refine gives_get_bind ?_
  split
  · exact gives_pure ⟨⟨_, rfl⟩, rfl, rfl⟩
  · refine gives_lift_bind (TreeM.node_apply _ a) ?_
    exact gives_ite (fun _ => gives_pure ⟨⟨_, rfl⟩, rfl, rfl⟩) fun _ => gives_pure ⟨⟨_, rfl⟩, rfl, rfl⟩

theorem gives_inShape (targ : Int) (i : Int64) : Gives E (inShape targ i) ps a (Noted ps a) := by
  unfold inShape
  refine gives_lift_bind (TreeM.get_apply a) (gives_ite (fun _ => gives_found) fun _ => ?_)
  refine gives_ite (fun _ => (gives_complaint _).bind ?_) fun _ => gives_found
  rintro why qs b ⟨hwhy, rfl, rfl⟩
  refine gives_pure ⟨?_, rfl, rfl⟩
  rintro _ ⟨⟩
  exact hwhy

theorem gives_pathLevel (c : Arena) (act : Action) (s elem : RecId) (ct : Int) :
    Gives E (pathLevel? c act s elem ct) ps a (Noted ps a) := by
  unfold pathLevel?
  refine gives_ite (fun _ => gives_found) fun _ => ?_
  split
  · exact gives_found
  · refine gives_ite (fun _ => gives_found) fun _ => gives_ite (fun _ => gives_found) fun _ =>
      gives_ite (fun _ => gives_found) fun _ => gives_ite (fun _ => gives_found) fun _ => ?_
    split
    · exact gives_found
    · refine gives_ite (fun _ => (gives_inShape ct _).bind ?_) fun _ => gives_found
      rintro v qs b ⟨hv, rfl, rfl⟩
      cases v with
      | error why =>
        refine gives_pure ⟨?_, rfl, rfl⟩
        rintro _ ⟨⟩
        exact hv why rfl
      | ok sure => exact gives_found

theorem gives_scanLevels (c : Arena) (ct : Int) (fuel : Nat) (found : Option PathMatch) (act : Action)
    (s elem : RecId) : Gives E (scanLevels c ct fuel found act s elem) ps a (Noted ps a) := by
  induction fuel generalizing found act s elem with
  | zero => exact gives_found
  | succ fuel ih =>
    refine (gives_pathLevel c act s elem ct).bind ?_
    rintro v qs b ⟨hv, rfl, rfl⟩
    match v with
    | .error why =>
      refine gives_pure ⟨?_, rfl, rfl⟩
      rintro _ ⟨⟩
      exact hv why rfl
    | .ok none => exact gives_found
    | .ok (some l) =>
      refine gives_ite (fun _ => ?_) fun _ => ?_
      · cases elemUser? c elem <;> exact gives_found
      · cases nextLevel? c elem with
        | none => exact gives_found
        | some p => exact ih _ _ _ _

theorem gives_scanPath (o : RecId) : Gives E (scanPath o) ps a (Noted ps a) := by
  refine gives_lift_bind (TreeM.get_apply a) ?_
  split
  · exact gives_found
  · exact gives_scanLevels _ _ _ _ _ _ _

theorem gives_fail {why : Failure} (h : Tended S root ps a) (hwhy : ∃ msg, why = .plain msg) :
    Gives E (fail why) ps a fun _ => Settled S root a := by
  refine gives_modify ⟨⟨h.wired, h.start, h.begun, fun w hw => ?_⟩, Calm.refl a⟩
  rcases Option.or_eq_some_iff.mp hw with hw | ⟨-, hw⟩
  · exact h.failure w hw
  · exact Option.some.inj hw ▸ hwhy

theorem gives_constIndex {e : RecId} (h : Tended S root ps a) (he : e ∈ (a.tree root).recs)
    (hc : (a.node e).code = .aelem) : Gives E (constIndex e) ps a fun _ => Settled S root a := by
  unfold constIndex
  refine gives_lift_bind (TreeM.get_apply a) ?_
  split
  · split
    · exact gives_pure (Settled.refl h)
    · refine gives_ite (fun _ => gives_pure (Settled.refl h)) fun _ => ?_
      refine (gives_inShape _ _).bind ?_
      rintro v _ _ ⟨hv, rfl, rfl⟩
      split
      · exact gives_fail h (hv _ rfl)
      · exact gives_pure (Settled.refl h)
      · refine Gives.andThen (gives_retype h he (by rw [hc]; decide)) fun ps₁ b hb => ?_
        exact (gives_noteChange _ hb.1).mono fun _ _ _ hk => hb.trans hk
  · exact gives_pure (Settled.refl h)

structure Collected (a : Arena) (t : Tree) (acc : LoopAccesses) : Prop where
  elems : ∀ e ∈ acc.elems, e ∈ t.recs ∧ (a.node e).code = .aelem
  fused : ∀ e ∈ acc.fused, e ∈ t.recs ∧ (a.node e).opClass = .auxop

theorem Tended.collected (h : Tended S root ps a) {range : LoopRange} {fuel : Nat} {stack : List RecId}
    {acc acc' : LoopAccesses} (hs : ∀ r ∈ stack, r ∈ (a.tree root).recs) (hacc : Collected a (a.tree root) acc)
    (hok : collectAccesses a range fuel stack acc = some acc') : Collected a (a.tree root) acc' := by
  induction fuel generalizing stack acc with
  | zero =>
    cases stack with
    | nil =>
      cases hok
      exact hacc
    | cons r stack => cases hok
  | succ fuel ih =>
    cases stack with
    | nil =>
      cases hok
      exact hacc
    | cons r stack =>
      have hr := hs r (List.mem_cons_self ..)
      unfold collectAccesses at hok
      dsimp only at hok
      split at hok
      · cases hok
      · refine ih (fun k hk => ?_) ?_ hok
        · rcases List.mem_append.mp hk with hk | hk
          · exact h.kid_mem hr (List.mem_reverse.mp hk)
          · exact hs k (List.mem_cons_of_mem r hk)
        · split
          · rename_i hc
            rw [Bool.and_eq_true, beq_iff_eq] at hc
            refine ⟨fun e he => ?_, hacc.fused⟩
            rcases List.mem_append.mp he with he | he
            · exact hacc.elems e he
            · rw [List.mem_singleton.mp he]
              exact ⟨hr, hc.1⟩
          · split
            · refine ⟨hacc.elems, fun e he => ?_⟩
              rcases List.mem_append.mp he with he | he
              · exact hacc.fused e he
              · rename_i hc _
                rw [List.mem_singleton.mp he]
                rw [beq_iff_eq] at hc
                exact ⟨hr, by simp [Node.opClass, Node.isEx, hc, Opcode.opClass]⟩
            · exact hacc

theorem Tended.loopBody_mem (h : Tended S root ps a) {ent body : RecId} (he : ent ∈ (a.tree root).recs)
    (hb : loopBody? a ent = some body) : body ∈ (a.tree root).recs := by
  simp only [loopBody?, some_bind] at hb
  obtain ⟨leave, hleave, -, -, wrap, hwrap, l, hl, -, -, hbody⟩ := hb
  exact h.kid?_mem (h.first_mem (h.kid?_mem (h.parent_mem he hleave) hwrap) hl) hbody

theorem gives_uncheckElems (es : List RecId) (h : Tended S root ps a)
    (he : ∀ e ∈ es, e ∈ (a.tree root).recs ∧ ((a.node e).code, Opcode.aelemU) ∈ Node.turns) :
    Gives E (es.forM fun e => do
      TreeM.retype e .aelemU
      noteChange "bounds" : Peep Unit) ps a fun _ => Settled S root a := by
  induction es generalizing ps a with
  | nil => exact gives_pure (Settled.refl h)
  | cons e es ih =>
    obtain ⟨hr, ht⟩ := he e (List.mem_cons_self ..)
    have hstep := h.retype hr ht
    refine Gives.bind (P := fun _ ps' b => Settled S root a ps' b ∧
      ∀ q, (b.node q).code = (a.node q).code ∨ (b.node q).code = .aelemU) ?_ ?_
    · refine gives_lift_bind (retype_apply e .aelemU a) (gives_modify ⟨⟨hstep.1.of_start rfl rfl, hstep.2⟩, ?_⟩)
      intro q
      rcases node_update_cases (a := a) (r := e) (f := turned a e .aelemU) q with hq | ⟨-, hq⟩
      · exact Or.inl (by rw [hq])
      · exact Or.inr (by rw [hq]; rfl)
    · rintro _ ps' b ⟨hb, hcodes⟩
      refine (ih hb.1 fun q hq => ⟨hb.2.recs (he q (List.mem_cons_of_mem e hq)).1, ?_⟩).mono
        fun _ _ _ hk => hb.trans hk
      rcases hcodes q with hc | hc
      · rw [hc]
        exact (he q (List.mem_cons_of_mem e hq)).2
      · rw [hc]
        decide

theorem Tended.path (h : Tended S root ps a) {m : RecId} (hm : m ∈ (a.tree root).recs)
    (hc : (a.node m).opClass = .auxop) : ∃ p, (a.node m).path = some p ∧ p.items ≠ [] := by
  obtain ⟨u, hu, rfl, hh, -⟩ := h.subtree hm
  have hshape := h.wired.shaped u hu
  rw [← hh.fits.op, Node.shape_plain] at hshape
  exact hshape.path hc

theorem gives_uncheckItems {range : LoopRange} {m : RecId} (h : Tended S root ps a) (hm : m ∈ (a.tree root).recs)
    (hc : (a.node m).opClass = .auxop) : Gives E (uncheckItems range m) ps a fun _ => Settled S root a := by
  obtain ⟨path, hpath, hne⟩ := h.path hm hc
  unfold uncheckItems
  refine gives_lift_bind (TreeM.get_apply a) ?_
  rw [hpath]
  refine Gives.andThen (gives_update h hm (Node.softens_data rfl rfl (fun k hk => ⟨hk.flag, hk.count, fun _ => ?_⟩)
    ⟨rfl, rfl, rfl, rfl, rfl, rfl, rfl, rfl⟩ (fun _ => ⟨rfl, rfl, rfl⟩) fun hc => ⟨hc, ?_⟩)) fun ps₁ b hb => ?_
  · exact ⟨_, rfl, by simpa using hne⟩
  · rw [hpath]
    refine .some ⟨List.forall₂_map_right_iff.mpr (List.forall₂_same.mpr fun it _ => ?_), rfl⟩
    unfold PathItem.Eased
    split <;> simp
  · exact (gives_forM hb.1 fun _ _ {_ _} hc => gives_noteChange _ hc.1).mono fun _ _ _ hk => hb.trans hk

theorem gives_loopBounds {ent : RecId} (h : Tended S root ps a) (he : ent ∈ (a.tree root).recs) :
    Gives E (loopBounds ent) ps a fun _ => Settled S root a := by
  unfold loopBounds
  refine gives_lift_bind (TreeM.get_apply a) ?_
  split
  · rename_i range body hrange hbody
    split
    · exact gives_pure (Settled.refl h)
    · rename_i acc hacc
      have hc : Collected a (a.tree root) acc := by
        refine h.collected (fun r hr => ?_) ⟨by simp, by simp⟩ hacc
        rw [List.mem_singleton.mp hr]
        exact h.loopBody_mem he hbody
      refine Gives.andThen (gives_uncheckElems acc.elems h fun e he => ?_) fun ps₁ b hb => ?_
      · obtain ⟨hr, hcode⟩ := hc.elems e he
        exact ⟨hr, by rw [hcode]; decide⟩
      · refine (gives_forM hb.1 fun m hm ps₂ c hbc => ?_).mono fun _ _ _ hk => hb.trans hk
        obtain ⟨hr, hclass⟩ := hc.fused m hm
        exact gives_uncheckItems hbc.1 (hbc.2.recs (hb.2.recs hr))
          (hbc.2.auxop m (hb.2.recs hr) (hb.2.auxop m hr hclass))
  · exact gives_pure (Settled.refl h)

end Peep

end OpTree
