import OpTree.Proofs.Kindred

/-!
# Tidy records

Records are made blank before they are used again, so a new op has no links, no mark and an id of its own.
-/

namespace OpTree

set_option autoImplicit false

namespace Arena

variable {a b : Arena}

theorem Clean.push {n : Node} (h : a.Clean) (hn : n.Tidy) : Clean { a with recs := a.recs.push n } := by
  intro r
  rcases Nat.lt_trichotomy r a.recs.size with hr | hr | hr
  · rw [node_push_of_lt hr]
    exact h r
  · rw [hr, node_push_self]
    exact hn
  · rw [node_of_le (by simpa using Nat.succ_le_of_lt hr)]
    exact Node.tidy_blank rfl rfl

theorem Clean.withGroup {g : Option Group} (h : a.Clean) : Clean { a with group? := g } := h

/-- What becomes of an arena when a record is allocated from its group. -/
structure Adds (a b : Arena) (g : Group) (r : RecId) : Prop where
  clean : b.Clean
  other : (b.node r).other = none
  inherits : Inherits a b fun q => q = r
  held : ∃ g', b.group? = some g' ∧ g'.refs = g.refs ∧ g'.released = g.released

theorem Clean.reuse {g : Group} {size : Int} {r : RecId} (h : a.Clean) (hr : a.reuse? g size = some (r, b)) :
    Adds a b g r := by
  have hnew : ∀ (c : Arena) (g' : Group), c.Clean → c.seq = a.seq → c.pad = a.pad → c.tune = a.tune →
      c.recs.size = a.recs.size →
      (∀ q, (c.node q).code = (a.node q).code ∧ (c.node q).id = (a.node q).id) → g'.refs = g.refs →
      g'.released = g.released →
      Adds a { c.update r (fun x => { size := x.size }) with group? := some g' } g r := by
    intro c g' hc hseq hpad htune hsize hsame hrefs hrel
    refine ⟨(hc.update fun _ _ => Node.tidy_blank rfl rfl).withGroup, ?_, ⟨hseq, hpad, htune, fun q hq hlt hl => ?_⟩,
      g', rfl, hrefs, hrel⟩
    · change ((c.update r fun x => { size := x.size }).node r).other = none
      by_cases hlt : r < c.recs.size
      · rw [node_update_self hlt]
      · rw [node_of_le (by simpa using hlt)]
        rfl
    · change ((c.update r fun x => { size := x.size }).node q).code ≠ .freed at hl
      change _ ∧ _ ∧ ((c.update r fun x => { size := x.size }).node q).id = _
      rw [node_update_of_ne hq] at hl ⊢
      exact ⟨hsize ▸ (by simpa using hlt), (hsame q).1 ▸ hl, (hsame q).2⟩
  unfold reuse? at hr
  rw [Option.map_eq_some_iff] at hr
  obtain ⟨⟨prev, q⟩, -, hr⟩ := hr
  cases prev with
  | none =>
    cases hr
    exact hnew a _ h rfl rfl rfl rfl (fun _ => ⟨rfl, rfl⟩) rfl rfl
  | some p =>
    cases hr
    have hskip : (a.update p fun x => { x with next := (a.node r).next }).Clean :=
      h.update fun _ hn => ⟨hn.other, hn.unmarked⟩
    refine hnew _ _ hskip rfl rfl rfl (size_update ..) (fun q => ?_) rfl rfl
    rcases node_update_cases (a := a) (r := p) (f := fun x => { x with next := (a.node r).next }) q with he | ⟨-, he⟩ <;>
      rw [he] <;> exact ⟨rfl, rfl⟩

theorem Clean.carve {g : Group} {size : Int} {r : RecId} (h : a.Clean) (hr : a.carve g size = (r, b)) :
    Adds a b g r := by
  have hnew : ∀ (c : Arena) (g' : Group), c.Clean → Inherits a c (fun _ => False) → g'.refs = g.refs →
      g'.released = g.released →
      (c.recs.size, { c with recs := c.recs.push { size := size }, group? := some g' }) = (r, b) →
      Adds a b g r := by
    intro c g' hc hin hrefs hrel heq
    cases heq
    refine ⟨(hc.push (Node.tidy_blank rfl rfl)).withGroup,
      congrArg Node.other (node_push_self (a := c) { size := size }), ⟨hin.seq, hin.pad, hin.tune, fun q hq hlt hl => ?_⟩,
      g', rfl, hrefs, hrel⟩
    have hle : q ≤ c.recs.size := Nat.le_of_lt_succ (by simpa using hlt)
    have hqc : q < c.recs.size := Nat.lt_of_le_of_ne hle hq
    have hnode := node_push_of_lt (n := { size := size }) hqc
    change (({ c with recs := c.recs.push { size := size } } : Arena).node q).code ≠ .freed at hl
    change _ ∧ _ ∧ (({ c with recs := c.recs.push { size := size } } : Arena).node q).id = _
    rw [hnode] at hl ⊢
    exact hin.live q not_false hqc hl
  have hscrap : (a.scrap g).1.Clean ∧ Inherits a (a.scrap g).1 (fun _ => False) ∧
      (a.scrap g).2.refs = g.refs ∧ (a.scrap g).2.released = g.released := by
    unfold scrap
    simp only
    split
    · exact ⟨h, ⟨rfl, rfl, rfl, fun q _ hlt hl => ⟨hlt, hl, rfl⟩⟩, rfl, rfl⟩
    · refine ⟨h.push (Node.tidy_blank rfl rfl), ⟨rfl, rfl, rfl, fun q _ hlt hl => ?_⟩, ?_, ?_⟩
      · have hle : q ≤ a.recs.size := Nat.le_of_lt_succ (by simpa using hlt)
        have hq : q < a.recs.size := by
          refine Nat.lt_of_le_of_ne hle fun he => ?_
          rw [he, node_push_self] at hl
          exact hl rfl
        rw [node_push_of_lt hq] at hl ⊢
        exact ⟨hq, hl, rfl⟩
      · rw [Group.carve]
        split <;> rfl
      · rw [Group.carve]
        split <;> rfl
  have hcarve : ∀ (g' : Group), (g'.carve size).refs = g'.refs ∧ (g'.carve size).released = g'.released := by
    intro g'
    rw [Group.carve]
    split <;> exact ⟨rfl, rfl⟩
  unfold Arena.carve at hr
  by_cases hneeds : needsSlab g size = true
  · simp only [hneeds, if_true] at hr
    obtain ⟨hc, hin, hrefs, hrel⟩ := hscrap
    refine hnew _ _ hc hin ?_ ?_ hr
    · exact (hcarve (grow (a.scrap g).2 size)).1.trans hrefs
    · exact (hcarve (grow (a.scrap g).2 size)).2.trans hrel
  · simp only [hneeds, Bool.false_eq_true, if_false] at hr
    refine hnew _ _ h ⟨rfl, rfl, rfl, fun q _ hlt hl => ⟨hlt, hl, rfl⟩⟩ ?_ ?_ hr
    · exact (hcarve g).1
    · exact (hcarve g).2

theorem Clean.alloc {g : Group} {size : Int} {r : RecId} (h : a.Clean) (hr : a.alloc g size = (r, b)) :
    Adds a b g r := by
  unfold Arena.alloc at hr
  simp only at hr
  split at hr
  · subst hr
    exact h.reuse ‹_›
  · exact h.carve hr

theorem Tidy.free {g : Group} {r : RecId} (h : a.Tidy) (hg : a.group? = some g) : a.Tidied (a.free g r) := by
  unfold Arena.free
  obtain ⟨g', hg', hrefs, hrel⟩ := h.held
  obtain rfl := Option.some.inj (hg.symm.trans hg')
  refine h.inherits (h.clean.update fun _ _ => Node.tidy_blank rfl rfl).withGroup
    ⟨rfl, rfl, rfl, fun q _ hlt hl => ?_⟩ ⟨_, rfl, hrefs, hrel⟩
  rcases node_update_cases (a := a) (r := r) (f := fun n =>
    { code := .freed, ex := n.code, id := n.id, size := n.size, next := g.free }) q with he | ⟨-, he⟩
  all_goals
    simp only [node] at he hl ⊢
    rw [he] at hl ⊢
  · exact ⟨by simpa using hlt, hl, rfl⟩
  · exact absurd rfl hl

end Arena

namespace TreeM

variable {α β : Type}

theorem alloc_adds {a b : Arena} {size : Int} {r : RecId} (ha : a.Tidy) (hok : alloc size a = .ok r b) :
    ∃ g, a.group? = some g ∧ Arena.Adds a b g r := by
  unfold alloc at hok
  rw [bind_of_ok (get_apply a)] at hok
  obtain ⟨g, hg, -, -⟩ := ha.held
  rw [hg] at hok
  simp only at hok
  split at hok
  · exact absurd hok throw_ne_ok
  · rw [bind_of_ok (get_apply a)] at hok
    split at hok
    · exact absurd hok throw_ne_ok
    · have heq : a.alloc g size = (r, b) := by
        cases hok
        rfl
      exact ⟨g, hg, ha.clean.alloc heq⟩

theorem new_code {a b : Arena} {t : Opcode} {fl : Flags} {r : RecId} (hok : new t fl a = .ok r b)
    (hr : r < b.recs.size) : (b.node r).code = t := by
  obtain ⟨q, c, -, hok⟩ := bind_eq_ok.mp hok
  cases hok
  rw [Arena.size_update] at hr
  rw [Arena.node_update_self hr]

theorem numbered_next {a b : Arena} {r : RecId} (h : a.Numbered fun q => ¬ q = r) (hseq : b.seq = a.seq + 1)
    (hsize : b.recs.size = a.recs.size) (hother : ∀ q, q ≠ r → b.node q = a.node q)
    (hid : r < a.recs.size → (b.node r).id = a.seq + 1) : b.Numbered fun _ => True := by
  have hle : ∀ q, q ≠ r → q < b.recs.size → (b.node q).code ≠ .freed → (b.node q).id ≤ a.seq := by
    intro q hq hlt hl
    rw [hother q hq] at hl ⊢
    exact h.le q hq (hsize ▸ hlt) hl
  refine ⟨fun q _ hlt hl => ?_, fun q q' _ _ hlt hlt' hl hl' he => ?_⟩
  · rw [hseq]
    by_cases hq : q = r
    · exact Nat.le_of_eq (hq ▸ hid (hsize ▸ hq ▸ hlt))
    · exact Nat.le_succ_of_le (hle q hq hlt hl)
  · rw [hsize] at hlt hlt'
    by_cases hq : q = r <;> by_cases hq' : q' = r
    · rw [hq, hq']
    · have hqid := hle q' hq' (hsize ▸ hlt') hl'
      rw [← he, hq, hid (hq ▸ hlt)] at hqid
      exact absurd hqid (Nat.not_succ_le_self _)
    · have hqid := hle q hq (hsize ▸ hlt) hl
      rw [he, hq', hid (hq' ▸ hlt')] at hqid
      exact absurd hqid (Nat.not_succ_le_self _)
    · rw [hother q hq] at hl he
      rw [hother q' hq'] at hl' he
      exact h.inj q q' hq hq' hlt hlt' hl hl' he

theorem tidies_new (t : Opcode) (fl : Flags) : Tidies (new t fl) := by
  intro a b v ha hok
  obtain ⟨r, c, hr, hok⟩ := bind_eq_ok.mp hok
  obtain ⟨g, hg, hc⟩ := alloc_adds ha hr
  obtain ⟨g', hg', hrefs, hrel⟩ := ha.held
  obtain rfl := Option.some.inj (hg.symm.trans hg')
  obtain ⟨h, hh, hhrefs, hhrel⟩ := hc.held
  cases hok
  have hnode := Arena.node_update_cases (a := { c with seq := c.seq + 1 }) (r := v)
    (f := fun n => { n with code := t, flags := fl, id := c.seq + 1 })
  refine ⟨⟨fun q => ?_, numbered_next (ha.numbered.inherits hc.inherits) rfl (Arena.size_update ..)
    (fun q hq => Arena.node_update_of_ne hq _) fun hlt => ?_, h, hh, hhrefs.trans hrefs, hhrel.trans hrel⟩,
    Nat.le_of_eq (congrArg Pad.size hc.inherits.pad.symm), hc.inherits.tune⟩
  · rcases hnode q with hq | ⟨rfl, hq⟩
    · rw [hq]
      exact hc.clean q
    · rw [hq]
      exact ⟨Or.inl hc.other, (hc.clean q).unmarked⟩
  · rw [Arena.node_update_self (by exact hlt)]

theorem steady_destroy (r : RecId) : Steady (destroy r) := by
  refine steady_update fun n => ?_
  unfold Node.destroyed
  split <;> rfl

theorem tidies_freeInGroup (r : RecId) : Tidies (freeInGroup r) := by
  intro a b v ha hok
  unfold freeInGroup at hok
  rw [bind_of_ok (node_apply r a)] at hok
  split at hok
  · cases hok
    exact ⟨ha, Nat.le_refl _, rfl⟩
  · rw [bind_of_ok (get_apply a)] at hok
    cases hs : (a.node r).static with
    | true =>
      rw [hs] at hok
      exact absurd hok throw_ne_ok
    | false =>
      rw [hs] at hok
      cases hg : a.group? with
      | none =>
        rw [hg] at hok
        exact absurd hok throw_ne_ok
      | some g =>
        rw [hg] at hok
        cases hok
        exact ha.free hg

theorem tidies_free (r : RecId) : Tidies (free r) := by
  refine (steady_node r).tidies.bind fun n => tidies_ite (steady_pure ()).tidies ?_
  exact tidies_ite (tidies_update (fun _ hn => ⟨Or.inl rfl, hn.unmarked⟩) fun _ hl => absurd rfl hl)
    (tidies_freeInGroup r)

theorem tidies_freeStack (fuel : Nat) (stack : List RecId) : Tidies (freeStack fuel stack) := by
  induction fuel generalizing stack with
  | zero =>
    cases stack with
    | nil => exact (steady_pure ()).tidies
    | cons r stack => exact tidies_throw _
  | succ fuel ih =>
    cases stack with
    | nil => exact (steady_pure ()).tidies
    | cons r stack =>
      have hrest : Tidies (do
          let ks ← kids r
          destroy r
          free r
          freeStack fuel (ks.reverse ++ stack)) :=
        (steady_kids r).tidies.bind fun _ => (steady_destroy r).tidies.bind fun _ =>
          (tidies_free r).bind fun _ => ih _
      have hrefs : Tidies (update r fun n => { n with refs := n.refs - 1 }) :=
        tidies_data fun _ => rfl
      unfold freeStack
      refine (steady_node r).tidies.bind fun n => tidies_ite (ih stack) ?_
      exact tidies_ite (hrefs.bind fun _ => tidies_ite (ih stack) hrest) (tidies_ite (ih stack) hrest)

theorem tidies_freeTree (r : RecId) : Tidies (freeTree r) :=
  steady_get.tidies.bind fun _ => tidies_freeStack _ _

theorem steady_trial (o : RecId) (start : Option RecId) : Steady (trial o start) := by
  intro a b v h
  obtain rfl := trial_ok h
  exact steady_setNext o none rfl

theorem tidies_fold (o : RecId) : Tidies (fold o) := by
  refine steady_get.tidies.bind fun a => ?_
  refine tidies_ite (steady_pure _).tidies ?_
  refine (steady_linearize o).tidies.bind fun start => steady_get.tidies.bind fun c => ?_
  refine tidies_ite ((steady_float o start).tidies.bind fun _ => (steady_pure o).tidies) ?_
  refine (steady_trial o start).tidies.bind fun v? => (steady_float o start).tidies.bind fun _ => ?_
  split
  · exact (steady_pure o).tidies
  · refine (tidies_new _ _).bind fun _ => Tidies.bind ?_ fun _ =>
      (tidies_freeTree o).bind fun _ => (steady_pure _).tidies
    exact tidies_data fun _ => rfl

end TreeM

end OpTree
