import OpTree.Proofs.Fusing

/-!
# Units in the hands of the optimizer

What stays true of a unit while its order of execution is rewritten: its tree is wired, ops are softened
where they stand, and links are only led on past ops that control passes. Most rules are composed of
a few changes of which this is shown here.
-/

namespace OpTree

set_option autoImplicit false

namespace Arena

theorem root_tree (a : Arena) (r : RecId) : (a.tree r).root = r := by
  unfold tree
  cases a.bound <;> rfl

theorem mem_tree_root (a : Arena) (r : RecId) : r ∈ (a.tree r).recs := by
  have h := (a.tree r).root_mem_recs
  rwa [root_tree] at h

end Arena

namespace Node

/-- A change of data only, and not of data that tell which access an op takes part in. -/
theorem softens_data {n n' : Node} (hc : n'.code = n.code) (hx : n'.ex = n.ex) (hs : ∀ k, n.Shape k → n'.Shape k)
    (h : n'.first = n.first ∧ n'.last = n.last ∧ n'.sib = n.sib ∧ n'.next = n.next ∧ n'.other = n.other ∧
      n'.processed = n.processed ∧ n'.id = n.id ∧ n'.turn = n.turn)
    (hd : n.code ∈ stays → n'.targ = n.targ ∧ n'.val = n.val ∧ n'.name = n.name) (he : n.Eases n') :
    n.Softens n' := by
  have hclass : n'.opClass = n.opClass := by rw [opClass, opClass, isEx, isEx, hc, hx]
  obtain ⟨hfirst, hlast, hsib, hnext, hother, hproc, hid, hturn⟩ := h
  refine ⟨hfirst, hsib, hnext, hother, hproc, fun ht => ⟨hclass ▸ ht, hlast⟩, hc ▸ fun h => h, fun hp => ?_,
    fun hf => ?_, hc ▸ fun h => h, hc ▸ fun h => h, hclass ▸ Iff.rfl, hclass ▸ fun h => h, hc ▸ fun h => h,
    hc ▸ fun h => h, hs, hid, hturn, ⟨fun hash hel => ⟨?_, hfirst⟩, fun hm => ?_⟩, he⟩
  · rw [passes, hc]
    exact hp
  · exact ⟨hc ▸ hf.null, hc ▸ hf.lineseq, hc ▸ hf.enteriter, hclass ▸ hf.logop⟩
  · rwa [Peep.isElemOf, hc, hx] at hel
  · obtain ⟨htarg, hval, hname⟩ := hd (hc ▸ hm)
    exact ⟨hc, htarg, hval, hname, hfirst, hsib⟩

theorem softens_priv (n : Node) (p : Priv) : n.Softens { n with priv := p } :=
  softens_data rfl rfl (fun _ h => h.alike ⟨rfl, rfl, rfl, rfl⟩) ⟨rfl, rfl, rfl, rfl, rfl, rfl, rfl, rfl⟩
    (fun _ => ⟨rfl, rfl, rfl⟩) (eases_of_path rfl rfl)

theorem Softens.trans {n n' n'' : Node} (h : n.Softens n') (h' : n'.Softens n'') : n.Softens n'' where
  first := h'.first.trans h.first
  sib := h'.sib.trans h.sib
  next := h'.next.trans h.next
  other := h'.other.trans h.other
  processed := h'.processed.trans h.processed
  last ht := ⟨(h.last (h'.last ht).1).1, (h'.last ht).2.trans (h.last (h'.last ht).1).2⟩
  live hl := h'.live (h.live hl)
  passes hp := h'.passes (h.passes hp)
  firm hf := h.firm (h'.firm hf)
  lineseq hl := h.lineseq (h'.lineseq hl)
  leaf hl := h.leaf (h'.leaf hl)
  logop := h'.logop.trans h.logop
  auxop ha := h'.auxop (h.auxop ha)
  leavesub hc := h'.leavesub (h.leavesub hc)
  nextstate hc := h'.nextstate (h.nextstate hc)
  shape k hk := h'.shape k (h.shape k hk)
  id := h'.id.trans h.id
  turn := h'.turn.trans h.turn
  recalls := h.recalls.trans h'.recalls
  eases := h.eases.trans h'.eases

/-- The ops that the optimizer leaves alone: those that announce statements or hold them together and those that
open and close loops. -/
def fixed : List Opcode := [.lineseq, .leavesub, .enteriter, .leaveloop, .nextstate]

theorem softens_neutralized {n : Node} (h : n.code ∉ fixed) : n.Softens n.neutralized := by
  have hcode := n.neutralized_code
  have hclass := opClass_neutralized n
  have hkeep : n.neutralized.first = n.first ∧ n.neutralized.sib = n.sib ∧ n.neutralized.next = n.next ∧
      n.neutralized.other = n.other ∧ n.neutralized.processed = n.processed ∧ n.neutralized.last = n.last ∧
      n.neutralized.id = n.id := by
    unfold neutralized
    split <;> exact ⟨rfl, rfl, rfl, rfl, rfl, rfl, rfl⟩
  obtain ⟨hfirst, hsib, hnext, hother, hproc, hlast, hid⟩ := hkeep
  simp only [fixed, List.mem_cons, List.not_mem_nil, or_false, not_or] at h
  obtain ⟨hseq, hsub, henter, hleave, hstate⟩ := h
  have hturn : n.neutralized.turn = n.turn := by
    rw [turn_of_ne henter hleave]
    exact turn_of_ne (hcode ▸ Opcode.noConfusion) (hcode ▸ Opcode.noConfusion)
  refine ⟨hfirst, hsib, hnext, hother, hproc, fun ht => ⟨hclass ▸ ht, hlast⟩, fun _ => ?_,
    fun _ => passes_neutralized n, fun hf => absurd hcode hf.null, fun _ => hseq, fun hl => ?_,
    hclass ▸ Iff.rfl, fun ha => hclass.trans ha, fun hc => absurd hc hsub,
    fun hc => absurd hc hstate, fun _ hk => hk.neutralized, hid, hturn, n.recalls_neutralized, fun hc => ?_⟩
  · rw [hcode]
    exact nofun
  · rw [hcode] at hl
    cases hl
  · rw [hcode] at hc
    cases hc

/-- The opcodes that the optimizer changes in place, with what becomes of them. -/
def turns : List (Opcode × Opcode) :=
  [(.aelem, .aelemU), (.aelemU, .aelemU), (.and, .or), (.or, .and), (.pushmark, .padrange)]

theorem recalls_turned {n : Node} {t : Opcode} {l : Option RecId}
    (h : n.code = .aelem ∧ t = .aelemU ∨ n.code = .aelemU ∧ t = .aelemU ∨ n.code = .and ∧ t = .or ∨
      n.code = .or ∧ t = .and ∨ n.code = .pushmark ∧ t = .padrange) :
    n.Recalls { n with code := t, last := l } := by
  refine ⟨fun hash he => ⟨?_, rfl⟩, fun hs => ?_⟩
  · rcases h with ⟨h, rfl⟩ | ⟨h, rfl⟩ | ⟨h, rfl⟩ | ⟨h, rfl⟩ | ⟨h, rfl⟩ <;> cases hash <;>
      simp_all [Peep.isElemOf]
  · change t ∈ stays at hs
    rcases h with ⟨-, rfl⟩ | ⟨-, rfl⟩ | ⟨-, rfl⟩ | ⟨-, rfl⟩ | ⟨-, rfl⟩ <;> exact absurd hs (by decide)

theorem softens_turned {n : Node} {t : Opcode} {l : Option RecId} (h : (n.code, t) ∈ turns)
    (hl : n.opClass.tracksLast = true → n.last = l) :
    n.Softens { n with code := t, last := if t.tracksLast then l else none } := by
  have hclass : ∀ m : Node, m.code ≠ .null → m.opClass = m.code.opClass := fun m hm => by
    simp [opClass, isEx, hm]
  simp only [turns, List.mem_cons, Prod.mk.injEq, List.not_mem_nil, or_false] at h
  have hc : n.opClass = n.code.opClass := hclass n (by rcases h with h | h | h | h | h <;> simp [h.1])
  have ht : ∀ m : Node, m.code = t → m.opClass = t.opClass := fun m hm => by
    rw [hclass m (by rw [hm]; rcases h with h | h | h | h | h <;> simp [h.2]), hm]
  refine ⟨rfl, rfl, rfl, rfl, rfl, fun htr => ?_, fun _ => ?_, fun hp => ?_, fun hf => ?_, fun _ => ?_,
    fun hlf => ?_, ?_, fun ha => ?_, fun hls => ?_, fun hns => ?_, fun k hk => ⟨hk.flag, fun _ => ?_, fun ha => ?_⟩, rfl, ?_,
    recalls_turned h, fun hm => ?_⟩
  · rw [ht _ rfl] at htr
    have hn : n.opClass.tracksLast = true := by
      rw [hc]
      rcases h with ⟨h, rfl⟩ | ⟨h, rfl⟩ | ⟨h, rfl⟩ | ⟨h, rfl⟩ | ⟨h, rfl⟩ <;> rw [h] <;> exact htr
    refine ⟨hn, ?_⟩
    rw [hl hn, show t.tracksLast = true from htr]
    rfl
  · rcases h with ⟨-, rfl⟩ | ⟨-, rfl⟩ | ⟨-, rfl⟩ | ⟨-, rfl⟩ | ⟨-, rfl⟩ <;> exact Opcode.noConfusion
  · rw [passes] at hp ⊢
    rcases h with ⟨h, rfl⟩ | ⟨h, rfl⟩ | ⟨h, rfl⟩ | ⟨h, rfl⟩ | ⟨h, rfl⟩ <;> rw [h] at hp <;> first | rfl | cases hp
  · have hnl := hf.logop
    rw [ht _ rfl] at hnl
    rcases h with ⟨h, rfl⟩ | ⟨h, rfl⟩ | ⟨h, rfl⟩ | ⟨h, rfl⟩ | ⟨h, rfl⟩ <;>
      exact ⟨by simp [h], by simp [h], by simp [h], by rw [hc, h]; first | exact hnl | decide⟩
  · rcases h with ⟨h, -⟩ | ⟨h, -⟩ | ⟨h, -⟩ | ⟨h, -⟩ | ⟨h, -⟩ <;> rw [h] <;> exact Opcode.noConfusion
  · rcases h with ⟨-, rfl⟩ | ⟨-, rfl⟩ | ⟨-, rfl⟩ | ⟨-, rfl⟩ | ⟨-, rfl⟩ <;> cases hlf
  · rw [ht _ rfl, hc]
    rcases h with ⟨h, rfl⟩ | ⟨h, rfl⟩ | ⟨h, rfl⟩ | ⟨h, rfl⟩ | ⟨h, rfl⟩ <;> rw [h] <;> simp [Opcode.opClass]
  · rw [hc] at ha
    rcases h with ⟨h, -⟩ | ⟨h, -⟩ | ⟨h, -⟩ | ⟨h, -⟩ | ⟨h, -⟩ <;> rw [h] at ha <;> cases ha
  · rcases h with ⟨h, -⟩ | ⟨h, -⟩ | ⟨h, -⟩ | ⟨h, -⟩ | ⟨h, -⟩ <;> rw [h] at hls <;> cases hls
  · rcases h with ⟨h, -⟩ | ⟨h, -⟩ | ⟨h, -⟩ | ⟨h, -⟩ | ⟨h, -⟩ <;> rw [h] at hns <;> cases hns
  · have hcount := hk.count (by rcases h with h | h | h | h | h <;> simp [h.1])
    rw [kidCountOk, kidRange] at hcount ⊢
    rw [ht _ rfl]
    rw [hc] at hcount
    rcases h with ⟨h, rfl⟩ | ⟨h, rfl⟩ | ⟨h, rfl⟩ | ⟨h, rfl⟩ | ⟨h, rfl⟩ <;> rw [h] at hcount <;> exact hcount
  · rw [ht _ rfl] at ha
    rcases h with ⟨-, rfl⟩ | ⟨-, rfl⟩ | ⟨-, rfl⟩ | ⟨-, rfl⟩ | ⟨-, rfl⟩ <;> cases ha
  · rw [turn, turn]
    rcases h with ⟨h, rfl⟩ | ⟨h, rfl⟩ | ⟨h, rfl⟩ | ⟨h, rfl⟩ | ⟨h, rfl⟩ <;> rw [h]
  · rcases h with ⟨-, rfl⟩ | ⟨-, rfl⟩ | ⟨-, rfl⟩ | ⟨-, rfl⟩ | ⟨-, rfl⟩ <;> cases hm

theorem branch_of_code {n : Node} (h : n.code = .and ∨ n.code = .or ∨ n.code = .dor) :
    n.passes = true ∧ n.opClass = .logop := by
  rcases h with h | h | h <;> exact ⟨by rw [passes, h], by simp [opClass, isEx, h, Opcode.opClass]⟩

end Node

namespace Peep

open Arena OpTree.Tree

variable {S : Course} {root : RecId} {ps : PeepState} {a b c : Arena}

/-- The tree under the root is wired, and the chain of the unit starts in it. What failed, if anything,
is what the listing asks for. -/
structure Tended (S : Course) (root : RecId) (ps : PeepState) (a : Arena) : Prop where
  wired : Wired S a (a.tree root)
  start : ∀ z, ps.start = some z → Lands S a (a.tree root) none z
  begun : ps.start ≠ none
  failure : ∀ why, ps.failure? = some why → ∃ msg, why = .plain msg

structure Lasts (root : RecId) (a b : Arena) : Prop where
  size : b.recs.size = a.recs.size
  pad : b.pad = a.pad
  within : (b.tree root).recs ⊆ (a.tree root).recs
  recalls : ∀ r ∈ (b.tree root).recs, (a.node r).Recalls (b.node r)

theorem Lasts.refl (a : Arena) : Lasts root a a := ⟨rfl, rfl, fun _ h => h, fun _ _ => .refl _⟩

theorem Lasts.trans (h : Lasts root a b) (h' : Lasts root b c) : Lasts root a c where
  size := h'.size.trans h.size
  pad := h'.pad.trans h.pad
  within _ hr := h.within (h'.within hr)
  recalls r hr := (h.recalls r (h'.within hr)).trans (h'.recalls r hr)

/-- What a rule that cuts nothing out leaves as it is. -/
structure Calm (S : Course) (root : RecId) (a b : Arena) : Prop where
  size : b.recs.size = a.recs.size
  tune : b.tune = a.tune
  lasts : Lasts root a b
  eases : ∀ r ∈ (b.tree root).recs, (a.node r).Eases (b.node r)
  marks : ∀ r, (b.node r).processed = (a.node r).processed
  recs : (a.tree root).recs ⊆ (b.tree root).recs
  within : (b.tree root).recs ⊆ (a.tree root).recs
  states : ∀ r ∈ (a.tree root).recs, (a.node r).code = .nextstate → (b.node r).code = .nextstate
  logop : ∀ r ∈ (a.tree root).recs, (a.node r).opClass = .logop → (b.node r).opClass = .logop
  auxop : ∀ r ∈ (a.tree root).recs, (a.node r).opClass = .auxop → (b.node r).opClass = .auxop
  passes : ∀ r ∈ (a.tree root).recs, (a.node r).passes = true → (b.node r).passes = true
  lands : ∀ p? z, Lands S a (a.tree root) p? z → Lands S b (b.tree root) p? z
  firm : ∀ w' ∈ (b.tree root).subtrees, w'.op.Firm →
    ∃ w ∈ (a.tree root).subtrees, w.op.Firm ∧ w.start = w'.start ∧ w'.recs = w.recs

theorem Calm.refl (a : Arena) : Calm S root a a :=
  ⟨rfl, rfl, .refl a, fun _ _ => Node.eases_of_path rfl rfl, fun _ => rfl, fun _ h => h, fun _ h => h, fun _ _ h => h, fun _ _ h => h, fun _ _ h => h,
    fun _ _ h => h, fun _ _ h => h, fun w hw hf => ⟨w, hw, hf, rfl, rfl⟩⟩

theorem Calm.trans (h : Calm S root a b) (h' : Calm S root b c) : Calm S root a c where
  size := h'.size.trans h.size
  tune := h'.tune.trans h.tune
  lasts := h.lasts.trans h'.lasts
  eases r hr := (h.eases r (h'.within hr)).trans (h'.eases r hr)
  marks r := (h'.marks r).trans (h.marks r)
  recs _ hr := h'.recs (h.recs hr)
  within _ hr := h.within (h'.within hr)
  states r hr hc := h'.states r (h.recs hr) (h.states r hr hc)
  logop r hr hc := h'.logop r (h.recs hr) (h.logop r hr hc)
  auxop r hr hc := h'.auxop r (h.recs hr) (h.auxop r hr hc)
  passes r hr hc := h'.passes r (h.recs hr) (h.passes r hr hc)
  lands p? z hz := h'.lands p? z (h.lands p? z hz)
  firm w'' hw hf := by
    obtain ⟨w', hw', hf', hs', hr'⟩ := h'.firm w'' hw hf
    obtain ⟨w, hw, hf, hs, hr⟩ := h.firm w' hw' hf'
    exact ⟨w, hw, hf, hs.trans hs', hr'.trans hr⟩

theorem Tended.of_start {ps' : PeepState} (h : Tended S root ps a) (hs : ps'.start = ps.start)
    (hf : ps'.failure? = ps.failure?) : Tended S root ps' a :=
  ⟨h.wired, hs ▸ h.start, hs ▸ h.begun, hf ▸ h.failure⟩

theorem Tended.lt (h : Tended S root ps a) {r : RecId} (hr : r ∈ (a.tree root).recs) : r < a.recs.size :=
  h.wired.lt hr

theorem Tended.link (h : Tended S root ps a) {p? : Option RecId} {x z : RecId}
    (hx : Lands S a (a.tree root) p? x) (hz : a.Link x z) : Lands S a (a.tree root) (some x) z :=
  h.wired.links x hx.mem hx.live z hz

theorem Tended.relinked (h : Tended S root ps a) (hb : Rewired a b (a.tree root).recs)
    (hm : ∀ r, (b.node r).processed = (a.node r).processed)
    (hw : Wired S b (a.tree root)) : Tended S root ps b ∧ Calm S root a b := by
  have htree : b.tree root = a.tree root := by
    have he := hw.tree_eq
    rwa [root_tree] at he
  have hwithin : (b.tree root).recs ⊆ (a.tree root).recs := by
    rw [htree]
    exact fun _ h => h
  refine ⟨⟨htree ▸ hw, fun z hz => ?_, h.begun, h.failure⟩, ⟨hb.size, hb.tune_eq,
    ⟨hb.size, hb.pad_eq, hwithin, fun r _ => hb.recalls r⟩, fun r _ => hb.eases r, hm,
    by rw [htree]; exact fun _ h => h, hwithin, fun r _ hr => ?_, fun r _ hr => ?_,
    fun r _ hr => ?_, fun r _ hr => ?_, fun p? z hz => ?_, fun w hw hf => ⟨w, htree ▸ hw, hf, rfl, rfl⟩⟩⟩
  · rw [htree]
    exact hb.lands (h.start z hz)
  · rw [hb.node r]
    exact hr
  · rw [hb.opClass]
    exact hr
  · rw [hb.opClass]
    exact hr
  · rw [hb.passes]
    exact hr
  · rw [htree]
    exact hb.lands hz

theorem Tended.setNext (h : Tended S root ps a) {p z : RecId} (hp : p ∈ (a.tree root).recs)
    (hz : Lands S a (a.tree root) (some p) z) :
    Tended S root ps (a.update p fun n => { n with next := some z, real := true }) ∧
      Calm S root a (a.update p fun n => { n with next := some z, real := true }) := by
  refine h.relinked (Rewired.of_update hp fun _ => rfl) (fun r => ?_) (h.wired.setNext hp hz)
  rcases node_update_cases (a := a) (r := p) (f := fun n => { n with next := some z, real := true }) r with
    he | ⟨-, he⟩ <;> rw [he]

theorem Tended.setOther (h : Tended S root ps a) {p z : RecId} (hp : p ∈ (a.tree root).recs)
    (hc : (a.node p).opClass = .logop) (hz : Lands S a (a.tree root) (some p) z) :
    Tended S root ps (a.update p fun n => { n with other := some z }) ∧
      Calm S root a (a.update p fun n => { n with other := some z }) := by
  refine h.relinked (Rewired.of_update hp fun _ => rfl) (fun r => ?_) (h.wired.setOther hp hc hz)
  rcases node_update_cases (a := a) (r := p) (f := fun n => { n with other := some z }) r with he | ⟨-, he⟩ <;>
    rw [he]

theorem Tended.soften (h : Tended S root ps a) (hl : Local a b (a.tree root).recs)
    (hs : ∀ r ∈ (a.tree root).recs, (a.node r).Softens (b.node r)) :
    Tended S root ps b ∧ Calm S root a b := by
  have hw : Wired S b ((a.tree root).reread b) := h.wired.soften hl hs
  have htree : b.tree root = (a.tree root).reread b := by
    have he := hw.tree_eq
    rwa [reread, root_mapOps, root_tree] at he
  have hwithin : (b.tree root).recs ⊆ (a.tree root).recs := by
    rw [htree, reread, recs_mapOps]
    exact fun _ h => h
  refine ⟨⟨htree ▸ hw, fun z hz => ?_, h.begun, h.failure⟩, ⟨hl.size, hl.tune_eq,
    ⟨hl.size, hl.pad_eq, hwithin, fun r hr => (hs r (hwithin hr)).recalls⟩, fun r hr => (hs r (hwithin hr)).eases,
    fun r => ?_, ?_, hwithin,
    fun r hr hc => (hs r hr).nextstate hc, fun r hr hc => (hs r hr).logop.mpr hc, fun r hr hc => (hs r hr).auxop hc, fun r hr hp => (hs r hr).passes hp,
    fun p? z hz => ?_, fun w' hw' hf => ?_⟩⟩
  · rw [htree]
    exact (h.start z hz).soften hs h.wired.holds
  · by_cases hm : r ∈ (a.tree root).recs
    · exact (hs r hm).processed
    · rw [hl.outside r hm]
  · rw [htree, reread, recs_mapOps]
    exact fun _ h => h
  · rw [htree]
    exact hz.soften hs h.wired.holds
  · rw [htree, reread, subtrees_mapOps] at hw'
    obtain ⟨w, hwt, rfl⟩ := List.mem_map.mp hw'
    refine ⟨w, hwt, ?_, (start_mapOps _ w).symm, recs_mapOps _ w⟩
    rw [op_mapOps, Node.firm_plain] at hf
    rw [← (h.wired.holds w hwt).op, Node.firm_plain]
    exact (hs _ (List.mem_map.mpr ⟨w, hwt, rfl⟩)).firm hf

theorem Tended.update (h : Tended S root ps a) {r : RecId} {f : Node → Node} (hr : r ∈ (a.tree root).recs)
    (hf : (a.node r).Softens (f (a.node r))) :
    Tended S root ps (a.update r f) ∧ Calm S root a (a.update r f) := by
  refine h.soften (Local.of_update hr) fun q _ => ?_
  rcases node_update_cases (a := a) (r := r) (f := f) q with he | ⟨rfl, he⟩
  · rw [he]
    exact Node.Softens.refl _
  · rw [he]
    exact hf

/-- The op that control comes from: the one before, or the one whose branch is walked. -/
def source : Option RecId → PeepSlot → Option RecId
  | some p, _ => some p
  | none, .other r => some r
  | none, .start => none

/-- A branch waits at a branching op that has been visited. -/
def Waits (S : Course) (root : RecId) (a : Arena) : PeepSlot → Prop
  | .start => True
  | .other r => r ∈ (a.tree root).recs ∧ S r ∧ (a.node r).processed = true ∧ (a.node r).opClass = .logop

structure Leads (S : Course) (root : RecId) (a : Arena) (prev : Option RecId) (s : PeepSlot)
    (z : RecId) : Prop where
  known : ∀ p, prev = some p → p ∈ (a.tree root).recs ∧ (a.node p).processed = true
  lands : Lands S a (a.tree root) (source prev s) z

/-- The op `r` has been fused on the way from `a` to `b`, and its table has lost checks at most since then. -/
def Fused (root : RecId) (a b : Arena) (r : RecId) : Prop :=
  ∃ S c ps s m q, Tended S root ps c ∧ Lasts root a c ∧ s ∈ (c.tree root).recs ∧
    scanPath s ps c = .ok (.ok (some m), ps) c ∧ m.top = r ∧
    (b.node r).path = some q ∧ (pathOf c (c.node s) m.levels).Eased q

/-- The ops recall what they were, and those that are fused now but were not have been fused in between. -/
structure Reworked (root : RecId) (a b : Arena) : Prop extends Lasts root a b where
  tables : ∀ r ∈ (b.tree root).recs, (a.node r).Eases (b.node r) ∨ Fused root a b r

theorem Reworked.refl (a : Arena) : Reworked root a a := ⟨.refl a, fun _ _ => Or.inl (Node.eases_of_path rfl rfl)⟩

theorem Reworked.trans (h : Reworked root a b) (h' : Reworked root b c) : Reworked root a c where
  toLasts := h.toLasts.trans h'.toLasts
  tables r hr := by
    rcases h'.tables r hr with he' | ⟨S, d, ps, s, m, q, ht, hl, hs⟩
    · by_cases hc : (c.node r).code = .multideref
      · rcases h.tables r (h'.within hr) with he | ⟨S, d, ps, s, m, q, ht, hl, hs, hscan, hm, hp, hq⟩
        · exact Or.inl (he.trans he')
        · obtain ⟨-, hrel⟩ := he' hc
          rw [hp] at hrel
          generalize hp' : (c.node r).path = p' at hrel
          cases hrel with
          | some hqq => exact Or.inr ⟨S, d, ps, s, m, _, ht, hl, hs, hscan, hm, hp', hq.trans hqq⟩
      · exact Or.inl fun hc' => absurd hc' hc
    · exact Or.inr ⟨S, d, ps, s, m, q, ht, h.toLasts.trans hl, hs⟩

/-- What a walk may rely on later: visited ops stay in the tree. -/
structure Onward (root : RecId) (a b : Arena) : Prop where
  size : b.recs.size = a.recs.size
  tune : b.tune = a.tune
  reworked : Reworked root a b
  marks : ∀ r, (a.node r).processed = true → (b.node r).processed = true
  recs : ∀ r ∈ (a.tree root).recs, (a.node r).processed = true → r ∈ (b.tree root).recs
  within : (b.tree root).recs ⊆ (a.tree root).recs
  states : ∀ r ∈ (a.tree root).recs, (a.node r).processed = true → (a.node r).code = .nextstate →
    (b.node r).code = .nextstate
  logop : ∀ r ∈ (a.tree root).recs, (a.node r).processed = true → (a.node r).opClass = .logop →
    (b.node r).opClass = .logop

theorem Calm.onward (h : Calm S root a b) : Onward root a b :=
  ⟨h.size, h.tune, ⟨h.lasts, fun r hr => Or.inl (h.eases r hr)⟩, fun r hr => (h.marks r).trans hr, fun _ hr _ => h.recs hr, h.within,
    fun r hr _ => h.states r hr, fun r hr _ => h.logop r hr⟩

theorem Onward.trans (h : Onward root a b) (h' : Onward root b c) : Onward root a c where
  size := h'.size.trans h.size
  tune := h'.tune.trans h.tune
  reworked := h.reworked.trans h'.reworked
  marks r hr := h'.marks r (h.marks r hr)
  recs r hr hm := h'.recs r (h.recs r hr hm) (h.marks r hm)
  within _ hr := h.within (h'.within hr)
  states r hr hm hc := h'.states r (h.recs r hr hm) (h.marks r hm) (h.states r hr hm hc)
  logop r hr hm hc := h'.logop r (h.recs r hr hm) (h.marks r hm) (h.logop r hr hm hc)

theorem Onward.waits {s : PeepSlot} (h : Onward root a b) (hs : Waits S root a s) : Waits S root b s := by
  cases s with
  | start => trivial
  | other r =>
    obtain ⟨hr, hS, hm, hc⟩ := hs
    exact ⟨h.recs r hr hm, hS, h.marks r hm, h.logop r hr hm hc⟩

theorem Onward.later (h : Onward root a b) : Later (Waits S root) a b :=
  ⟨fun _ hs => h.waits hs, h.size, h.marks⟩

theorem Calm.known {prev : Option RecId} (h : Calm S root a b)
    (hp : ∀ p, prev = some p → p ∈ (a.tree root).recs ∧ (a.node p).processed = true) :
    ∀ p, prev = some p → p ∈ (b.tree root).recs ∧ (b.node p).processed = true :=
  fun p hq => ⟨h.recs (hp p hq).1, (h.marks p).trans (hp p hq).2⟩

theorem Calm.leads {prev : Option RecId} {s : PeepSlot} {z : RecId} (h : Calm S root a b)
    (hz : Leads S root a prev s z) : Leads S root b prev s z :=
  ⟨h.known hz.known, h.lands _ z hz.lands⟩

def Settled (S : Course) (root : RecId) (a : Arena) (ps' : PeepState) (b : Arena) : Prop :=
  Tended S root ps' b ∧ Calm S root a b

variable {α β : Type} {E : Failure → Prop} {prev : Option RecId} {s : PeepSlot}

theorem Settled.refl (h : Tended S root ps a) : Settled S root a ps a := ⟨h, Calm.refl a⟩

theorem Settled.trans {qs : PeepState} (h : Settled S root a ps b) (h' : Settled S root b qs c) :
    Settled S root a qs c := ⟨h'.1, h.2.trans h'.2⟩

theorem Gives.andThen {x : Peep Unit} {f : Unit → Peep β} {Q : β → PeepState → Arena → Prop}
    (hx : Gives E x ps a fun _ => Settled S root a)
    (hf : ∀ ps' b, Settled S root a ps' b → Gives E (f ()) ps' b Q) : Gives E (x >>= f) ps a Q :=
  hx.bind fun _ ps' b h => hf ps' b h

theorem gives_update {r : RecId} {f : Node → Node} (h : Tended S root ps a) (hr : r ∈ (a.tree root).recs)
    (hf : (a.node r).Softens (f (a.node r))) :
    Gives E (liftM (TreeM.update r f) : Peep Unit) ps a fun _ => Settled S root a :=
  gives_lift (TreeM.update_apply r f a) (h.update hr hf)

theorem gives_setNext {p z : RecId} (h : Tended S root ps a) (hp : p ∈ (a.tree root).recs)
    (hz : Lands S a (a.tree root) (some p) z) :
    Gives E (liftM (TreeM.setNext p (some z)) : Peep Unit) ps a fun _ => Settled S root a :=
  gives_lift (TreeM.update_apply p _ a) (h.setNext hp hz)

theorem gives_noteChange (kind : String) (h : Tended S root ps a) :
    Gives E (noteChange kind) ps a fun _ => Settled S root a :=
  gives_modify ⟨h.of_start rfl rfl, Calm.refl a⟩

theorem gives_relink {z : RecId} (h : Tended S root ps a) (hs : Waits S root a s)
    (hp : ∀ p, prev = some p → p ∈ (a.tree root).recs) (hz : Lands S a (a.tree root) (source prev s) z) :
    Gives E (relink prev s (some z)) ps a fun _ => Settled S root a := by
  cases prev with
  | some p => exact gives_setNext h (hp p rfl) hz
  | none =>
    cases s with
    | start =>
      refine gives_modify ⟨⟨h.wired, ?_, nofun, h.failure⟩, Calm.refl a⟩
      rintro y ⟨⟩
      exact hz
    | other r => exact gives_lift (TreeM.update_apply r _ a) (h.setOther hs.1 hs.2.2.2 hz)

theorem Tended.head (h : Tended S root ps a) (hs : Waits S root a s) {z : RecId}
    (hz : headOf ps a s = some z) : Lands S a (a.tree root) (source none s) z := by
  cases s with
  | start => exact h.start z hz
  | other r => exact h.wired.links r hs.1 hs.2.1 z (Or.inr hz)

theorem Tended.past (h : Tended S root ps a) {p? : Option RecId} {x z : RecId} (hx : Lands S a (a.tree root) p? x)
    (hp : (a.node x).passes = true) (hz : Lands S a (a.tree root) (some x) z) : Lands S a (a.tree root) p? z :=
  hx.trans hp (h.wired.flat_of_passes hx.mem hp) hz

theorem Tended.onto (h : Tended S root ps a) {p? : Option RecId} {x : RecId} (hx : Lands S a (a.tree root) p? x)
    (hp : (a.node x).passes = true) : ∃ z, (a.node x).next = some z ∧ Lands S a (a.tree root) p? z := by
  obtain ⟨z, hz⟩ := Option.ne_none_iff_exists'.mp (h.wired.next_of_passes hx.mem hx.live hp)
  exact ⟨z, hz, h.past hx hp (h.link hx (Or.inl hz))⟩

theorem Tended.firstSolid (h : Tended S root ps a) {p? : Option RecId} {y : RecId} (fuel : Nat)
    (hy : Lands S a (a.tree root) p? y) :
    ∃ z, Peep.firstSolid a fuel (some y) = some z ∧ Lands S a (a.tree root) p? z := by
  induction fuel generalizing y with
  | zero => exact ⟨y, rfl, hy⟩
  | succ fuel ih =>
    unfold Peep.firstSolid
    split
    · rename_i ht
      obtain ⟨z, hz, hl⟩ := h.onto hy (Node.passes_of_transparent ht)
      rw [hz]
      exact ih hl
    · exact ⟨y, rfl, hy⟩

theorem gives_skipNulls (h : Tended S root ps a) (hs : Waits S root a s) :
    Gives E (skipNulls s) ps a fun _ => Settled S root a := by
  unfold skipNulls
  refine gives_lift_bind (TreeM.get_apply a) (gives_readSlot_bind ?_)
  cases hhead : headOf ps a s with
  | none =>
    have hsolid : Peep.firstSolid a a.bound none = none := rfl
    rw [hsolid]
    exact gives_ite (fun hne => absurd rfl hne) fun _ => gives_pure (Settled.refl h)
  | some y =>
    obtain ⟨z, hz, hl⟩ := h.firstSolid a.bound (h.head hs hhead)
    rw [hz]
    refine gives_ite (fun _ => ?_) fun _ => gives_pure (Settled.refl h)
    exact @gives_relink _ _ _ _ _ none _ _ h hs nofun hl

theorem gives_forM {l : List α} {f : α → Peep Unit} (h : Tended S root ps a)
    (hf : ∀ x ∈ l, ∀ {ps' b}, Settled S root a ps' b → Gives E (f x) ps' b fun _ => Settled S root b) :
    Gives E (l.forM f) ps a fun _ => Settled S root a := by
  induction l generalizing ps a with
  | nil => exact gives_pure (Settled.refl h)
  | cons x l ih =>
    refine Gives.andThen (hf x (List.mem_cons_self ..) (Settled.refl h)) fun ps₁ b hb => ?_
    refine (ih hb.1 fun y hy ps₂ c hc => ?_).mono fun _ _ _ hk => hb.trans hk
    exact hf y (List.mem_cons_of_mem x hy) (hb.trans hc)

theorem gives_threadFrom {o : RecId} {t : Opcode} (ht : ∀ n : Node, n.code = t → n.passes = true) (fuel : Nat)
    (h : Tended S root ps a) (ho : o ∈ (a.tree root).recs) (hS : S o) :
    Gives E (threadFrom o t fuel) ps a fun _ => Settled S root a := by
  induction fuel generalizing ps a with
  | zero => exact gives_pure (Settled.refl h)
  | succ fuel ih =>
    unfold threadFrom
    refine gives_lift_bind (TreeM.node_apply o a) ?_
    split
    · exact gives_pure (Settled.refl h)
    · rename_i r hr
      refine gives_lift_bind (TreeM.node_apply r a) ?_
      refine gives_ite (fun hc => ?_) fun _ => gives_pure (Settled.refl h)
      rw [Bool.and_eq_true, Bool.or_eq_true, decide_eq_true_iff, decide_eq_true_iff] at hc
      have hpass : (a.node r).passes = true := hc.2.elim (ht _) Node.passes_of_transparent
      have hland : Lands S a (a.tree root) (some o) r := h.wired.links o ho hS r (Or.inl hr)
      obtain ⟨z, hz, hl⟩ := h.onto hland hpass
      rw [hz]
      refine Gives.andThen (gives_setNext h ho hl) fun ps₁ b hb => ?_
      have hrest : ∀ {ps₂ : PeepState}, Tended S root ps₂ b →
          Gives E (threadFrom o t fuel) ps₂ b fun _ => Settled S root a := fun h₂ =>
        (ih h₂ (hb.2.recs ho)).mono fun _ _ _ hk => hb.trans hk
      split
      · exact Gives.andThen (gives_noteChange _ hb.1) fun ps₂ c hc => (ih hc.1 (hc.2.recs (hb.2.recs ho))).mono
          fun _ _ _ hk => (hb.trans hc).trans hk
      · exact hrest hb.1

theorem Tended.neutralize {r : RecId} (h : Tended S root ps a) (hr : r ∈ (a.tree root).recs)
    (hc : (a.node r).code ∉ Node.fixed) :
    Settled S root a ps (a.update r Node.neutralized) ∧
      ((a.update r Node.neutralized).node r).passes = true := by
  refine ⟨h.update hr (Node.softens_neutralized hc), ?_⟩
  rw [node_update_self (h.lt hr)]
  exact Node.passes_neutralized _

section Places

variable (h : Tended S root ps a)

include h

theorem Tended.subtree {r : RecId} (hr : r ∈ (a.tree root).recs) :
    ∃ u ∈ (a.tree root).subtrees, u.root = r ∧ a.Holds u ∧ u.recs.Nodup := by
  obtain ⟨u, hu, hroot, -⟩ := h.wired.subtree hr
  exact ⟨u, hu, hroot, h.wired.holds.subtree hu, nodup_subtree h.wired.nodup hu⟩

theorem Tended.kid_mem {r k : RecId} (hr : r ∈ (a.tree root).recs) (hk : k ∈ a.kids r) :
    k ∈ (a.tree root).recs := by
  obtain ⟨u, hu, rfl, hh, hn⟩ := h.subtree hr
  rw [hh.kids_eq hn] at hk
  obtain ⟨v, hv, rfl⟩ := List.mem_map.mp hk
  exact recs_subset (subtrees_trans hu (kid_mem_subtrees hv)) v.root_mem_recs

theorem Tended.kid?_mem {r k : RecId} {i : Int} (hr : r ∈ (a.tree root).recs) (hk : a.kid? r i = some k) :
    k ∈ (a.tree root).recs := h.kid_mem hr (List.mem_of_getElem? hk)

theorem Tended.first_mem {r k : RecId} (hr : r ∈ (a.tree root).recs) (hk : (a.node r).first = some k) :
    k ∈ (a.tree root).recs := by
  refine h.kid_mem hr ?_
  rw [Arena.kids, hk, bound, siblingsFrom]
  exact List.mem_cons_self ..

theorem Tended.parent_mem {r p : RecId} (hr : r ∈ (a.tree root).recs) (hp : a.parent? r = some p) :
    p ∈ (a.tree root).recs := by
  obtain ⟨u, hu, rfl, -⟩ := h.wired.forest.parent_mem hr hp
  exact recs_subset hu u.root_mem_recs

theorem Tended.last_eq {r : RecId} (hr : r ∈ (a.tree root).recs) (ht : (a.node r).opClass.tracksLast = true) :
    (a.node r).last = (a.kids r).getLast? := by
  obtain ⟨u, hu, rfl, hh, hn⟩ := h.subtree hr
  rw [hh.kids_eq hn, List.getLast?_map]
  exact hh.fits.last (by rw [← hh.fits.op, Node.opClass_plain]; exact ht)

end Places

end Peep

end OpTree
