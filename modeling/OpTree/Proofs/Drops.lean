import OpTree.Proofs.Flips

/-!
# Returns that fall through

A return at the end of a sub becomes a null op, and its mark with it, so that control falls through into the end
of the sub. What has been traced of a unit stays traced.
-/

namespace OpTree

set_option autoImplicit false

namespace Peep

open Arena Opcode

variable {S : Course} {root start : RecId} {a b c : Arena} {ps ps' : PeepState} {k : Option Opcode} {E : Failure → Prop}
  {prev : Option RecId} {s : PeepSlot} {r l : RecId} {t : Opcode}

/-- The return `ret` at the end of a sub and the mark `pm` of its items become null ops, and the last item leads where
the return led. -/
structure Drops (a b c : Arena) (pm ret : RecId) : Prop extends Recoded b c where
  tail : tailReturnOf? a pm = some ret
  start : (a.node pm).code = .pushmark
  mark : (b.node pm).code = .pushmark
  returns : (b.node ret).code = .ret
  plain : ∀ q, q ≠ pm → q ≠ ret → (c.node q).plain = (b.node q).plain
  mark' : (c.node pm).code = .null
  returns' : (c.node ret).code = .null
  next : ∀ q, (c.node q).next = (b.node q).next ∨
    (a.kids ret).getLast? = some q ∧ q ≠ pm ∧ (c.node q).next = (b.node ret).next

section Drop

variable {pm ret : RecId} (hT : Terrain S a root start) (h : Traced S a root start ps b) (hc : Drops a b c pm ret)

include hc

theorem Drops.falls : Falls a c pm ret := ⟨hc.tail, hc.start, hc.mark', hc.returns'⟩

theorem Drops.code_ret : (a.node ret).code = .ret := (tailReturnOf_some hc.tail).1

theorem Drops.code {q : RecId} (hq : (b.node q).code ≠ .pushmark) (hq' : (b.node q).code ≠ .ret) :
    (c.node q).code = (b.node q).code := by
  rw [← Node.plain_code, hc.plain, Node.plain_code]
  · rintro rfl
    exact hq hc.mark
  · rintro rfl
    exact hq' hc.returns

theorem Drops.null {q : RecId} (hq : (b.node q).code = .null) : (c.node q).code = .null := by
  rw [hc.code, hq] <;> simp [hq]

theorem Drops.code_short {q : RecId} (hq : (b.node q).code ∈ short) : (c.node q).code = (b.node q).code := by
  refine hc.code (fun he => ?_) fun he => ?_
  · rw [he] at hq
    exact absurd hq (by decide)
  · rw [he] at hq
    exact absurd hq (by decide)

include h

theorem Drops.absorbs_iff {q m : RecId} : Absorbs a c q m ↔ Absorbs a b q m := by
  constructor
  · intro hq
    have hm : (b.node m).code = (c.node m).code := by
      rcases (h.fate m).code_cases with he | ⟨-, he⟩ | he
      · exact (hc.code_short (he ▸ hq.opposite.short)).symm
      · exact (hc.code_short he).symm
      · exact he.trans (hc.null he).symm
    have hqr : (b.node q).code = (c.node q).code := by
      refine (hc.code (fun he => ?_) fun he => ?_).symm
      · have hcode := h.code_eq (r := q) (by simp [he]) (by rw [he]; decide)
        rw [hq.code, he] at hcode
        cases hcode
      · have hcode := h.code_eq (r := q) (by simp [he]) (by rw [he]; decide)
        rw [hq.code, he] at hcode
        cases hcode
    exact hq.congr hqr hm
  · intro hq
    exact hq.congr ((hc.null hq.null).trans hq.null.symm) (hc.code_short hq.opposite.symm.short)

theorem Drops.slide {y z : RecId} (hs : Slide a b k y z) : Slide a c k y z := by
  refine hs.congr (V := fun _ => True) trivial (fun _ _ _ _ _ => trivial) (fun _ _ _ _ _ _ _ => trivial)
    (fun x m _ hg => ?_) (fun x _ hx => ?_) fun _ m _ _ hm => hc.code_short hm
  · cases hg with
    | self hno => exact .self fun q hq => hno q ((hc.absorbs_iff h).mp hq)
    | taken hq => exact .taken ((hc.absorbs_iff h).mpr hq)
  · refine hx.imp_right ?_
    rintro ⟨p, r, hf, hpr⟩
    exact ⟨p, r, ⟨hf.tail, hf.code, hc.null hf.mark, hc.null hf.null⟩, hpr⟩

theorem Drops.fate (q : RecId) : Fate a c q := by
  by_cases hq : q = pm
  · exact .fallen pm ret hc.falls (Or.inl hq)
  by_cases hq' : q = ret
  · exact .fallen pm ret hc.falls (Or.inr hq')
  have hplain := hc.plain q hq hq'
  cases h.fate q with
  | plain hp => exact .plain (hplain.trans hp)
  | turned p hp hpl =>
    refine .turned p ((hc.absorbs_iff h).mpr hp) ?_
    rw [hplain, hpl, hc.code_short hp.opposite.symm.short]
  | absorbed m hm => exact .absorbed m ((hc.absorbs_iff h).mpr hm)
  | fallen p r hf hpr => exact .fallen p r ⟨hf.tail, hf.code, hc.null hf.mark, hc.null hf.null⟩ hpr

include hT

theorem Drops.after (hroad : Road S a root ret) :
    ∃ y z, (a.node ret).next = some y ∧ (b.node ret).next = some z ∧ Slide a b none y z := by
  have hrc := hc.code_ret
  have hrel := h.next ret hroad fun l hl => by
    have hcode := hl.code
    rw [hrc] at hcode
    cases hcode
  obtain ⟨z, hz, -⟩ := h.onto hT hroad (by simp [hrc])
  rw [hz] at hrel
  generalize hy : (a.node ret).next = y at hrel
  cases hrel with
  | some hslide =>
    rw [node_known_none (by rw [hc.returns]; decide)] at hslide
    exact ⟨_, z, rfl, hz, hslide⟩

theorem Traced.drop (hmark : Road S a root pm) (hroad : Road S a root ret) : Traced S a root start ps c := by
  obtain ⟨y₁, z₁, hy₁, hz₁, hslide₁⟩ := hc.after hT h hroad
  refine ⟨hc.size.trans h.size, fun q => (hc.first q).trans (h.first q), fun q => (hc.sib q).trans (h.sib q),
    fun q => (hc.want q).trans (h.want q), hc.fate h, fun p hp hpa => ?_, fun q m hq => ?_, fun p hp => ?_, ?_, h.failure,
    fun m hm hs q hf hq hpr => ?_⟩
  · rcases hc.next p with hn | ⟨hlast, hpm, hn⟩
    · have hrel := h.next p hp fun m hm => hpa m ((hc.absorbs_iff h).mpr hm)
      have hknown : (b.node p).known = (c.node p).known ∨ (b.node p).known = none := by
        by_cases hs : (b.node p).code ∈ short
        · exact Or.inl (by rw [Node.known, Node.known, hc.processed, hc.code_short hs])
        · exact Or.inr (node_known_none hs)
      rw [hn]
      refine rel_mono hrel fun y z hyz => ?_
      rcases hknown with hk | hk
      · exact hk ▸ hc.slide h hyz
      · rw [hk] at hyz
        exact (hc.slide h hyz).weaken
    · obtain ⟨-, hnext, -⟩ := hT.last pm hmark.1 ret p hc.tail hlast hpm
      rw [hnext, hn, hz₁]
      exact .some (.pass (Or.inr ⟨pm, ret, hc.falls, Or.inr rfl⟩) hy₁ (hc.slide h hslide₁).weaken)
  · have hb := (hc.absorbs_iff h).mp hq
    obtain ⟨hn, hm⟩ := h.absorbed q m hb
    refine ⟨?_, (hc.processed q).trans hm⟩
    rcases hc.next q with he | ⟨hlast, hpm, -⟩
    · exact he.trans hn
    · obtain ⟨-, hnext, -⟩ := hT.last pm hmark.1 ret q hc.tail hlast hpm
      have hret := hb.next
      rw [hnext] at hret
      cases hret
      have hs := hb.opposite.short
      rw [hc.code_ret] at hs
      exact absurd hs (by decide)
  · rw [hc.other]
    exact rel_mono (h.other p hp) fun y z hyz => hc.slide h hyz
  · exact h.head.imp fun z hz => ⟨hz.1, hc.slide h hz.2⟩
  · rw [hc.processed] at hpr ⊢
    exact h.before m hm hs q hf hq hpr

theorem Drops.not_last {p : RecId} (hmark : Road S a root pm) (hp : Road S a root p) (hpa : ∀ l, ¬ Absorbs a b p l) (hn : (b.node p).next = some pm)
    (hlast : (a.kids ret).getLast? = some p) (hpm : p ≠ pm) : False := by
  obtain ⟨-, hnext, -⟩ := hT.last pm hmark.1 ret p hc.tail hlast hpm
  have hrc := hc.code_ret
  have hrel := h.next p hp hpa
  rw [hnext, hn] at hrel
  have hgate : ∀ l, Gate a b ret l → l = ret := fun l hg => by
    cases hg with
    | self => rfl
    | taken hl =>
      have hcode := hl.code
      rw [hrc] at hcode
      cases hcode
  have hshort : (b.node ret).code ∉ short := by
    rw [hc.returns]
    decide
  cases hrel with
  | some hslide =>
    cases hslide with
    | stop hg =>
      have hpr := hgate _ hg
      have hm := hc.mark
      rw [hpr, hc.returns] at hm
      cases hm
    | pass hidle =>
      rcases hidle with ht | ⟨p', r', hf, rfl | rfl⟩
      · rw [Node.transparent, hrc] at ht
        cases ht
      · have hm := hf.mark
        rw [hc.returns] at hm
        cases hm
      · have hm := hf.null
        rw [hc.returns] at hm
        cases hm
    | keep hg _ hs =>
      obtain rfl := hgate _ hg
      exact hshort hs
    | drop hg _ ho =>
      obtain rfl := hgate _ hg
      exact hshort ho.symm.short

theorem Onto.drop (hmark : Road S a root pm) (ho : Onto S a root start b prev s pm) : Onto S a root start c prev s pm := by
  match prev, s with
  | some p, _ =>
    obtain ⟨hp, hpa, hn⟩ := ho
    refine ⟨hp, fun m hm => hpa m ((hc.absorbs_iff h).mp hm), ?_⟩
    rcases hc.next p with he | ⟨hlast, hpm, -⟩
    · exact he.trans hn
    · exact (hc.not_last hT h hmark hp hpa hn hlast hpm).elim
  | none, .other q => exact ⟨ho.1, (hc.other q).trans ho.2⟩
  | none, .start => exact hc.slide h ho

/-- Control that comes to the mark may as well come to what the mark and the return led to. -/
theorem Drops.past {y z : RecId} (hpm : Road S a root pm) (hroad : Road S a root ret)
    (hz : some z = if (b.node pm).next = some ret then (b.node ret).next else (b.node pm).next)
    (hs : Slide a c k y pm) : Slide a c k y z := by
  have hc' := h.drop hT hc hpm hroad
  have htrans : ∀ {q}, (c.node q).code = .null → (c.node q).transparent = true := fun hq => by rw [Node.transparent, hq]
  have hnext : (c.node pm).next = (b.node pm).next := (hc.next pm).resolve_right fun hne => hne.2.1 rfl
  have hret : (c.node ret).next = (b.node ret).next := by
    rcases hc.next ret with he | ⟨-, -, he⟩ <;> exact he
  split at hz
  · rename_i hn
    rw [← hret] at hz
    exact hc'.past hroad (htrans hc.returns') hz.symm (hc'.past hpm (htrans hc.mark') (hnext.trans hn) hs)
  · rw [← hnext] at hz
    exact hc'.past hpm (htrans hc.mark') hz.symm hs

end Drop

theorem Traced.parent?_eq (h : Traced S a root start ps b) (q : RecId) : b.parent? q = a.parent? q := by
  have hbound : b.bound = a.bound := congrArg (· + 1) h.size
  have hlast : b.lastSibling q = a.lastSibling q := by
    rw [lastSibling, lastSibling, hbound, siblingsFrom_congr fun r _ => congrArg Sib.sibling? (h.sib r)]
  rw [Arena.parent?, Arena.parent?, hlast, h.sib]

theorem Traced.kids_eq (h : Traced S a root start ps b) (q : RecId) : b.kids q = a.kids q :=
  kids_congr h.size (h.first q) fun k _ => h.sib k

theorem Traced.tailReturnOf {pm ret : RecId} (h : Traced S a root start ps b) (hr : tailReturnOf? b pm = some ret) :
    tailReturnOf? a pm = some ret := by
  obtain ⟨r, hparent, hr⟩ := some_bind.mp hr
  obtain ⟨hg, hr⟩ := guard_bind.mp hr
  obtain ⟨seq, hseq, hr⟩ := some_bind.mp hr
  obtain ⟨hseqc, hr⟩ := guard_bind.mp hr
  obtain ⟨leave, hleave, hr⟩ := some_bind.mp hr
  obtain ⟨hleavec, hr⟩ := guard_bind.mp hr
  cases hr
  simp only [Bool.and_eq_true, decide_eq_true_iff] at hg hseqc hleavec
  rw [h.parent?_eq] at hparent hseq hleave
  rw [h.first, h.sib, h.code_eq (by simp [hg.1.1]) (by rw [hg.1.1]; decide)] at hg
  rw [h.code_eq (by simp [hseqc]) (by rw [hseqc]; decide)] at hseqc
  rw [h.code_eq (by simp [hleavec]) (by rw [hleavec]; decide)] at hleavec
  refine some_bind.mpr ⟨_, hparent, guard_bind.mpr ⟨by simpa using hg, ?_⟩⟩
  exact some_bind.mpr ⟨seq, hseq, guard_bind.mpr ⟨by simpa using hseqc, some_bind.mpr ⟨leave, hleave,
    guard_bind.mpr ⟨by simpa using hleavec, rfl⟩⟩⟩⟩

theorem Tended.last?_eq {q : RecId} (h : Tended S root ps b) (hq : q ∈ (b.tree root).recs) :
    b.last? q = (b.kids q).getLast? := by
  obtain ⟨w, hw, rfl, hh, hn⟩ := h.subtree hq
  rw [hh.last?_eq hn, hh.kids_eq hn, List.getLast?_map]

end Peep

end OpTree
