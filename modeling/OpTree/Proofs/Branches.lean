import OpTree.Proofs.Constructors

/-!
# Constructors that link

Short-circuit ops and conditionals link their kids by hand before the linearizer sees them. What they
leave behind is one of the states it can start from.
-/

namespace OpTree

set_option autoImplicit false

namespace Arena

open OpTree.Tree

variable {a b c : Arena}

theorem Flow.frame {t : Tree} {q : Option RecId} {s : List RecId} (h : a.Flow t q)
    (hb : Relinked a b s) (hd : ∀ r ∈ t.recs, r ∉ s) : b.Flow t q :=
  h.congr fun r hr => hb.sameLinks (hd r hr)

theorem Flow.op_inv {r : RecId} {o : Node} {ks : List Tree} {q : Option RecId}
    (h : a.Flow (.mk r o ks) q) (hb : o.code.branches = false) (hl : isLoop o ks = false) :
    (∀ p ∈ follow ks r, a.Flow p.1 (some p.2)) ∧ (a.node r).next = q := by
  cases h with
  | op _ _ hks hq => exact ⟨hks, hq⟩
  | logop hb' | cond hb' => simp [hb] at hb'
  | loop hl' => simp [hl] at hl'

theorem Flow.logop_inv {l : RecId} {o : Node} {x y : Tree} {q : Option RecId}
    (h : a.Flow (.mk l o [x, y]) q) (hb : o.code.branches = true) :
    a.Flow x (some l) ∧ (a.node l).other = some y.start ∧ a.Flow y q ∧ (a.node l).next = q := by
  cases h with
  | op hb' => simp [hb] at hb'
  | logop _ hx ho hy hq => exact ⟨hx, ho, hy, hq⟩
  | loop hl => simp [isLoop_not_branches hl] at hb

theorem Ready.frame {t : Tree} {s : List RecId} (h : a.Ready t) (hb : Relinked a b s)
    (hd : ∀ r ∈ t.recs, r ∉ s) : b.Ready t := h.congr fun r hr => hb.sameLinks (hd r hr)

theorem Relinked.holds {t : Tree} {s : List RecId} (h : Relinked a b s) (hh : a.Holds t) : b.Holds t := by
  refine hh.of_samePlace (Nat.le_of_eq h.size.symm) fun r _ => ?_
  rw [SamePlace, h.node r]
  exact ⟨rfl, rfl, rfl, rfl⟩

theorem Relinked.mono {s t : List RecId} (h : Relinked a b s) (hs : s ⊆ t) : Relinked a b t :=
  ⟨h.toLocal.trans (Local.refl b t) hs (List.Subset.refl t), h.node⟩

theorem Relinked.of_next {r : RecId} {next : Option RecId} {real : Bool} :
    Relinked a (a.update r fun n => { n with next := next, real := real }) [r] :=
  (Rethreaded.of_update (List.mem_singleton.mpr rfl)).relinked

theorem Relinked.of_other_self {r : RecId} {o : Option RecId} :
    Relinked a (a.update r fun n => { n with other := o }) [r] :=
  Relinked.of_other (List.mem_singleton.mpr rfl)

theorem Linked.lead {t : Tree} (h : a.Linked t) (hh : a.Holds t) (hn : t.recs.Nodup)
    (hb : t.op.code.branches = false) (q : Option RecId) (real : Bool) :
    (a.update t.root fun n => { n with next := q, real := real }).Flow t q := by
  refine Flow.redirect h hb (fun r hr => Relinked.of_next.sameLinks fun hm => ?_)
    (next_update hh.fits.lt q real)
  exact root_notMem_kids hn (List.mem_singleton.mp hm ▸ hr)

end Arena

namespace Build

open Arena OpTree.Tree TreeM

variable {a b : Arena} {ts : List Tree}

theorem site_of_relinked {t : Tree} (h : a.Forest (t :: ts)) (hts : ∀ u ∈ ts, a.Ready u)
    (hab : Relinked a b t.recs) (hr : b.Ready t) : b.Site (t :: ts) := by
  refine ⟨h.relink hab fun r hr => List.mem_flatMap.mpr ⟨t, List.mem_cons_self .., hr⟩, fun u hu => ?_⟩
  rcases List.mem_cons.mp hu with rfl | hu
  · exact hr
  · exact (hts u hu).frame hab fun r hr => h.toStand.notMem_of_cons hu hr

theorem nullOver_ok {α : Type} {t : Tree} {f : RecId → TreeM α} {v : α} (h : a.Forest (t :: ts))
    (hok : (do
      let n ← new .null 0
      append n (some t.root)
      f n) a = .ok v b) :
    ∃ n c, f n c = .ok v b ∧ c.Forest ((Tree.mk n { code := .null, id := a.seq + 1 } []).snoc t :: ts) ∧
      (c.node n).next = none ∧ (∀ u ∈ t :: ts, ∀ r ∈ u.recs, SameLinks a c r) := by
  obtain ⟨n, d, hnew, hok⟩ := bind_eq_ok.mp hok
  obtain ⟨hd, hnone, -, hkeep, -⟩ := new_ok h (by simp) hnew
  obtain ⟨c, happ, hc, hgrown⟩ := hd.append
  rw [root_mk] at happ
  rw [bind_of_ok happ] at hok
  refine ⟨n, c, hok, hc, (hgrown.next n).trans hnone, fun u hu r hr => ?_⟩
  have hnode := hkeep u hu r hr
  exact ⟨by rw [hgrown.next, hnode], by rw [hgrown.other, hnode]⟩

def logTree (t : Opcode) (l : RecId) (id : Nat) (x y : Tree) : Tree :=
  ((Tree.mk l { code := t, id := id } []).snoc x).snoc y

theorem checkLogop_bind {α : Type} {t : Opcode} {x : TreeM α} {v : α}
    (h : (do checkLogop t; x) a = .ok v b) : (t = .and ∨ t = .or ∨ t = .dor) ∧ x a = .ok v b := by
  cases t with
  | and | or | dor => exact ⟨by simp, h⟩
  | _ => exact absurd h throw_ne_ok

/-- A short-circuit op with linked operands, before it is put under a null op. -/
structure Half (a : Arena) (l : RecId) (o : Node) (x y : Tree) (ts : List Tree) : Prop where
  forest : a.Forest (.mk l o [x, y] :: ts)
  next : (a.node l).next = some x.start
  other : (a.node l).other = some y.start
  first : a.Flow x (some l)
  second : a.Linked y
  ready : ∀ u ∈ ts, a.Ready u

theorem half_ok {α : Type} {l : RecId} {o : Node} {x y : Tree} {f : TreeM α} {v : α}
    (h : a.Open (.mk l o [x, y]) ts)
    (hok : (do
      let o ← linearize y.root
      update l fun n => { n with other := o }
      let s ← linearize x.root
      float l s
      setNext x.root (some l)
      f) a = .ok v b) :
    ∃ c, f c = .ok v b ∧ Half c l o x y ts := by
  have hn := h.nodup
  have hh := h.forest.holds _ (List.mem_cons_self ..)
  simp only [recs_mk, List.flatMap_cons, List.flatMap_nil, List.append_nil, List.nodup_cons,
    List.mem_append, not_or, List.nodup_append] at hn
  obtain ⟨⟨hlx, hly⟩, hxn, hyn, hxy⟩ := hn
  have hxh : a.Holds x := hh.kid (by simp)
  have hyh : a.Holds y := hh.kid (by simp)
  have hx := h.kids x (by simp)
  have hy := h.kids y (by simp)
  obtain ⟨c₁, hlin, hr₁, hy₁⟩ := linearize_ok hy hyh hyn
  rw [bind_of_ok hlin, bind_of_ok (update_apply _ _ _)] at hok
  have h₁ := hr₁.relinked
  have h₂ : Relinked c₁ (c₁.update l fun n => { n with other := some y.start }) [l] :=
    Relinked.of_other_self
  have hother : ((c₁.update l fun n => { n with other := some y.start }).node l).other =
      some y.start := by rw [node_update_self (h₁.size ▸ hh.fits.lt)]
  generalize c₁.update l (fun n => { n with other := some y.start }) = c₂ at *
  have hx₂ : c₂.Ready x := (hx.frame h₁ fun r hr hm => hxy r hr r hm rfl).frame h₂ fun r hr hm =>
    hlx (List.mem_singleton.mp hm ▸ hr)
  obtain ⟨c₃, hlin, hr₃, hx₃⟩ := linearize_ok hx₂ (h₂.holds (h₁.holds hxh)) hxn
  have h₃ := hr₃.relinked
  rw [bind_of_ok hlin, bind_of_ok (float_apply _ _ _), bind_of_ok (setNext_apply _ _ _)] at hok
  have hlt₃ : l < c₃.recs.size := by
    rw [h₃.size, h₂.size, h₁.size]
    exact hh.fits.lt
  have hr₄ : Rethreaded c₃ (c₃.update l fun n => { n with next := some x.start, real := false }) [l] :=
    Rethreaded.of_update (List.mem_singleton.mpr rfl)
  have h₄ := hr₄.relinked
  have hnext := next_update hlt₃ (some x.start) false
  generalize c₃.update l (fun n => { n with next := some x.start, real := false }) = c₄ at *
  have hx₄ : c₄.Linked x := Flow.frame hx₃ h₄ fun r hr hm => hlx (List.mem_singleton.mp hm ▸ hr)
  have hx₅ := hx₄.lead (h₄.holds (h₃.holds (h₂.holds (h₁.holds hxh)))) hxn hx.not_branches (some l) true
  have h₅ : Relinked c₄ (c₄.update x.root fun n => { n with next := some l, real := true }) [x.root] :=
    Relinked.of_next
  generalize c₄.update x.root (fun n => { n with next := some l, real := true }) = c₅ at *
  -- what is done to one operand is not seen by the other one, and `l` is in neither
  have hy₅ : c₅.Linked y := by
    refine ((((Flow.frame hy₁ h₂ ?_).frame h₃ ?_).frame h₄ ?_).frame h₅ ?_)
    · exact fun r hr hm => hly (List.mem_singleton.mp hm ▸ hr)
    · exact fun r hr hm => hxy r hm r hr rfl
    · exact fun r hr hm => hly (List.mem_singleton.mp hm ▸ hr)
    · exact fun r hr hm => hxy _ x.root_mem_recs r hr (List.mem_singleton.mp hm).symm
  have hall : Relinked a c₅ (Tree.mk l o [x, y]).recs := by
    have hxs : x.recs ⊆ (Tree.mk l o [x, y]).recs := kid_recs_subset (by simp)
    have hys : y.recs ⊆ (Tree.mk l o [x, y]).recs := kid_recs_subset (by simp)
    have hls : [l] ⊆ (Tree.mk l o [x, y]).recs := by simp
    have hrs : [x.root] ⊆ (Tree.mk l o [x, y]).recs := by simpa using hxs x.root_mem_recs
    exact ((((h₁.trans h₂ hys hls).trans h₃ (List.Subset.refl _) hxs).trans h₄ (List.Subset.refl _)
      hls).trans h₅ (List.Subset.refl _) hrs)
  have hlx₅ : SameLinks c₄ c₅ l := h₅.sameLinks fun hm =>
    hlx (List.mem_singleton.mp hm ▸ x.root_mem_recs)
  refine ⟨c₅, hok, ⟨h.forest.relink hall ?_, hlx₅.1.trans hnext, ?_, hx₅, hy₅, fun u hu => ?_⟩⟩
  · exact fun r hr => List.mem_flatMap.mpr ⟨_, List.mem_cons_self .., hr⟩
  · exact hlx₅.2.trans ((hr₄.other l).trans ((hr₃.other l).trans hother))
  · exact (h.ready u hu).frame hall fun r hr => h.forest.toStand.notMem_of_cons hu hr

/-- The first operand leads to the op, the op to the null op or to the second operand, and that to
the null op. -/
theorem Half.ready_null {c : Arena} {l n : RecId} {o no : Node} {x y : Tree} (h : Half a l o x y ts)
    (ho : o.code.branches = true) (hy : y.op.code.branches = false) (hno : no.code = .null)
    (hc : c.Forest (.mk n no [.mk l o [x, y]] :: ts)) (hn : (c.node n).next = none)
    (hs : ∀ r ∈ (Tree.mk l o [x, y]).recs, SameLinks a c r) :
    (c.update y.root fun m => { m with next := some n, real := true }).Ready
      (.mk n no [.mk l o [x, y]]) := by
  have hnd := hc.toStand.nodup_head
  have hyn : y.recs.Nodup := nodup_subtree hnd
    (subtrees_trans (kid_mem_subtrees (List.mem_singleton.mpr rfl)) (kid_mem_subtrees (by simp)))
  have hyh : c.Holds y := ((hc.holds _ (List.mem_cons_self ..)).kid
    (List.mem_singleton.mpr rfl)).kid (by simp)
  simp only [recs_mk, List.flatMap_cons, List.flatMap_nil, List.append_nil, List.nodup_cons,
    List.mem_cons, List.mem_append, not_or, List.nodup_append] at hnd
  obtain ⟨⟨-, -, hny⟩, ⟨-, hly⟩, -, -, hxy⟩ := hnd
  have hl := hs l (root_mem_recs _)
  have hy' : c.Linked y := h.second.congr fun r hr => hs r (by simp [hr])
  have hlead := hy'.lead hyh hyn hy (some n) true
  have hkeep : ∀ r, r ≠ y.root → SameLinks c (c.update y.root fun m =>
      { m with next := some n, real := true }) r := fun r hr =>
    Relinked.of_next.sameLinks fun hm => hr (List.mem_singleton.mp hm)
  generalize c.update y.root (fun m => { m with next := some n, real := true }) = d at *
  have hln : SameLinks c d l := hkeep l fun he => hly (he ▸ y.root_mem_recs)
  refine .logop (by rw [hno]; rfl) (isLoop_of_code_ne (by simp [hno]) _) ?_ ho ?_ ?_ hlead ?_
  · exact (hkeep n fun he => hny (he ▸ y.root_mem_recs)).1.trans hn
  · exact hln.1.trans (hl.1.trans h.next)
  · refine (h.first.congr fun r hr => hs r (by simp [hr])).congr fun r hr => hkeep r fun he => ?_
    exact hxy r hr r (he ▸ y.root_mem_recs) rfl
  · exact hln.2.trans (hl.2.trans h.other)

theorem logop_ok {t : Opcode} {x y : Tree} {r : RecId} (h : a.Site (x :: y :: ts))
    (hok : logop t x.root y.root a = .ok r b) :
    (t = .and ∨ t = .or ∨ t = .dor) ∧ ∃ l i j,
      b.Site ((Tree.mk r { code := .null, id := j } []).snoc (logTree t l i x.wantScalar y) :: ts) := by
  obtain ⟨ht, hok⟩ := checkLogop_bind hok
  obtain ⟨l, c, hnew, hok⟩ := bind_eq_ok.mp hok
  obtain ⟨_, d, happ, hok⟩ := bind_eq_ok.mp hok
  obtain ⟨_, e, happ', hok⟩ := bind_eq_ok.mp hok
  have hlive : t ≠ .freed := by
    rcases ht with rfl | rfl | rfl <;> simp
  have hfull := append_ok (appendScalar_ok (open_of_new h hlive hnew).1 happ) happ'
  change e.Open (logTree t l (a.seq + 1) x.wantScalar y) ts at hfull
  have hbr : (logTree t l (a.seq + 1) x.wantScalar y).op.code.branches = true := by
    rw [logTree, code_snoc, code_snoc]
    rcases ht with rfl | rfl | rfl <;> rfl
  refine ⟨ht, l, a.seq + 1, ?_⟩
  obtain ⟨lo, hlo⟩ : ∃ lo, logTree t l (a.seq + 1) x.wantScalar y = .mk l lo [x.wantScalar, y] :=
    ⟨_, rfl⟩
  rw [hlo] at hfull hbr ⊢
  obtain ⟨f, hok, hhalf⟩ := half_ok hfull hok
  obtain ⟨n, g, hok, hg, hnone, hsame⟩ := nullOver_ok hhalf.forest hok
  rw [bind_of_ok (setNext_apply _ _ _)] at hok
  obtain ⟨rfl, rfl⟩ := pure_eq_ok.mp hok
  have hready := hhalf.ready_null hbr (h.ready y (by simp)).not_branches rfl hg hnone
    (hsame _ (List.mem_cons_self ..))
  have hts : ∀ u ∈ ts, g.Ready u := fun u hu =>
    (hhalf.ready u hu).congr (hsame u (List.mem_cons_of_mem _ hu))
  refine ⟨f.seq + 1, site_of_relinked hg hts (Relinked.of_next.mono ?_) hready⟩
  simp [y.root_mem_recs]

/-- A conditional with linked operands, before it is put under a null op. -/
structure Fork (a : Arena) (l : RecId) (o : Node) (x y z : Tree) (ts : List Tree) : Prop where
  forest : a.Forest (.mk l o [x, y, z] :: ts)
  next : (a.node l).next = some z.start
  other : (a.node l).other = some y.start
  first : a.Flow x (some l)
  second : a.Linked y
  third : a.Linked z
  ready : ∀ u ∈ ts, a.Ready u

theorem fork_ok {α : Type} {l : RecId} {o : Node} {x y z : Tree} {f : Option RecId → TreeM α} {v : α}
    (h : a.Open (.mk l o [x, y, z]) ts)
    (hok : (do
      let start ← linearize x.root
      setNext x.root (some l)
      let o ← linearize y.root
      update l fun n => { n with other := o }
      setNext l (← linearize z.root)
      f start) a = .ok v b) :
    ∃ c, f (some x.start) c = .ok v b ∧ Fork c l o x y z ts := by
  have hn := h.nodup
  have hh := h.forest.holds _ (List.mem_cons_self ..)
  simp only [recs_mk, List.flatMap_cons, List.flatMap_nil, List.append_nil, List.nodup_cons,
    List.mem_append, not_or, List.nodup_append] at hn
  obtain ⟨⟨hlx, hly, hlz⟩, hxn, ⟨hyn, hzn, hyz⟩, hxyz⟩ := hn
  have hxh : a.Holds x := hh.kid (by simp)
  have hyh : a.Holds y := hh.kid (by simp)
  have hzh : a.Holds z := hh.kid (by simp)
  have hx := h.kids x (by simp)
  obtain ⟨c₁, hlin, hr₁, hx₁⟩ := linearize_ok hx hxh hxn
  have h₁ := hr₁.relinked
  rw [bind_of_ok hlin, bind_of_ok (setNext_apply _ _ _)] at hok
  have hx₂ := hx₁.lead (h₁.holds hxh) hxn hx.not_branches (some l) true
  have h₂ : Relinked c₁ (c₁.update x.root fun n => { n with next := some l, real := true }) x.recs :=
    Relinked.of_next.mono (by simpa using x.root_mem_recs)
  generalize c₁.update x.root (fun n => { n with next := some l, real := true }) = c₂ at *
  have h₁₂ : Relinked a c₂ x.recs := h₁.trans h₂ (List.Subset.refl _) (List.Subset.refl _)
  have hy₂ : c₂.Ready y := (h.kids y (by simp)).frame h₁₂ fun r hr hm => hxyz r hm r (Or.inl hr) rfl
  obtain ⟨c₃, hlin, hr₃, hy₃⟩ := linearize_ok hy₂ (h₁₂.holds hyh) hyn
  have h₃ := hr₃.relinked
  rw [bind_of_ok hlin, bind_of_ok (update_apply _ _ _)] at hok
  have h₄ : Relinked c₃ (c₃.update l fun n => { n with other := some y.start }) [l] :=
    Relinked.of_other_self
  have hother : ((c₃.update l fun n => { n with other := some y.start }).node l).other =
      some y.start := by rw [node_update_self (by rw [h₃.size, h₁₂.size]; exact hh.fits.lt)]
  generalize c₃.update l (fun n => { n with other := some y.start }) = c₄ at *
  have hz₄ : c₄.Ready z := by
    refine (((h.kids z (by simp)).frame h₁₂ ?_).frame h₃ ?_).frame h₄ ?_
    · exact fun r hr hm => hxyz r hm r (Or.inr hr) rfl
    · exact fun r hr hm => hyz r hm r hr rfl
    · exact fun r hr hm => hlz (List.mem_singleton.mp hm ▸ hr)
  obtain ⟨c₅, hlin, hr₅, hz₅⟩ := linearize_ok hz₄ (h₄.holds (h₃.holds (h₁₂.holds hzh))) hzn
  have h₅ := hr₅.relinked
  rw [bind_of_ok hlin, bind_of_ok (setNext_apply _ _ _)] at hok
  have hr₆ : Rethreaded c₅ (c₅.update l fun n => { n with next := some z.start, real := true }) [l] :=
    Rethreaded.of_update (List.mem_singleton.mpr rfl)
  have h₆ := hr₆.relinked
  have hnext := next_update (a := c₅) (r := l) (by rw [h₅.size, h₄.size, h₃.size, h₁₂.size]; exact hh.fits.lt)
    (some z.start) true
  generalize c₅.update l (fun n => { n with next := some z.start, real := true }) = c₆ at *
  have hl : ∀ {t : Tree}, l ∉ t.recs → ∀ r ∈ t.recs, r ∉ [l] := fun hlt r hr hm =>
    hlt (List.mem_singleton.mp hm ▸ hr)
  have hx₆ : c₆.Flow x (some l) := by
    refine ((((hx₂.frame h₃ ?_).frame h₄ (hl hlx)).frame h₅ ?_).frame h₆ (hl hlx))
    · exact fun r hr hm => hxyz r hr r (Or.inl hm) rfl
    · exact fun r hr hm => hxyz r hr r (Or.inr hm) rfl
  have hy₆ : c₆.Linked y := ((Flow.frame hy₃ h₄ (hl hly)).frame h₅ fun r hr hm =>
    hyz r hr r hm rfl).frame h₆ (hl hly)
  have hz₆ : c₆.Linked z := Flow.frame hz₅ h₆ (hl hlz)
  have hall : Relinked a c₆ (Tree.mk l o [x, y, z]).recs := by
    have hsub : ∀ k ∈ [x, y, z], k.recs ⊆ (Tree.mk l o [x, y, z]).recs := fun k hk =>
      kid_recs_subset hk
    have hls : [l] ⊆ (Tree.mk l o [x, y, z]).recs := by simp
    exact ((((h₁₂.trans h₃ (hsub x (by simp)) (hsub y (by simp))).trans h₄ (List.Subset.refl _)
      hls).trans h₅ (List.Subset.refl _) (hsub z (by simp))).trans h₆ (List.Subset.refl _) hls)
  refine ⟨c₆, hok, h.forest.relink hall ?_, hnext, ?_, hx₆, hy₆, hz₆, fun u hu => ?_⟩
  · exact fun r hr => List.mem_flatMap.mpr ⟨_, List.mem_cons_self .., hr⟩
  · exact (hr₆.other l).trans ((hr₅.other l).trans hother)
  · exact (h.ready u hu).frame hall fun r hr => h.forest.toStand.notMem_of_cons hu hr

theorem Fork.linked_null {c : Arena} {l n : RecId} {o no : Node} {x y z : Tree}
    (h : Fork a l o x y z ts) (ho : o.code.branches = true) (hy : y.op.code.branches = false)
    (hz : z.op.code.branches = false) (hno : no.code = .null)
    (hc : c.Forest (.mk n no [.mk l o [x, y, z]] :: ts))
    (hs : ∀ r ∈ (Tree.mk l o [x, y, z]).recs, SameLinks a c r) :
    (((c.update y.root fun m => { m with next := some n, real := true }).update z.root fun m =>
      { m with next := some n, real := true }).update n fun m =>
      { m with next := some x.start, real := false }).Linked (.mk n no [.mk l o [x, y, z]]) := by
  have hh := (hc.holds _ (List.mem_cons_self ..))
  have hnd := hc.toStand.nodup_head
  simp only [recs_mk, List.flatMap_cons, List.flatMap_nil, List.append_nil, List.nodup_cons,
    List.mem_cons, List.mem_append, not_or, List.nodup_append] at hnd
  obtain ⟨⟨hnl, hnx, hny, hnz⟩, ⟨hlx, hly, hlz⟩, hxn, ⟨hyn, hzn, hyz⟩, hxyz⟩ := hnd
  have hyh : c.Holds y := (hh.kid (List.mem_singleton.mpr rfl)).kid (by simp)
  have hzh : c.Holds z := (hh.kid (List.mem_singleton.mpr rfl)).kid (by simp)
  have hl := hs l (root_mem_recs _)
  have hx₀ : c.Flow x (some l) := h.first.congr fun r hr => hs r (by simp [hr])
  have hy₀ : c.Linked y := h.second.congr fun r hr => hs r (by simp [hr])
  have hz₀ : c.Linked z := h.third.congr fun r hr => hs r (by simp [hr])
  have hy₁ := hy₀.lead hyh hyn hy (some n) true
  have hr₁ : Rethreaded c (c.update y.root fun m => { m with next := some n, real := true }) [y.root] :=
    Rethreaded.of_update (List.mem_singleton.mpr rfl)
  have h₁ := hr₁.relinked
  generalize c.update y.root (fun m => { m with next := some n, real := true }) = d at *
  have hyr : ∀ {t : Tree}, (∀ r ∈ t.recs, r ∉ y.recs) → ∀ r ∈ t.recs, r ∉ [y.root] := fun ht r hr hm =>
    ht r hr (List.mem_singleton.mp hm ▸ y.root_mem_recs)
  have hzr : ∀ {t : Tree}, (∀ r ∈ t.recs, r ∉ z.recs) → ∀ r ∈ t.recs, r ∉ [z.root] := fun ht r hr hm =>
    ht r hr (List.mem_singleton.mp hm ▸ z.root_mem_recs)
  have hnr : ∀ {t : Tree}, n ∉ t.recs → ∀ r ∈ t.recs, r ∉ [n] := fun hnt r hr hm =>
    hnt (List.mem_singleton.mp hm ▸ hr)
  have hz₁ : d.Linked z := Flow.frame hz₀ h₁ (hyr fun r hr hm => hyz r hm r hr rfl)
  have hz₂ := hz₁.lead (h₁.holds hzh) hzn hz (some n) true
  have hr₂ : Rethreaded d (d.update z.root fun m => { m with next := some n, real := true }) [z.root] :=
    Rethreaded.of_update (List.mem_singleton.mpr rfl)
  have h₂ := hr₂.relinked
  generalize d.update z.root (fun m => { m with next := some n, real := true }) = e at *
  have hlt : n < e.recs.size := by
    rw [h₂.size, h₁.size]
    exact hh.fits.lt
  have h₃ : Relinked e (e.update n fun m => { m with next := some x.start, real := false }) [n] :=
    Relinked.of_next
  have hnext := next_update hlt (some x.start) false
  generalize e.update n (fun m => { m with next := some x.start, real := false }) = f at *
  have hlf : SameLinks a f l := by
    have h1 := h₁.sameLinks (r := l) fun hm => hly (List.mem_singleton.mp hm ▸ y.root_mem_recs)
    have h2 := h₂.sameLinks (r := l) fun hm => hlz (List.mem_singleton.mp hm ▸ z.root_mem_recs)
    have h3 := h₃.sameLinks (r := l) fun hm => hnl (List.mem_singleton.mp hm).symm
    exact ⟨h3.1.trans (h2.1.trans (h1.1.trans hl.1)), h3.2.trans (h2.2.trans (h1.2.trans hl.2))⟩
  have hxf : f.Flow x (some l) := by
    refine ((hx₀.frame h₁ (hyr ?_)).frame h₂ (hzr ?_)).frame h₃ (hnr hnx)
    · exact fun r hr hm => hxyz r hr r (Or.inl hm) rfl
    · exact fun r hr hm => hxyz r hr r (Or.inr hm) rfl
  have hyf : f.Flow y (some n) := (hy₁.frame h₂ (hzr fun r hr hm => hyz r hr r hm rfl)).frame h₃ (hnr hny)
  have hzf : f.Flow z (some n) := hz₂.frame h₃ (hnr hnz)
  refine .op (by rw [hno]; rfl) (isLoop_of_code_ne (by simp [hno]) _) (fun p hp => ?_) ?_
  · obtain rfl := List.mem_singleton.mp hp
    exact .cond ho hxf (hlf.2.trans h.other) hyf (hlf.1.trans h.next) hzf
  · simpa [Tree.start] using hnext

def condTree (l : RecId) (id : Nat) (x y z : Tree) : Tree :=
  (((Tree.mk l { code := .condExpr, id := id } []).snoc x).snoc y).snoc z

theorem cond_ok {x y z : Tree} {r : RecId} (h : a.Site (x :: y :: z :: ts))
    (hok : cond x.root y.root z.root a = .ok r b) :
    ∃ l i j, b.Site ((Tree.mk r { code := .null, id := j } []).snoc
      (condTree l i x.wantScalar y z) :: ts) := by
  obtain ⟨l, c, hnew, hok⟩ := bind_eq_ok.mp hok
  obtain ⟨_, d, happ, hok⟩ := bind_eq_ok.mp hok
  obtain ⟨_, e, happ', hok⟩ := bind_eq_ok.mp hok
  obtain ⟨_, e', happ'', hok⟩ := bind_eq_ok.mp hok
  have hfull := append_ok (append_ok (appendScalar_ok (open_of_new h (by simp) hnew).1 happ) happ') happ''
  change e'.Open (condTree l (a.seq + 1) x.wantScalar y z) ts at hfull
  have hbr : (condTree l (a.seq + 1) x.wantScalar y z).op.code.branches = true := by
    rw [condTree, code_snoc, code_snoc, code_snoc]
    rfl
  refine ⟨l, a.seq + 1, ?_⟩
  obtain ⟨lo, hlo⟩ : ∃ lo, condTree l (a.seq + 1) x.wantScalar y z = .mk l lo [x.wantScalar, y, z] :=
    ⟨_, rfl⟩
  rw [hlo] at hfull hbr ⊢
  obtain ⟨f, hok, hfork⟩ := fork_ok hfull hok
  obtain ⟨n, g, hok, hg, -, hsame⟩ := nullOver_ok hfork.forest hok
  rw [bind_of_ok (setNext_apply _ _ _), bind_of_ok (setNext_apply _ _ _),
    bind_of_ok (float_apply _ _ _)] at hok
  obtain ⟨rfl, rfl⟩ := pure_eq_ok.mp hok
  have hlinked := hfork.linked_null hbr (h.ready y (by simp)).not_branches
    (h.ready z (by simp)).not_branches rfl hg (hsame _ (List.mem_cons_self ..))
  have hts : ∀ u ∈ ts, g.Ready u := fun u hu =>
    (hfork.ready u hu).congr (hsame u (List.mem_cons_of_mem _ hu))
  refine ⟨f.seq + 1, site_of_relinked hg hts ?_ (.linked rfl (by simp) hlinked)⟩
  refine ((Relinked.of_next.trans Relinked.of_next ?_ ?_).trans Relinked.of_next
    (List.Subset.refl _) ?_)
  · simp [y.root_mem_recs]
  · simp [z.root_mem_recs]
  · simp

end Build

end OpTree
