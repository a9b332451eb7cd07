import OpTree.Proofs.Placements

/-!
# Passages through trees about scalars

Two runs that come to a tree abreast leave it abreast, with what the tree is for on top of both stacks.
-/

namespace OpTree

set_option autoImplicit false

namespace Peep

open Arena Opcode Machine Exec OpTree.Tree

variable {S : Course} {root start : RecId} {a b : Arena} {ps : PeepState} {names? : Option Pad}
  {F : Floor} {d : Nat} {xs ws : List Item} {q r y : RecId} {u : Use} {t k : Tree}

section Scalars

variable (hT : Terrain S a root start) (h : Traced S a root start ps b)

include hT

theorem passes_of {r : RecId} {o : Node} {ks : List Tree} (hm : .mk r o ks ∈ (a.tree root).subtrees) (hc : o.code ≠ .not)
    (h : ∀ ⦃F ws d⦄, F.Below ws.length → Free u F → (∀ l, ¬ Absorbs a b r l) → Carries (a.code names?) (b.code names?)
      (Near a b (Tree.mk r o ks).start (Pose root F d ws)) (After root a b u q F d ws)) :
    Passes root a b names? u (.mk r o ks) q := by
  have hcode : (a.node r).code ≠ .not := by
    rw [show (a.node r).code = o.code from hT.code hm]
    exact hc
  intro F ws d hB hF
  constructor
  · exact h hB hF
  · rintro ⟨l, hl⟩
    exact absurd hl.code hcode

include h

theorem Traced.carries_head {G : Floor} {r : RecId} {o : Node} {ks : List Tree} (hp : Placed a b root (.mk r o ks) q) (hc : o.code ∈ valued)
    (ha : ∀ l, ¬ Absorbs a b r l)
    (hx : ∀ n : Node, n.code = o.code → Tandem (Abreast G xs) (step names? n) fun _ => Topped F ws) :
    Carries (a.code names?) (b.code names?) (Near a b r (Pose root G d xs)) (Known root a b q F d ws) := by
  have hcode : (a.node r).code = o.code := hT.code hp.mem
  have hs := single_of_valued hc
  apply h.carries_value (hT.at hp.mem hs.lineseq) (hcode ▸ hc) ha
  · exact (hp.flow.of_op hs.branches hs.leaveloop).2
  · apply hx
    rw [root_mk, Node.plain_code, hcode]

theorem Traced.passes_leaf {r : RecId} {o : Node} (hc : o.code = .const ∨ o.code = .padsv)
    (hp : Placed a b root (.mk r o []) q) : Passes root a b names? u (.mk r o []) q := by
  have hcode : o.code ∈ valued ∧ o.code ≠ .not := by
    rcases hc with hc | hc <;> rw [hc] <;> decide
  refine passes_of hT hp.mem hcode.2 fun F ws d _ hF ha => ?_
  refine (h.carries_head hT hp hcode.1 ha fun n hn => ?_).post fun _ _ _ _ hk => hk.after hF
  apply tandem_leaf
  rwa [hn]

theorem Traced.passes_global {r g : RecId} {o go : Node} (hc : o.code = .rv2sv) (hg : go.code = .gv)
    (hp : Placed a b root (.mk r o [.mk g go []]) q) : Passes root a b names? u (.mk r o [.mk g go []]) q := by
  have hcode : o.code ∈ valued ∧ o.code ≠ .not := by
    rw [hc]
    decide
  have hkid := hp.follow hT (single_of_valued hcode.1) (List.mem_singleton_self (Tree.mk g go [], r))
  have hglob : (a.node g).code = .gv := (hT.code hkid.mem).trans hg
  have hsimple : go.code.branches = false ∧ go.code ≠ .leaveloop ∧ go.code ≠ .lineseq := by
    rw [hg]
    decide
  refine passes_of hT hp.mem hcode.2 fun F ws d _ hF ha => ?_
  have hfirst : Carries (a.code names?) (b.code names?) (Near a b g (Pose root F d ws))
      (At a b none r fun m m' => (∃ i, Abreast F (ws ++ [.glob i]) m m') ∧ m.Steady root d) := by
    apply h.carries_op (hT.at hkid.mem hsimple.2.2)
    · apply h.stays_of
      · exact hglob ▸ by decide
      · intro l hl
        exact absurd (hl.code.symm.trans hglob) (by decide)
    · exact hglob ▸ rfl
    · exact hglob ▸ by decide
    · exact (hkid.flow.of_op hsimple.1 hsimple.2.1).2
    · unfold step
      simp only [root_mk, Node.plain_code, hglob]
      exact tandem_go tandem_glob
  have hsecond : Carries (a.code names?) (b.code names?) (Near a b r fun m m' => ∃ i, Pose root F d (ws ++ [.glob i]) m m')
      (After root a b u q F d ws) := by
    refine carries_near fun i => ?_
    refine (h.carries_head hT hp hcode.1 ha fun n hn => ?_).post fun _ _ _ _ hk => hk.after hF
    unfold step
    simp only [hn, hc]
    exact tandem_go (tandem_derefScalar i)
  refine hfirst.trans (hsecond.pre fun y' m z m' hy => ?_)
  obtain ⟨rfl, hs, ⟨i, hi⟩, hd⟩ := hy
  exact ⟨none, rfl, hs, i, hi, hd⟩

theorem Traced.passes_unary {r : RecId} {o : Node} {x : Tree} (hc : o.code ∈ Opcode.unary)
    (hp : Placed a b root (.mk r o [x]) q) (hx : Single x.op.code)
    (ih : ∀ {q}, Placed a b root x q → Passes root a b names? .operand x q) : Passes root a b names? u (.mk r o [x]) q := by
  have hcode : o.code ∈ valued ∧ o.code ∉ short := by
    revert hc
    generalize o.code = t
    revert t
    decide
  have hkid := hp.follow hT (single_of_valued hcode.1) (List.mem_singleton_self (x, r))
  have hr : (a.node r).code ∉ short := by
    rw [show (a.node r).code = o.code from hT.code hp.mem]
    exact hcode.2
  intro F ws d hB hF
  have hfirst : Carries (a.code names?) (b.code names?) (Near a b x.start (Pose root F d ws)) (Known root a b r F d ws) :=
    (ih hkid hB free_operand).1 (hkid.not_absorbs hx hr)
  refine ⟨fun ha => hfirst.trans (carries_known fun c => ?_), fun _ => hfirst⟩
  refine (h.carries_head hT hp hcode.1 ha fun n hn => ?_).post fun _ _ _ _ hk => hk.after hF
  apply tandem_unary
  rwa [hn]

theorem Traced.passes_binary {r : RecId} {o : Node} {x y : Tree} (hc : o.code ∈ Opcode.binary)
    (hp : Placed a b root (.mk r o [x, y]) q) (hx : Single x.op.code) (hy : Single y.op.code)
    (hstart : (a.node y.start).code ∉ short)
    (ihx : ∀ {q}, Placed a b root x q → Passes root a b names? .operand x q)
    (ihy : ∀ {q}, Placed a b root y q → Passes root a b names? .operand y q) :
    Passes root a b names? u (.mk r o [x, y]) q := by
  have hcode : o.code ∈ valued ∧ o.code ≠ .not ∧ o.code ∉ short := by
    revert hc
    generalize o.code = t
    revert t
    decide
  have hkx := hp.follow hT (single_of_valued hcode.1) (List.mem_cons_self (a := (x, y.start)))
  have hky := hp.follow hT (single_of_valued hcode.1) (p := (y, r)) (by simp [Tree.follow])
  have hr : (a.node r).code ∉ short := by
    rw [show (a.node r).code = o.code from hT.code hp.mem]
    exact hcode.2.2
  refine passes_of hT hp.mem hcode.2.1 fun F ws d hB hF ha => ?_
  refine ((ihx hkx hB free_operand).1 (hkx.not_absorbs hx hstart)).trans (carries_known fun c => ?_)
  have hB' : F.Below (ws ++ [Item.scalar c]).length := hB.mono (by simp)
  refine ((ihy hky hB' free_operand).1 (hky.not_absorbs hy hr)).trans (carries_known fun c' => ?_)
  refine (h.carries_head hT hp hcode.1 ha fun n hn => ?_).post fun _ _ _ _ hk => hk.after hF
  apply tandem_binary
  rwa [hn]

theorem Traced.passes_stub {r : RecId} {o : Node} (hc : o.code = .stub) (hw : u = .operand → o.want = .scalar)
    (hp : Placed a b root (.mk r o []) q) : Passes root a b names? u (.mk r o []) q := by
  have hs : Single o.code := single_of_heads (hc ▸ by decide)
  have hcode : (a.node r).code = .stub := (hT.code hp.mem).trans hc
  have hop : (a.node r).plain = o := (hT.holds hp.mem).fits.op
  have hstep : step names? o = (do stub o; return o.next) := by
    unfold step
    simp only [hc]
  refine passes_of hT hp.mem (hc ▸ by decide) fun F ws d _ hF ha => ?_
  have hdone : Carries (a.code names?) (b.code names?) (Near a b r (Pose root F d ws))
      (At a b none q fun m m' => (Topped F ws m m' ∨ o.want ≠ .scalar ∧ Abreast F ws m m') ∧ m.Steady root d) := by
    apply h.carries_op (hT.at hp.mem hs.lineseq) (h.stays_of ?_ ha) ?_ ?_ (hp.flow.of_op hs.branches hs.leaveloop).2
    · rw [root_mk, hop, hstep]
      exact tandem_go tandem_stub
    · exact hcode ▸ by decide
    · exact hcode ▸ rfl
    · exact hcode ▸ by decide
  refine hdone.post fun y' m z m' hy => ?_
  obtain ⟨rfl, hslide, htop | ⟨hno, hbare⟩, hd⟩ := hy
  · exact (known_of_topped hslide htop hd).after hF
  · have hpose : Pose root F d ws m m' := ⟨hbare, hd⟩
    cases u with
    | operand => exact absurd (hw rfl) hno
    | item => exact ⟨none, rfl, hslide, [], by rwa [List.map_nil, List.append_nil]⟩
    | effect => exact ⟨none, rfl, hslide, F, ws, (hF rfl).1, (hF rfl).2, hpose⟩

theorem Traced.stays_mark {r p : RecId} {o po : Node} {ks : List Tree} (hpo : po.code = .pushmark)
    (hp : Placed a b root (.mk r o (.mk p po [] :: ks)) q) : Stays a b p := by
  have hm := subtrees_trans hp.mem (kid_mem_subtrees (List.mem_cons_self ..))
  have hcode : (a.node p).code = .pushmark := (hT.code hm).trans hpo
  have hparent := (hT.holds hp.mem).parent?_eq (nodup_subtree hT.wired.nodup hp.mem) (List.mem_cons_self ..)
  apply h.stays
  · rintro (ht | ⟨pm, ret, hf, rfl | rfl⟩)
    · rw [Node.transparent, hcode] at ht
      cases ht
    · have hret := (tailReturnOf_some hf.tail).2.parent
      rw [root_mk] at hparent
      rw [hparent] at hret
      cases hret
      exact hp.kept _ hf
    · exact absurd ((tailReturnOf_some hf.tail).1.symm.trans hcode) (by decide)
  · intro l hl
    exact absurd (hl.code.symm.trans hcode) (by decide)
  · rw [hcode]
    decide

theorem Traced.passes_marked {r p : RecId} {o po : Node} {ks : List Tree} (hc : o.code = .say ∨ o.code = .die ∨ o.code = .ret)
    (hpo : po.code = .pushmark) (hend : ∀ s, Safe (a.code names?) (b.code names?) (Ended root) s)
    (hp : Placed a b root (.mk r o (.mk p po [] :: ks)) q)
    (hks : ∀ k ∈ ks, Single k.op.code ∧ (a.node k.start).code ∉ short)
    (ih : ∀ k ∈ ks, ∀ {q}, Placed a b root k q → Passes root a b names? .item k q) :
    Passes root a b names? u (.mk r o (.mk p po [] :: ks)) q := by
  have hs : Single o.code := by
    apply single_of_heads
    rcases hc with hc | hc | hc <;> rw [hc] <;> decide
  have hcode : (a.node r).code = o.code := hT.code hp.mem
  have hpm := hp.follow hT hs (follow_cons (.mk p po []) ks r ▸ List.mem_cons_self ..)
  have hpcode : (a.node p).code = .pushmark := (hT.code hpm.mem).trans hpo
  have hne : o.code ≠ .not := by
    rcases hc with hc | hc | hc <;> rw [hc] <;> decide
  refine passes_of hT hp.mem hne fun F ws d hB hF ha => ?_
  have hmark : Carries (a.code names?) (b.code names?) (Near a b p (Pose root F d ws))
      (At a b none (startAll ks r) fun m m' => Abreast (F.marked ws.length) ws m m' ∧ m.Steady root d) := by
    apply h.carries_op (hT.at hpm.mem (hpo ▸ by decide)) (h.stays_mark hT hpo hp)
    · exact hpcode ▸ rfl
    · exact hpcode ▸ by decide
    · exact (hpm.flow.of_op (hpo ▸ rfl) (hpo ▸ by decide)).2
    · unfold step
      simp only [root_mk, Node.plain_code, hpcode]
      exact tandem_go tandem_pushMark
  have hitems : Carries (a.code names?) (b.code names?)
      (Near a b (startAll ks r) fun m m' => ∃ cs : List (Option CellId),
        Pose root (F.marked ws.length) d (ws ++ cs.map .scalar) m m')
      (Near a b r fun m m' => ∃ cs : List (Option CellId), Pose root (F.marked ws.length) d (ws ++ cs.map .scalar) m m') := by
    apply carries_items
    intro k hk cs
    have hkid := mem_of_mem_follow hk
    have hplace := hp.follow hT hs (follow_cons (.mk p po []) ks r ▸ List.mem_cons_of_mem _ hk)
    have hmore : (F.marked ws.length).Below (ws ++ cs.map Item.scalar).length := hB.marked (by simp)
    refine (ih k.1 hkid hplace hmore free_item).1 (hplace.not_absorbs (hks k.1 hkid).1 ?_)
    rcases follow_target hk with he | ⟨j, hj, he⟩
    · rw [he, hcode]
      exact hs.short
    · rw [he]
      exact (hks j hj).2
  have hhead : Carries (a.code names?) (b.code names?)
      (Near a b r fun m m' => ∃ cs : List (Option CellId), Pose root (F.marked ws.length) d (ws ++ cs.map .scalar) m m')
      (After root a b u q F d ws) := by
    refine carries_near fun cs => ?_
    by_cases hret : o.code = .ret
    · exact h.carries_return hend (hcode.trans hret) hp.kept
    · have hvalued : o.code ∈ valued := by
        rcases hc with hc | hc | hc
        · exact hc ▸ by decide
        · exact hc ▸ by decide
        · exact absurd hc hret
      refine (h.carries_head hT hp hvalued ha fun n hn => ?_).post fun _ _ _ _ hk => hk.after hF
      unfold step
      rcases hc with hc | hc | hc
      · simp only [hn, hc]
        exact tandem_go (tandem_say hB _)
      · simp only [hn, hc]
        exact tandem_die hB
      · exact absurd hc hret
  refine hmark.trans (Carries.pre (hitems.trans hhead) fun y' m z m' hy => ?_)
  obtain ⟨rfl, hslide, hpose⟩ := hy
  refine ⟨none, rfl, hslide, [], ?_⟩
  rw [List.map_nil, List.append_nil]
  exact hpose

theorem Traced.carries_null {n : RecId} {no : Node} {ks : List Tree} (hno : no.code = .null)
    (hp : Placed a b root (.mk n no ks) q) (u : Use) :
    Carries (a.code names?) (b.code names?) (After root a b u n F d ws) (After root a b u q F d ws) := by
  have hcode : (a.node n).code = .null := (hT.code hp.mem).trans hno
  apply h.carries_past (hT.at hp.mem (hno ▸ by decide))
  · rw [root_mk, Node.transparent, hcode]
  · exact (hp.flow.of_op (hno ▸ rfl) (hno ▸ by decide)).2

theorem Traced.passes_short {n l : RecId} {no lo : Node} {x y : Tree} (hno : no.code = .null) (hc : lo.code ∈ short)
    (hw : u ≠ .effect → lo.want ≠ .void) (hp : Placed a b root (.mk n no [.mk l lo [x, y]]) q)
    (hx : Single x.op.code) (hy : Single y.op.code)
    (ihx : ∀ {q}, Placed a b root x q → Passes root a b names? .operand x q)
    (ihy : ∀ {q}, Placed a b root y q → Passes root a b names? u.arm y q) :
    Passes root a b names? u (.mk n no [.mk l lo [x, y]]) q := by
  have hs : Single no.code := single_of_heads (hno ▸ by decide)
  have hlo : lo.code.branches = true ∧ lo.code ≠ .lineseq := by
    revert hc
    generalize lo.code = t
    revert t
    decide
  have hpl := hp.follow hT hs (List.mem_singleton_self (Tree.mk l lo [x, y], n))
  obtain ⟨hfx, hother, hfy, hnext⟩ := hpl.flow.of_logop hlo.1
  have hpx : Placed a b root x l := hT.kid hpl.mem hlo.2 (List.mem_cons_self ..) hfx
  have hpy : Placed a b root y n := hT.kid hpl.mem hlo.2 (List.mem_cons_of_mem _ (List.mem_singleton_self y)) hfy
  have hl : (a.node l).plain = lo := (hT.holds hpl.mem).fits.op
  have hcode : (a.node l).code = lo.code := hT.code hpl.mem
  have hwant : (a.node l).want = lo.want := by rw [← hl]; rfl
  have hncode : (a.node n).code = .null := (hT.code hp.mem).trans hno
  have hroad : Road S a root l := hT.at hpl.mem hlo.2
  have hys : ∀ l, ¬ Absorbs a b y.root l := hpy.not_absorbs hy (hncode ▸ by decide)
  have hpast : ∀ {F ws d}, Carries (a.code names?) (b.code names?) (After root a b u n F d ws) (After root a b u q F d ws) :=
    h.carries_null hT hno hp u
  -- The arm is entered abreast, or with a value on one stack that nobody looks at.
  have harm : ∀ {F ws d}, F.Below ws.length → Free u F → Carries (a.code names?) (b.code names?)
      (Near a b y.start (Pose root F d ws)) (After root a b u q F d ws) := fun hB hF =>
    Carries.trans (((ihy hpy hB hF.arm).1 hys).post fun _ _ _ _ hk => hk.of_arm hF) hpast
  refine passes_of hT hp.mem (hno ▸ by decide) fun F ws d hB hF _ => ?_
  by_cases hab : ∃ l', Absorbs a b x.root l'
  · have habs := hab
    obtain ⟨l', hl'⟩ := habs
    have hroot : l' = l := by
      have hn := hl'.next
      rw [hfx.next_eq hx.branches] at hn
      exact (Option.some.inj hn).symm
    subst hroot
    have hu : u = .effect := by
      by_contra hu
      exact hw hu (hwant.symm.trans hl'.want)
    subst hu
    obtain ⟨hm, hm'⟩ := hF rfl
    refine Carries.trans ((ihx hpx hB free_operand).2 hab) ?_
    refine (h.carries_absorbed hroad hl' hnext hother hm hm').either hpast ?_
    exact carries_loose fun G xs hm hm' => harm (Floor.below_of_nil hm hm') fun _ => ⟨hm, hm'⟩
  · refine Carries.trans ((ihx hpx hB free_operand).1 (not_exists.mp hab)) ?_
    have hplain : (b.node l).plain = (a.node l).plain := by
      apply h.plain_short (hcode ▸ hc)
      intro r hr
      refine hab ⟨l, ?_⟩
      have hfirst : (a.node l).first = some x.root := (hT.holds hpl.mem).fits.first
      rw [hr.first] at hfirst
      cases hfirst
      exact hr
    refine (h.carries_short hroad (hcode ▸ hc) hnext hother hplain).either ?_ ?_
    · refine Carries.trans ?_ hpast
      exact (Carries.refl _).pre fun y' m z m' hk => Known.after hk hF
    · intro s hsafe y' m z m' hd
      obtain ⟨k, hy', hslide, hpose | ⟨hv, c, hpose⟩⟩ := hd
      · exact harm hB hF s hsafe y' m z m' ⟨k, hy', hslide, hpose⟩
      · have hu : u = .effect := by
          by_contra hu
          exact hw hu (hwant.symm.trans hv)
        subst hu
        obtain ⟨hm, hm'⟩ := hF rfl
        have hG : (F.above ws (.scalar c)).Below ([] : List Item).length := Floor.below_of_nil hm hm'
        exact harm hG (fun _ => ⟨hm, hm'⟩) s hsafe y' m z m' ⟨k, hy', hslide, hpose⟩

theorem Traced.passes_choice {n l : RecId} {no lo : Node} {x y z : Tree} (hno : no.code = .null) (hc : lo.code = .condExpr)
    (hp : Placed a b root (.mk n no [.mk l lo [x, y, z]]) q) (hx : Single x.op.code) (hy : Single y.op.code)
    (hz : Single z.op.code) (ihx : ∀ {q}, Placed a b root x q → Passes root a b names? .operand x q)
    (ihy : ∀ {q}, Placed a b root y q → Passes root a b names? u.arm y q)
    (ihz : ∀ {q}, Placed a b root z q → Passes root a b names? u.arm z q) :
    Passes root a b names? u (.mk n no [.mk l lo [x, y, z]]) q := by
  have hs : Single no.code := single_of_heads (hno ▸ by decide)
  have hseq : lo.code ≠ .lineseq := hc ▸ by decide
  have hpl := hp.follow hT hs (List.mem_singleton_self (Tree.mk l lo [x, y, z], n))
  obtain ⟨hfx, hother, hfy, hnext, hfz⟩ := hpl.flow.of_cond (hc ▸ rfl)
  have hpx : Placed a b root x l := hT.kid hpl.mem hseq (List.mem_cons_self ..) hfx
  have hpy : Placed a b root y n := hT.kid hpl.mem hseq (by simp) hfy
  have hpz : Placed a b root z n := hT.kid hpl.mem hseq (by simp) hfz
  have hcode : (a.node l).code = .condExpr := (hT.code hpl.mem).trans hc
  have hncode : (a.node n).code ∉ short := by
    rw [show (a.node n).code = .null from (hT.code hp.mem).trans hno]
    decide
  have hstays : Stays a b l := by
    apply h.stays_of
    · exact hcode ▸ by decide
    · intro l' hl'
      exact absurd (hl'.code.symm.trans hcode) (by decide)
  refine passes_of hT hp.mem (hno ▸ by decide) fun F ws d hB hF _ => ?_
  have harm : ∀ {k : Tree}, Placed a b root k n → Single k.op.code → Passes root a b names? u.arm k n →
      Carries (a.code names?) (b.code names?) (Near a b k.start (Pose root F d ws)) (After root a b u q F d ws) := by
    intro k hpk hk ihk
    have hfirst : Carries (a.code names?) (b.code names?) (Near a b k.start (Pose root F d ws))
        (After root a b u.arm n F d ws) := (ihk hB hF.arm).1 (hpk.not_absorbs hk hncode)
    exact Carries.trans (hfirst.post fun _ _ _ _ ha => ha.of_arm hF) (h.carries_null hT hno hp u)
  refine Carries.trans ((ihx hpx hB free_operand).1 (hpx.not_absorbs hx (hcode ▸ by decide))) ?_
  refine Carries.pre ?_ fun _ _ _ _ => Known.near
  exact (h.carries_cond (hT.at hpl.mem hseq) hstays hcode hnext hother).either (harm hpz hz (ihz hpz)) (harm hpy hy (ihy hpy))

omit h in
theorem Terrain.start_code (hs : Scalar u t) (hm : t ∈ (a.tree root).subtrees) : (a.node t.start).code ∈ Opcode.solid := by
  obtain ⟨w, hw, hroot, hc⟩ := hs.start_solid
  rw [← hroot, hT.code (subtrees_trans hm hw)]
  exact hc

theorem Traced.passes (hend : ∀ s, Safe (a.code names?) (b.code names?) (Ended root) s) (hs : Scalar u t)
    (hp : Placed a b root t q) : Passes root a b names? u t q := by
  have hstart : ∀ {v : Use} {k w : Tree}, Scalar v k → w ∈ (a.tree root).subtrees → k ∈ w.kids →
      (a.node k.start).code ∉ short := by
    intro v k w hk hw hkid hshort
    exact short_notMem_solid hshort (hT.start_code hk (subtrees_trans hw (kid_mem_subtrees hkid)))
  induction hs generalizing q with
  | leaf hc => exact h.passes_leaf hT hc hp
  | stub hc hw => exact h.passes_stub hT hc hw hp
  | global hc hg => exact h.passes_global hT hc hg hp
  | unary hc hx ih => exact h.passes_unary hT hc hp hx.single ih
  | binary hc hx hy ihx ihy =>
    exact h.passes_binary hT hc hp hx.single hy.single (hstart hy hp.mem (by simp)) ihx ihy
  | marked hc hpo hks ih =>
    refine h.passes_marked hT hc hpo hend hp (fun k hk => ⟨(hks k hk).single, ?_⟩) fun k hk _ hpk => ih k hk hpk
    exact hstart (hks k hk) hp.mem (List.mem_cons_of_mem _ hk)
  | short hn hc hw hx hy ihx ihy => exact h.passes_short hT hn hc hw hp hx.single hy.single ihx ihy
  | choice hn hc hx hy hz ihx ihy ihz =>
    exact h.passes_choice hT hn hc hp hx.single hy.single hz.single ihx ihy ihz

end Scalars

end Peep

end OpTree
