import OpTree.Proofs.Branches

/-!
# Building blocks and loops

Blocks of statements, loops over ranges and whole subs are built. A loop is linked as it is made, and the root of
a unit is left to the linearizer.
-/

namespace OpTree

set_option autoImplicit false

namespace Build

open Arena OpTree.Tree TreeM

variable {a b : Arena} {ts : List Tree}

/-- The kids that the statements of a block become: each is announced, and all but the last one of
a tail are made void. -/
inductive Items (tail : Bool) : List Stmt → List Tree → List Tree → Prop where
  | nil : Items tail [] [] []
  | empty {s : Stmt} {rest : List Stmt} {es ks : List Tree} (n i : Nat) (file : Bytes)
      (he : s.expr? = none) (h : Items tail rest es ks) :
      Items tail (s :: rest) es (.mk n
        { code := .nextstate, label := s.label, line := s.line, file := file, id := i } [] :: ks)
  | expr {s : Stmt} {rest : List Stmt} {e : Tree} {es ks : List Tree} (n i : Nat) (file : Bytes)
      (he : s.expr? = some e.root) (h : Items tail rest es ks) :
      Items tail (s :: rest) (e :: es) (.mk n
        { code := .nextstate, label := s.label, line := s.line, file := file, id := i } [] ::
        (if !tail || !rest.isEmpty then e.void else e) :: ks)

theorem nextstate_ok {t : Tree} {label : Bytes} {line : Int} (h : a.Open t ts)
    (hok : (do append t.root (some (← nextstate label line))) a = .ok () b) :
    ∃ n i file, b.Open (t.snoc (.mk n
      { code := .nextstate, label := label, line := line, file := file, id := i } [])) ts := by
  obtain ⟨n, c, hstate, hok⟩ := bind_eq_ok.mp hok
  obtain ⟨o, d, hnew, hstate⟩ := bind_eq_ok.mp hstate
  rw [bind_of_ok (get_apply _), bind_of_ok (update_apply _ _ _)] at hstate
  obtain ⟨rfl, rfl⟩ := pure_eq_ok.mp hstate
  have hleaf := (open_new h (by simp) rfl hnew).1
  obtain ⟨e, hadopt, hopen⟩ := hleaf.adopt
    (f := fun n => { n with label := label, line := line, file := d.file })
    (by constructor <;> intros <;> first | rfl | assumption) fun _ => .of_code_eq rfl
  rw [bind_of_ok (update_apply _ _ _), root_mk] at hadopt
  obtain rfl : e = b := by simpa using hadopt.symm.trans hok
  exact ⟨o, a.seq + 1, d.file, hopen⟩

def grown (t : Tree) (ks : List Tree) : Tree := ks.foldl Tree.snoc t

theorem blockItems_ok {t : Tree} {tail : Bool} {stmts : List Stmt} {es : List Tree}
    (h : a.Open t (es ++ ts)) (hes : es.map Tree.root = stmts.filterMap Stmt.expr?)
    (hok : blockItems t.root tail stmts a = .ok () b) :
    ∃ ks, Items tail stmts es ks ∧ b.Open (grown t ks) ts := by
  induction stmts generalizing t a es with
  | nil =>
    obtain ⟨-, rfl⟩ := pure_eq_ok.mp hok
    obtain rfl : es = [] := by simpa using hes
    exact ⟨[], .nil, h⟩
  | cons s rest ih =>
    rw [blockItems] at hok
    obtain ⟨n, c, hstate, hok⟩ := bind_eq_ok.mp hok
    obtain ⟨_, d, happ, hok⟩ := bind_eq_ok.mp hok
    obtain ⟨n, i, file, hopen⟩ := nextstate_ok h ((bind_of_ok hstate).trans happ)
    cases he : s.expr? with
    | none =>
      rw [he] at hok
      obtain ⟨ks, hks, hb⟩ := ih hopen (by rw [hes, List.filterMap_cons_none he]) hok
      exact ⟨_, .empty n i file he hks, hb⟩
    | some r =>
      rw [he] at hok
      simp only at hok
      rw [List.filterMap_cons_some he] at hes
      obtain ⟨e, es, rfl, rfl, hes'⟩ := List.map_eq_cons_iff.mp hes
      by_cases hv : (!tail || !rest.isEmpty) = true
      · rw [if_pos hv] at hok
        obtain ⟨_, f, hvoid, hok⟩ := bind_eq_ok.mp hok
        obtain ⟨_, g, happ', hok⟩ := bind_eq_ok.mp hok
        have hadd := append_ok (void_open hopen hvoid) (by rw [Tree.void, root_mapOps]; exact happ')
        obtain ⟨ks, hks, hb⟩ := ih hadd hes' hok
        refine ⟨_, .expr n i file he hks, ?_⟩
        rw [if_pos hv]
        exact hb
      · rw [if_neg hv] at hok
        obtain ⟨_, g, happ', hok⟩ := bind_eq_ok.mp hok
        obtain ⟨ks, hks, hb⟩ := ih (append_ok hopen happ') hes' hok
        refine ⟨_, .expr n i file he hks, ?_⟩
        rw [if_neg hv]
        exact hb

theorem root_grown (t : Tree) (ks : List Tree) : (grown t ks).root = t.root := by
  induction ks generalizing t with
  | nil => rfl
  | cons k ks ih => exact ih _

theorem code_grown (t : Tree) (ks : List Tree) : (grown t ks).op.code = t.op.code := by
  induction ks generalizing t with
  | nil => rfl
  | cons k ks ih => exact (ih _).trans (code_snoc _ _)

theorem kids_grown (t : Tree) (ks : List Tree) : (grown t ks).kids = t.kids ++ ks := by
  induction ks generalizing t with
  | nil => simp [grown]
  | cons k ks ih => exact (ih _).trans (by simp)

theorem block_ok {tail : Bool} {stmts : List Stmt} {es : List Tree} {r : RecId} (h : a.Site (es ++ ts))
    (hes : es.map Tree.root = stmts.filterMap Stmt.expr?) (hok : block stmts tail a = .ok r b) :
    ∃ ks i, Items tail stmts es ks ∧ b.Open (grown (.mk r { code := .lineseq, id := i } []) ks) ts := by
  obtain ⟨s, c, hnew, hok⟩ := bind_eq_ok.mp hok
  obtain ⟨_, d, hitems, hok⟩ := bind_eq_ok.mp hok
  obtain ⟨rfl, rfl⟩ := pure_eq_ok.mp hok
  obtain ⟨ks, hks, hb⟩ := blockItems_ok (open_of_new h (by simp) hnew).1 hes hitems
  exact ⟨ks, a.seq + 1, hks, hb⟩

theorem mem_follow_snoc {ks : List Tree} {u : Tree} {q : RecId} {p : Tree × RecId} :
    p ∈ follow (ks ++ [u]) q ↔ p ∈ follow ks u.start ∨ p = (u, q) := by
  induction ks with
  | nil => simp [follow]
  | cons k ks ih =>
    cases ks with
    | nil => simp [follow]
    | cons j ks =>
      simp only [List.cons_append, follow, List.mem_cons] at ih ⊢
      rw [ih, or_assoc]

/-- The rounds of a loop, linked, with the test where they start. -/
structure Rounds (a : Arena) (w l s : RecId) (lo so : Node) (iter : Tree) (body : List Tree) : Prop where
  wrap : (a.node w).next = some iter.start
  test : a.Flow iter (some l)
  other : (a.node l).other = some (Tree.mk s so body).start
  body : ∀ p ∈ follow body iter.start, a.Flow p.1 (some p.2)
  next : (a.node l).next = some w

theorem rounds_ok {w l s u : RecId} {wo lo so uo : Node} {iter : Tree} {ks : List Tree}
    (h : a.Linked (.mk w wo [.mk l lo [iter, .mk s so (ks ++ [.mk u uo []])]]))
    (hh : a.Holds (.mk w wo [.mk l lo [iter, .mk s so (ks ++ [.mk u uo []])]]))
    (hn : (Tree.mk w wo [.mk l lo [iter, .mk s so (ks ++ [.mk u uo []])]]).recs.Nodup)
    (hw : wo.code = .null) (hl : lo.code.branches = true) (hs : so.code = .lineseq)
    (hu : uo.code.branches = false) :
    Rounds (a.update u fun n => { n with next := some iter.start, real := true }) w l s lo so iter
      (ks ++ [.mk u uo []]) := by
  obtain ⟨hkids, hnext⟩ := Flow.op_inv h (by rw [hw]; rfl) (isLoop_of_code_ne (by simp [hw]) _)
  obtain ⟨hx, ho, hy, hln⟩ := Flow.logop_inv (hkids _ (List.mem_singleton.mpr rfl)) hl
  obtain ⟨hbody, -⟩ := Flow.op_inv hy (by rw [hs]; rfl) (isLoop_of_code_ne (by simp [hs]) _)
  have hlt : u < a.recs.size := hh.lt (by simp)
  simp only [recs_mk, List.flatMap_cons, List.flatMap_nil, List.append_nil, List.nodup_cons,
    List.mem_cons, List.mem_append, not_or, List.flatMap_append, List.nodup_append,
    List.not_mem_nil, or_false] at hn
  obtain ⟨⟨-, -, -, -, hwu⟩, ⟨-, -, -, hlu⟩, -, ⟨-, -, -, hksu⟩, hiter⟩ := hn
  have hkeep : ∀ r, r ≠ u → SameLinks a (a.update u fun n =>
      { n with next := some iter.start, real := true }) r := fun r hr =>
    Relinked.of_next.sameLinks fun hm => hr (List.mem_singleton.mp hm)
  have hu' := next_update hlt (some iter.start) true
  generalize a.update u (fun n => { n with next := some iter.start, real := true }) = b at *
  refine ⟨(hkeep w hwu).1.trans hnext, hx.congr fun r hr => hkeep r ?_, (hkeep l hlu).2.trans ho, ?_,
    (hkeep l hlu).1.trans hln⟩
  · exact hiter r hr u (by simp)
  · intro p hp
    rcases mem_follow_snoc.mp hp with hp | rfl
    · refine (hbody p (mem_follow_snoc.mpr (Or.inl hp))).congr fun r hr => hkeep r ?_
      exact hksu r (List.mem_flatMap.mpr ⟨p.1, mem_of_mem_follow hp, hr⟩) u rfl
    · exact .op hu (by simp [isLoop]) (by simp [follow]) hu'

/-- The entry of a loop, which knows its variable and its range. -/
def enterTree (r : RecId) (targ : Int) (id : Nat) (lo hi : Tree) : Tree :=
  ((Tree.mk r { code := .enteriter, targ := targ, id := id } []).snoc lo.wantScalar).snoc hi.wantScalar

def bodyTree (s u : RecId) (i j : Nat) (ks : List Tree) : Tree :=
  (grown (.mk s { code := .lineseq, id := i } []) ks).snoc (.mk u { code := .unstack, id := j } [])

def loopTree (r : RecId) (id : Nat) (ent wrap : Tree) : Tree :=
  ((Tree.mk r { code := .leaveloop, id := id } []).snoc ent).snoc wrap

theorem code_enterTree (r : RecId) (targ : Int) (id : Nat) (lo hi : Tree) :
    (enterTree r targ id lo hi).op.code = .enteriter := by
  rw [enterTree, code_snoc, code_snoc]
  rfl

theorem bodyTree_eq (s u : RecId) (i j : Nat) (ks : List Tree) :
    ∃ so : Node, so.code = .lineseq ∧
      bodyTree s u i j ks = .mk s so (ks ++ [.mk u { code := .unstack, id := j } []]) := by
  refine ⟨(bodyTree s u i j ks).op, ?_, ?_⟩
  · rw [bodyTree, code_snoc, code_grown]
    rfl
  · have hkids : (bodyTree s u i j ks).kids = ks ++ [.mk u { code := .unstack, id := j } []] := by
      rw [bodyTree, kids_snoc, kids_grown, kids_mk, List.nil_append]
    have hroot : (bodyTree s u i j ks).root = s := root_grown _ ks
    exact (mk_root_op_kids _).symm.trans (by rw [hkids, hroot])

theorem Rounds.ready {r w l s : RecId} {o wo lo so : Node} {ent iter : Tree} {body : List Tree}
    (h : Rounds a w l s lo so iter body) (ho : o.code = .leaveloop) (hec : ent.op.code = .enteriter)
    (hw : wo.code = .null) (hl : lo.code.branches = true) (hne : body ≠ []) (hent : b.Ready ent)
    (hn : (b.node r).next = none)
    (hs : ∀ q ∈ (Tree.mk w wo [.mk l lo [iter, .mk s so body]]).recs, SameLinks a b q) :
    b.Ready (.mk r o [ent, .mk w wo [.mk l lo [iter, .mk s so body]]]) := by
  have hls := hs l (by simp)
  refine .loop (by simp [isLoop, ho, hec]) hn hent (by rw [hw]; rfl) ?_ hl ?_ hne (hls.2.trans h.other)
    (fun p hp => ?_) (hls.1.trans h.next)
  · exact (hs w (root_mem_recs _)).1.trans h.wrap
  · exact h.test.congr fun q hq => hs q (by simp [hq])
  · refine (h.body p hp).congr fun q hq => hs q ?_
    have : q ∈ body.flatMap Tree.recs := List.mem_flatMap.mpr ⟨p.1, mem_of_mem_follow hp, hq⟩
    simp [this]

theorem enter_ok {α : Type} {targ : Int} {lo hi : Tree} {f : RecId → TreeM α} {v : α}
    (h : a.Site (lo :: hi :: ts))
    (hok : (do
      let ent ← new .enteriter 0
      update ent fun n => { n with targ := targ }
      appendScalar ent lo.root
      appendScalar ent hi.root
      f ent) a = .ok v b) :
    ∃ r i c, f r c = .ok v b ∧ c.Site (enterTree r targ i lo hi :: ts) := by
  obtain ⟨r, c, hnew, hok⟩ := bind_eq_ok.mp hok
  rw [bind_of_ok (update_apply _ _ _)] at hok
  obtain ⟨_, d, happ, hok⟩ := bind_eq_ok.mp hok
  obtain ⟨_, e, happ', hok⟩ := bind_eq_ok.mp hok
  have hopen := (open_of_new h (by simp) hnew).1.edit (f := fun n => { n with targ := targ })
    (by constructor <;> intros <;> first | rfl | assumption)
  have hfull := appendScalar_ok (appendScalar_ok hopen happ) happ'
  refine ⟨r, a.seq + 1, e, hok, hfull.site rfl (isLoop_of_code_ne ?_ _)⟩
  simp

theorem leave_ok {ent wrap : Tree} {r : RecId} (h : a.Forest (wrap :: ent :: ts))
    (hok : (do
      let o ← new .leaveloop 0
      append o (some ent.root)
      append o (some wrap.root)
      return o) a = .ok r b) :
    b.Forest (loopTree r (a.seq + 1) ent wrap :: ts) ∧ (b.node r).next = none ∧
      ∀ u ∈ wrap :: ent :: ts, ∀ q ∈ u.recs, SameLinks a b q := by
  obtain ⟨o, c, hnew, hok⟩ := bind_eq_ok.mp hok
  obtain ⟨hc, hnone, -, hkeep, -⟩ := new_ok h (by simp) hnew
  obtain ⟨d, happ, hd, hcd⟩ := (hc.perm ((List.Perm.swap ent wrap ts).cons _)).append
  obtain ⟨e, happ', he, hde⟩ := hd.append
  rw [root_mk] at happ
  rw [root_snoc, root_mk] at happ'
  rw [bind_of_ok happ, bind_of_ok happ'] at hok
  obtain ⟨rfl, rfl⟩ := pure_eq_ok.mp hok
  refine ⟨he, (hde.next _).trans ((hcd.next _).trans hnone), fun u hu q hq => ⟨?_, ?_⟩⟩
  · rw [hde.next, hcd.next, hkeep u hu q hq]
  · rw [hde.other, hcd.other, hkeep u hu q hq]

theorem foreach_ok {targ : Int} {lo hi : Tree} {body : List Stmt} {es : List Tree} {r : RecId}
    (h : a.Site (lo :: hi :: (es ++ ts))) (hes : es.map Tree.root = body.filterMap Stmt.expr?)
    (hok : foreach targ lo.root hi.root body a = .ok r b) :
    ∃ ks ent s u t l w i₁ i₂ i₃ i₄ i₅ i₆ i₇, Items false body es ks ∧
      b.Site (loopTree r i₁ (enterTree ent targ i₂ lo hi) ((Tree.mk w { code := .null, id := i₃ } []).snoc
        (logTree .and l i₄ (Tree.mk t { code := .iter, id := i₅ } []).wantScalar
          (bodyTree s u i₆ i₇ ks))) :: ts) := by
  obtain ⟨ent, i₂, c, hok, hent⟩ := enter_ok h hok
  obtain ⟨s, d, hblock, hok⟩ := bind_eq_ok.mp hok
  have hperm : (enterTree ent targ i₂ lo hi :: (es ++ ts)).Perm
      (es ++ enterTree ent targ i₂ lo hi :: ts) := List.perm_middle.symm
  obtain ⟨ks, i₆, hks, hopen⟩ := block_ok (hent.perm hperm) hes hblock
  obtain ⟨u, e, hnew, hok⟩ := bind_eq_ok.mp hok
  obtain ⟨_, f, happ, hok⟩ := bind_eq_ok.mp hok
  have hunstack := (open_new hopen (by simp) rfl hnew).1
  have hseq := append_ok hunstack (by rw [root_grown]; exact happ)
  change f.Open (bodyTree s u i₆ (d.seq + 1) ks) (enterTree ent targ i₂ lo hi :: ts) at hseq
  obtain ⟨t, g, hnew', hok⟩ := bind_eq_ok.mp hok
  have hiter := (open_new hseq (by simp) rfl hnew').1
  obtain ⟨so, hso, hbody⟩ := bodyTree_eq s u i₆ (d.seq + 1) ks
  have hsite := (hiter.site (by rw [hbody, op_mk, hso]; rfl)
    (isLoop_of_code_ne (by simp [hbody, hso]) _)).perm (List.Perm.swap _ _ _)
  obtain ⟨w, g', hlog, hok⟩ := bind_eq_ok.mp hok
  obtain ⟨-, l, i₄, i₃, hw⟩ := logop_ok hsite (by rw [hbody]; exact hlog)
  refine ⟨ks, ent, s, u, t, l, w, ?_⟩
  obtain ⟨lo', hlo, hlog⟩ : ∃ lo', lo'.code.branches = true ∧
      logTree .and l i₄ (Tree.mk t { code := .iter, id := f.seq + 1 } []).wantScalar
        (bodyTree s u i₆ (d.seq + 1) ks) =
      .mk l lo' [(Tree.mk t { code := .iter, id := f.seq + 1 } []).wantScalar,
        .mk s so (ks ++ [.mk u { code := .unstack, id := d.seq + 1 } []])] := by
    rw [hbody]
    exact ⟨_, rfl, rfl⟩
  obtain ⟨wo, hwo, hwrap⟩ : ∃ wo : Node, wo.code = .null ∧ ∀ k : Tree,
      (Tree.mk w { code := .null, id := i₃ } []).snoc k = .mk w wo [k] := ⟨_, rfl, fun _ => rfl⟩
  rw [hlog, hwrap] at hw
  obtain ⟨x, hlin, hlinked, hx, -⟩ := linearize_site hw (by simp [hwo])
  rw [root_mk] at hlin
  rw [bind_of_ok hlin, bind_of_ok (setNext_apply _ _ _)] at hok
  have hrounds := rounds_ok hlinked (hx.holds _ (by simp)) hx.toStand.nodup_head hwo hlo hso rfl
  have hrelinked : Relinked x (x.update u fun n =>
      { n with next := some (Tree.mk t { code := .iter, id := f.seq + 1 } []).wantScalar.start,
               real := true }) [u] := Relinked.of_next
  have hforest := hx.toForest.relink hrelinked fun q hq => by
    obtain rfl := List.mem_singleton.mp hq
    simp
  have hready : ∀ v ∈ enterTree ent targ i₂ lo hi :: ts, (x.update u fun n =>
      { n with next := some (Tree.mk t { code := .iter, id := f.seq + 1 } []).wantScalar.start,
               real := true }).Ready v := fun v hv =>
    (hx.ready v (by simp [hv])).frame hrelinked fun q hq hm =>
      hx.toStand.notMem_of_cons hv hq (by simp [List.mem_singleton.mp hm])
  obtain ⟨hb, hnone, hsame⟩ := leave_ok hforest hok
  refine ⟨x.seq + 1, i₂, i₃, i₄, f.seq + 1, i₆, d.seq + 1, hks, ?_⟩
  rw [hlog, hwrap]
  refine ⟨hb, fun v hv => ?_⟩
  rcases List.mem_cons.mp hv with rfl | hv
  · refine hrounds.ready rfl (code_enterTree ..) hwo hlo (by simp) ?_ hnone (hsame _ (by simp))
    exact (hready _ (by simp)).congr (hsame _ (by simp))
  · exact (hready v (by simp [hv])).congr (hsame v (by simp [hv]))

theorem sub_ok {stmts : List Stmt} {es : List Tree} {r : RecId} (h : a.Site (es ++ ts))
    (hes : es.map Tree.root = stmts.filterMap Stmt.expr?) (hok : sub stmts a = .ok r b) :
    ∃ ks s i j, Items true stmts es ks ∧
      b.Site (.mk r { code := .leavesub, flags := 0 ||| Flags.kids, refs := 1, id := i }
        [grown (.mk s { code := .lineseq, id := j } []) ks] :: ts) := by
  obtain ⟨o, c, hnew, hok⟩ := bind_eq_ok.mp hok
  have hopen := (open_of_new h (by simp) hnew).1
  have hsite := (hopen.site rfl (by simp [isLoop])).perm List.perm_middle.symm
  obtain ⟨s, d, hblock, hok⟩ := bind_eq_ok.mp hok
  obtain ⟨ks, j, hks, hseq⟩ := block_ok hsite hes hblock
  have hroot : (grown (.mk s { code := .lineseq, id := j } []) ks).root = s := root_grown _ ks
  have hcode : (grown (.mk s { code := .lineseq, id := j } []) ks).op.code = .lineseq :=
    code_grown _ ks
  have hs := hseq.site (by rw [hcode]; rfl) (isLoop_of_code_ne (by simp [hcode]) _)
  refine ⟨ks, s, a.seq + 1, j, hks, ?_⟩
  generalize grown (.mk s { code := .lineseq, id := j } []) ks = t at *
  have hnone : (d.node o).next = none := by
    cases hs.ready (.mk o { code := .leavesub, id := a.seq + 1 } []) (by simp) with
    | linked _ hne _ => exact absurd rfl hne
    | op _ _ hn _ => exact hn
  have ho : d.Open (.mk o { code := .leavesub, id := a.seq + 1 } []) (t :: ts) :=
    ⟨hs.toForest.perm (List.Perm.swap _ _ _), hnone, by simp, fun u hu => hs.ready u (by
      rcases List.mem_cons.mp hu with rfl | hu <;> simp [*])⟩
  rw [← hroot] at hok
  obtain ⟨_, e, happ, hok⟩ := bind_eq_ok.mp hok
  rw [bind_of_ok (update_apply _ _ _)] at hok
  obtain ⟨rfl, rfl⟩ := pure_eq_ok.mp hok
  have hfull := (append_ok ho happ).edit (f := fun n => { n with refs := 1 })
    (by constructor <;> intros <;> first | rfl | assumption)
  exact hfull.site rfl (isLoop_of_code_ne (by simp) _)

end Build

end OpTree
