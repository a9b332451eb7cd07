import OpTree.Proofs.Evaluation
import OpTree.Proofs.FreeList
import OpTree.Op.Linear

/-!
# Threading trees

When the links of execution lead through a tree the way it is evaluated, and what the linearizer
needs to make them do so: constructors of branching ops link their kids before the op itself is
linked, so a tree waits for the linearizer in one of a few states.
-/

namespace OpTree

set_option autoImplicit false

namespace Tree

/-- Each tree of a list with the op that is executed after it; `q` comes after the last one. -/
def follow : List Tree → RecId → List (Tree × RecId)
  | [], _ => []
  | [k], q => [(k, q)]
  | k :: j :: ks, q => (k, j.start) :: follow (j :: ks) q

def startAll (ks : List Tree) (q : RecId) : RecId := (ks.head?.map start).getD q

theorem start_mk (r : RecId) (o : Node) (ks : List Tree) : (mk r o ks).start = startAll ks r := by
  cases ks <;> simp [start, startAll]

theorem mem_of_mem_follow {ks : List Tree} {q : RecId} {p : Tree × RecId} (h : p ∈ follow ks q) :
    p.1 ∈ ks := by
  induction ks with
  | nil => simp [follow] at h
  | cons k ks ih =>
    cases ks with
    | nil => simp_all [follow]
    | cons j ks =>
      rcases List.mem_cons.mp h with rfl | h
      · exact List.mem_cons_self ..
      · exact List.mem_cons_of_mem k (ih h)

theorem exists_follow {ks : List Tree} {k : Tree} (h : k ∈ ks) (q : RecId) :
    ∃ p, (k, p) ∈ follow ks q := by
  induction ks with
  | nil => simp at h
  | cons j ks ih =>
    cases ks with
    | nil =>
      obtain rfl := List.mem_singleton.mp h
      exact ⟨q, List.mem_singleton.mpr rfl⟩
    | cons i ks =>
      rcases List.mem_cons.mp h with rfl | h
      · exact ⟨i.start, List.mem_cons_self ..⟩
      · obtain ⟨p, hp⟩ := ih h
        exact ⟨p, List.mem_cons_of_mem _ hp⟩

end Tree

namespace Arena

open OpTree.Tree

variable {a b c : Arena}

/-- The links lead through a tree as it is evaluated, and from its end to `q`. -/
inductive Flow (a : Arena) : Tree → Option RecId → Prop where
  | op {r : RecId} {o : Node} {ks : List Tree} {q : Option RecId}
      (hb : o.code.branches = false) (hl : isLoop o ks = false)
      (hks : ∀ p ∈ follow ks r, Flow a p.1 (some p.2)) (hq : (a.node r).next = q) :
      Flow a (.mk r o ks) q
  | logop {l : RecId} {o : Node} {x y : Tree} {q : Option RecId}
      (hb : o.code.branches = true) (hx : Flow a x (some l))
      (ho : (a.node l).other = some y.start) (hy : Flow a y q) (hq : (a.node l).next = q) :
      Flow a (.mk l o [x, y]) q
  | cond {l : RecId} {o : Node} {x y z : Tree} {q : Option RecId}
      (hb : o.code.branches = true) (hx : Flow a x (some l))
      (ho : (a.node l).other = some y.start) (hy : Flow a y q)
      (hn : (a.node l).next = some z.start) (hz : Flow a z q) :
      Flow a (.mk l o [x, y, z]) q
  /-- The body leads back to the test and not to the op that holds it. -/
  | loop {r w l s : RecId} {o wo lo so : Node} {ent iter : Tree} {body : List Tree}
      {q : Option RecId} (hl : isLoop o [ent, .mk w wo [.mk l lo [iter, .mk s so body]]] = true)
      (hw : wo.code.branches = false) (hb : lo.code.branches = true)
      (hent : Flow a ent (some iter.start)) (hiter : Flow a iter (some l))
      (hne : body ≠ []) (ho : (a.node l).other = some (Tree.mk s so body).start)
      (hbody : ∀ p ∈ follow body iter.start, Flow a p.1 (some p.2))
      (hn : (a.node l).next = some w) (hwr : (a.node w).next = some r) (hq : (a.node r).next = q) :
      Flow a (.mk r o [ent, .mk w wo [.mk l lo [iter, .mk s so body]]]) q

/-- What a run of the ops in an arena reads. -/
def code (a : Arena) (names? : Option Pad) : Code := ⟨a.recs, names?⟩

@[simp] theorem node_code (a : Arena) (names? : Option Pad) (r : RecId) :
    (a.code names?).node r = a.node r := rfl

section Runs

open Exec

variable {names? : Option Pad}

theorem runs_evalAll {code : Code} {ks : List Tree} {q : RecId}
    (h : ∀ p ∈ follow ks q, Runs code (some p.1.start) (p.1.eval names?) (some p.2)) :
    Runs code (some (startAll ks q)) (evalAll names? ks) (some q) := by
  induction ks with
  | nil =>
    rw [evalAll]
    exact Runs.refl code (some q)
  | cons k ks ih =>
    rw [evalAll]
    cases ks with
    | nil =>
      have hk := h (k, q) (List.mem_singleton.mpr rfl)
      rw [evalAll]
      exact hk.andThen (Runs.refl code (some q))
    | cons j ks =>
      have hk := h (k, j.start) (List.mem_cons_self ..)
      exact hk.andThen (ih fun p hp => h p (List.mem_cons_of_mem _ hp))

theorem isLoop_not_branches {o : Node} {ks : List Tree} (h : isLoop o ks = true) :
    o.code.branches = false := by
  simp only [isLoop, Bool.and_eq_true, beq_iff_eq] at h
  rw [h.1]
  rfl

/-- A run that enters a tree whose links are right evaluates it and goes on after it. -/
theorem Flow.runs {t : Tree} {q : Option RecId} (h : a.Flow t q) (hh : a.Holds t) :
    Runs (a.code names?) (some t.start) (t.eval names?) q := by
  induction h with
  | @op r o ks q hb hl hks hq ih =>
    rw [start_mk, eval, if_neg (by simp [hb]), if_neg (by simp [hl])]
    have hall := runs_evalAll fun p hp => ih p hp (hh.kid (mem_of_mem_follow hp))
    exact hall.andThen (Runs.single hh.fits.op hb hq)
  | @logop l o x y q hb hx ho hy hq ihx ihy =>
    rw [eval, if_pos hb, evalBranch]
    refine Runs.andThen (ihx (hh.kid (by simp))) (Runs.branch hh.fits.op hb ?_ ?_)
    · rw [node_code, ho]
      exact ihy (hh.kid (by simp))
    · rw [node_code, hq, evalAll]
      exact Runs.refl _ q
  | @cond l o x y z q hb hx ho hy hn hz ihx ihy ihz =>
    rw [eval, if_pos hb, evalBranch]
    refine Runs.andThen (ihx (hh.kid (by simp))) (Runs.branch hh.fits.op hb ?_ ?_)
    · rw [node_code, ho]
      exact ihy (hh.kid (by simp))
    · rw [node_code, hn, evalAll, evalAll]
      exact (ihz (hh.kid (by simp))).andThen (Runs.refl _ q)
  | @loop r w l s o wo lo so ent iter body q hl hw hb hent hiter hne ho hbody hn hwr hq ihent ihiter
      ihbody =>
    have hwh : a.Holds (.mk w wo [.mk l lo [iter, .mk s so body]]) := hh.kid (by simp)
    have hlh : a.Holds (.mk l lo [iter, .mk s so body]) := hwh.kid (by simp)
    have hsh : a.Holds (.mk s so body) := hlh.kid (by simp)
    have hround : Runs (a.code names?) ((a.code names?).node l).other (evalAll names? body)
        (some iter.start) := by
      have hstart : (Tree.mk s so body).start = startAll body iter.start := by
        cases body with
        | nil => exact absurd rfl hne
        | cons k ks => simp [start, startAll]
      rw [node_code, ho, hstart]
      exact runs_evalAll fun p hp => ihbody p hp (hsh.kid (mem_of_mem_follow hp))
    have hloop : Runs (a.code names?) (some iter.start)
        (Eval.loop (eval names? iter) (Eval.takes names? lo) (evalAll names? body)) (some w) := by
      refine Runs.loop hlh.fits.op hb (ihiter (hlh.kid (by simp))) hround
        (thrifty_eval names? iter iter (self_mem_subtrees iter)) ?_ hn
      exact thrifty_evalAll_of fun k _ => thrifty_eval names? k k (self_mem_subtrees k)
    rw [eval, if_neg (by simp [isLoop_not_branches hl]), if_pos hl, evalLoop, evalRounds]
    exact ((ihent (hh.kid (by simp))).andThen (hloop.andThen (Runs.single hwh.fits.op hw hwr))).andThen
      (Runs.single hh.fits.op (isLoop_not_branches hl) hq)

end Runs

/-- Two arenas agree on the links of execution of a record. -/
def SameLinks (a b : Arena) (r : RecId) : Prop :=
  (b.node r).next = (a.node r).next ∧ (b.node r).other = (a.node r).other

theorem Flow.congr {t : Tree} {q : Option RecId} (h : a.Flow t q)
    (hs : ∀ r ∈ t.recs, SameLinks a b r) : b.Flow t q := by
  induction h with
  | @op r o ks q hb hl hks hq ih =>
    refine .op hb hl (fun p hp => ih p hp fun s hm => hs s ?_) ((hs r (root_mem_recs _)).1.trans hq)
    exact kid_recs_subset (mem_of_mem_follow hp) hm
  | @logop l o x y q hb hx ho hy hq ihx ihy =>
    have hl := hs l (root_mem_recs _)
    refine .logop hb (ihx fun s hm => hs s ?_) (hl.2.trans ho) (ihy fun s hm => hs s ?_)
      (hl.1.trans hq)
    · simp [hm]
    · simp [hm]
  | @cond l o x y z q hb hx ho hy hn hz ihx ihy ihz =>
    have hl := hs l (root_mem_recs _)
    refine .cond hb (ihx fun s hm => hs s ?_) (hl.2.trans ho) (ihy fun s hm => hs s ?_)
      (hl.1.trans hn) (ihz fun s hm => hs s ?_)
    · simp [hm]
    · simp [hm]
    · simp [hm]
  | @loop r w l s o wo lo so ent iter body q hl hw hb hent hiter hne ho hbody hn hwr hq ihent ihiter
      ihbody =>
    have hbl := hs l (by simp)
    refine .loop hl hw hb (ihent fun k hm => hs k ?_) (ihiter fun k hm => hs k ?_) hne
      (hbl.2.trans ho) (fun p hp => ihbody p hp fun k hm => hs k ?_) (hbl.1.trans hn)
      ((hs w (by simp)).1.trans hwr) ((hs r (root_mem_recs _)).1.trans hq)
    · simp [hm]
    · simp [hm]
    · have : k ∈ body.flatMap Tree.recs := List.mem_flatMap.mpr ⟨p.1, mem_of_mem_follow hp, hm⟩
      simp [this]

theorem Flow.next_eq {t : Tree} {q : Option RecId} (h : a.Flow t q)
    (hb : t.op.code.branches = false) : (a.node t.root).next = q := by
  cases h with
  | op _ _ _ hq => exact hq
  | logop hb' => exact absurd (hb.symm.trans hb') (by simp)
  | cond hb' => exact absurd (hb.symm.trans hb') (by simp)
  | loop _ _ _ _ _ _ _ _ _ _ hq => exact hq

theorem Flow.redirect {t : Tree} {q q' : Option RecId} (h : a.Flow t q)
    (hb : t.op.code.branches = false) (hs : ∀ r ∈ t.kids.flatMap Tree.recs, SameLinks a b r)
    (hq : (b.node t.root).next = q') : b.Flow t q' := by
  cases h with
  | op hb hl hks _ =>
    refine .op hb hl (fun p hp => (hks p hp).congr fun s hm => hs s ?_) hq
    exact List.mem_flatMap.mpr ⟨p.1, mem_of_mem_follow hp, hm⟩
  | logop hb' => exact absurd (hb.symm.trans hb') (by simp)
  | cond hb' => exact absurd (hb.symm.trans hb') (by simp)
  | @loop r w l s o wo lo so ent iter body _ hl hw hlb hent hiter hne ho hbody hn hwr _ =>
    have hbl := hs l (by simp)
    refine .loop hl hw hlb (hent.congr fun k hm => hs k ?_) (hiter.congr fun k hm => hs k ?_) hne
      (hbl.2.trans ho) (fun p hp => (hbody p hp).congr fun k hm => hs k ?_) (hbl.1.trans hn)
      ((hs w (by simp)).1.trans hwr) hq
    · simp [hm]
    · simp [hm]
    · have : k ∈ body.flatMap Tree.recs := List.mem_flatMap.mpr ⟨p.1, mem_of_mem_follow hp, hm⟩
      simp [this]

/-- A linked tree floats: its root leads to its start. -/
def Linked (a : Arena) (t : Tree) : Prop := a.Flow t (some t.start)

/-- The states in which a tree waits for the linearizer. -/
inductive Ready (a : Arena) : Tree → Prop where
  /-- The root of a unit is the last op to be linked. -/
  | linked {t : Tree} (hb : t.op.code.branches = false) (hs : t.op.code ≠ .leavesub)
      (h : a.Linked t) : Ready a t
  | op {r : RecId} {o : Node} {ks : List Tree} (hb : o.code.branches = false)
      (hl : isLoop o ks = false) (hn : (a.node r).next = none) (hks : ∀ k ∈ ks, Ready a k) :
      Ready a (.mk r o ks)
  /-- A short-circuit op floats under a null op, to which its second kid leads already. -/
  | logop {n l : RecId} {o lo : Node} {x y : Tree} (ho : o.code.branches = false)
      (hl : isLoop o [.mk l lo [x, y]] = false) (hn : (a.node n).next = none)
      (hb : lo.code.branches = true) (hf : (a.node l).next = some x.start)
      (hx : a.Flow x (some l)) (hy : a.Flow y (some n)) (hly : (a.node l).other = some y.start) :
      Ready a (.mk n o [.mk l lo [x, y]])
  /-- The rounds of a loop are linked, and its entry and its end are not. -/
  | loop {r w l s : RecId} {o wo lo so : Node} {ent iter : Tree} {body : List Tree}
      (hl : isLoop o [ent, .mk w wo [.mk l lo [iter, .mk s so body]]] = true)
      (hn : (a.node r).next = none) (hent : Ready a ent)
      (hw : wo.code.branches = false) (hf : (a.node w).next = some iter.start)
      (hb : lo.code.branches = true) (hiter : a.Flow iter (some l)) (hne : body ≠ [])
      (ho : (a.node l).other = some (Tree.mk s so body).start)
      (hbody : ∀ p ∈ follow body iter.start, a.Flow p.1 (some p.2))
      (hln : (a.node l).next = some w) :
      Ready a (.mk r o [ent, .mk w wo [.mk l lo [iter, .mk s so body]]])

theorem Ready.not_branches {t : Tree} (h : a.Ready t) : t.op.code.branches = false := by
  cases h with
  | linked hb => exact hb
  | op hb => exact hb
  | logop ho => exact ho
  | loop hl => exact isLoop_not_branches hl

theorem Ready.congr {t : Tree} (h : a.Ready t) (hs : ∀ r ∈ t.recs, SameLinks a b r) : b.Ready t := by
  induction h with
  | linked hb hl h => exact .linked hb hl (Flow.congr h hs)
  | @op r o ks hb hl hn hks ih =>
    refine .op hb hl ((hs r (root_mem_recs _)).1.trans hn) fun k hk => ih k hk fun s hm => hs s ?_
    exact kid_recs_subset hk hm
  | @logop n l o lo x y ho hl hn hb hf hx hy hly =>
    have hbl := hs l (by simp)
    refine .logop ho hl ((hs n (root_mem_recs _)).1.trans hn) hb (hbl.1.trans hf)
      (hx.congr fun k hm => hs k ?_) (hy.congr fun k hm => hs k ?_) (hbl.2.trans hly)
    · simp [hm]
    · simp [hm]
  | @loop r w l s o wo lo so ent iter body hl hn hent hw hf hb hiter hne ho hbody hln ih =>
    have hbl := hs l (by simp)
    refine .loop hl ((hs r (root_mem_recs _)).1.trans hn) (ih fun k hm => hs k ?_) hw
      ((hs w (by simp)).1.trans hf) hb (hiter.congr fun k hm => hs k ?_) hne (hbl.2.trans ho)
      (fun p hp => (hbody p hp).congr fun k hm => hs k ?_) (hbl.1.trans hln)
    · simp [hm]
    · simp [hm]
    · have : k ∈ body.flatMap Tree.recs := List.mem_flatMap.mpr ⟨p.1, mem_of_mem_follow hp, hm⟩
      simp [this]

section Ops

variable {g : RecId → Node → Node}

theorem follow_mapOps (ks : List Tree) (q : RecId) :
    follow (ks.map (mapOps g)) q = (follow ks q).map fun p => (p.1.mapOps g, p.2) := by
  induction ks with
  | nil => rfl
  | cons k ks ih =>
    cases ks with
    | nil => rfl
    | cons j ks =>
      simp only [List.map_cons, follow, start_mapOps] at *
      rw [ih]

/-- Whether an op is a loop is told by the rules of the op and of its first kid. -/
theorem isLoop_mapOps {o o' : Node} {ks : List Tree} (ho : o.SameShape o')
    (hks : ∀ k ∈ ks, k.op.SameShape (g k.root k.op)) :
    isLoop o' (ks.map (mapOps g)) = isLoop o ks := by
  have hcode : (o'.code == .leaveloop) = (o.code == .leaveloop) := by
    rw [Bool.eq_iff_iff, beq_iff_eq, beq_iff_eq, ho.leaveloop]
  rw [isLoop, isLoop, hcode]
  cases ks with
  | nil => rfl
  | cons k ks =>
    have hk := (hks k (List.mem_cons_self ..)).enteriter
    simp only [List.map_cons, List.head?_cons, Option.any_some, op_mapOps]
    congr 1
    rw [Bool.eq_iff_iff, beq_iff_eq, beq_iff_eq, hk]

theorem Flow.mapOps {t : Tree} {q : Option RecId} (h : a.Flow t q)
    (hg : ∀ u ∈ t.subtrees, u.op.SameShape (g u.root u.op)) : a.Flow (t.mapOps g) q := by
  induction h with
  | @op r o ks q hb hl hks hq ih =>
    have ho : o.SameShape (g r o) := hg _ (self_mem_subtrees _)
    rw [mapOps_mk]
    refine .op (ho.branches.trans hb) ?_ (fun p hp => ?_) hq
    · have hkids : ∀ k ∈ ks, k.op.SameShape (g k.root k.op) := fun k hk => hg k (kid_mem_subtrees hk)
      rw [isLoop_mapOps ho hkids, hl]
    · rw [follow_mapOps] at hp
      obtain ⟨p', hp', rfl⟩ := List.mem_map.mp hp
      exact ih p' hp' fun u hu => hg u (subtrees_trans (kid_mem_subtrees (mem_of_mem_follow hp')) hu)
  | @logop l o x y q hb hx ho hy hq ihx ihy =>
    have hlo : o.SameShape (g l o) := hg _ (self_mem_subtrees _)
    rw [mapOps_mk]
    refine .logop (hlo.branches.trans hb) (ihx fun u hu => hg u ?_) ?_ (ihy fun u hu => hg u ?_) hq
    · exact subtrees_trans (kid_mem_subtrees (by simp)) hu
    · rw [start_mapOps, ho]
    · exact subtrees_trans (kid_mem_subtrees (by simp)) hu
  | @cond l o x y z q hb hx ho hy hn hz ihx ihy ihz =>
    have hlo : o.SameShape (g l o) := hg _ (self_mem_subtrees _)
    rw [mapOps_mk]
    refine .cond (hlo.branches.trans hb) (ihx fun u hu => hg u ?_) ?_ (ihy fun u hu => hg u ?_) ?_
      (ihz fun u hu => hg u ?_)
    · exact subtrees_trans (kid_mem_subtrees (by simp)) hu
    · rw [start_mapOps, ho]
    · exact subtrees_trans (kid_mem_subtrees (by simp)) hu
    · rw [start_mapOps, hn]
    · exact subtrees_trans (kid_mem_subtrees (by simp)) hu
  | @loop r w l s o wo lo so ent iter body q hl hw hb hent hiter hne ho hbody hn hwr hq ihent ihiter
      ihbody =>
    have hro : o.SameShape (g r o) := hg _ (self_mem_subtrees _)
    have hkid : ∀ u ∈ [ent, Tree.mk w wo [.mk l lo [iter, .mk s so body]]],
        u.op.SameShape (g u.root u.op) := fun u hu => hg u (kid_mem_subtrees hu)
    have hwrap := subtrees_trans (t := .mk r o [ent, .mk w wo [.mk l lo [iter, .mk s so body]]])
      (kid_mem_subtrees (List.mem_cons_of_mem _ (List.mem_singleton.mpr rfl)))
      (kid_mem_subtrees (List.mem_singleton.mpr rfl))
    have hseq := subtrees_trans hwrap
      (kid_mem_subtrees (List.mem_cons_of_mem _ (List.mem_singleton.mpr rfl)))
    have hwo : wo.SameShape (g w wo) :=
      hkid (.mk w wo [.mk l lo [iter, .mk s so body]]) (by simp)
    have hloop := isLoop_mapOps hro hkid
    simp only [mapOps_mk, List.map_cons, List.map_nil] at hloop ⊢
    refine .loop (hloop.trans hl) (hwo.branches.trans hw)
      ((hg _ hwrap).branches.trans hb) ?_ ?_ (by simpa using hne) ?_ (fun p hp => ?_) hn hwr hq
    · rw [start_mapOps]
      exact ihent fun u hu => hg u (subtrees_trans (kid_mem_subtrees (by simp)) hu)
    · exact ihiter fun u hu => hg u (subtrees_trans hwrap (subtrees_trans (kid_mem_subtrees (by simp)) hu))
    · rw [ho, ← mapOps_mk, start_mapOps]
    · rw [start_mapOps, follow_mapOps] at hp
      obtain ⟨p', hp', rfl⟩ := List.mem_map.mp hp
      refine ihbody p' hp' fun u hu => hg u (subtrees_trans hseq ?_)
      exact subtrees_trans (kid_mem_subtrees (mem_of_mem_follow hp')) hu

theorem Ready.mapOps {t : Tree} (h : a.Ready t)
    (hg : ∀ u ∈ t.subtrees, u.op.SameShape (g u.root u.op)) : a.Ready (t.mapOps g) := by
  induction h with
  | @linked t hb hl h =>
    have ht := hg t (self_mem_subtrees t)
    refine .linked ?_ ?_ ?_
    · rw [op_mapOps, ht.branches, hb]
    · rwa [op_mapOps, Ne, ht.leavesub]
    · rw [Linked, start_mapOps]
      exact Flow.mapOps h hg
  | @op r o ks hb hl hn hks ih =>
    have ho : o.SameShape (g r o) := hg _ (self_mem_subtrees _)
    rw [mapOps_mk]
    refine .op (ho.branches.trans hb) ?_ hn fun k hk => ?_
    · have hkids : ∀ k ∈ ks, k.op.SameShape (g k.root k.op) := fun k hk => hg k (kid_mem_subtrees hk)
      rw [isLoop_mapOps ho hkids, hl]
    · obtain ⟨j, hj, rfl⟩ := List.mem_map.mp hk
      exact ih j hj fun u hu => hg u (subtrees_trans (kid_mem_subtrees hj) hu)
  | @logop n l o lo x y ho hl hn hb hf hx hy hly =>
    have hno : o.SameShape (g n o) := hg _ (self_mem_subtrees _)
    have hll : Tree.mk l lo [x, y] ∈ (Tree.mk n o [.mk l lo [x, y]]).subtrees :=
      kid_mem_subtrees (List.mem_singleton.mpr rfl)
    have hkids : ∀ k ∈ [Tree.mk l lo [x, y]], k.op.SameShape (g k.root k.op) := fun k hk =>
      hg k (kid_mem_subtrees hk)
    have hloop := isLoop_mapOps hno hkids
    simp only [mapOps_mk, List.map_cons, List.map_nil] at hloop ⊢
    refine .logop (hno.branches.trans ho) (hloop.trans hl) hn ((hg _ hll).branches.trans hb) ?_
      (hx.mapOps fun u hu => hg u ?_) (hy.mapOps fun u hu => hg u ?_) ?_
    · rw [start_mapOps, hf]
    · exact subtrees_trans hll (subtrees_trans (kid_mem_subtrees (by simp)) hu)
    · exact subtrees_trans hll (subtrees_trans (kid_mem_subtrees (by simp)) hu)
    · rw [start_mapOps, hly]
  | @loop r w l s o wo lo so ent iter body hl hn hent hw hf hb hiter hne ho hbody hln ih =>
    have hro : o.SameShape (g r o) := hg _ (self_mem_subtrees _)
    have hkid : ∀ u ∈ [ent, Tree.mk w wo [.mk l lo [iter, .mk s so body]]],
        u.op.SameShape (g u.root u.op) := fun u hu => hg u (kid_mem_subtrees hu)
    have hwrap := subtrees_trans (t := .mk r o [ent, .mk w wo [.mk l lo [iter, .mk s so body]]])
      (kid_mem_subtrees (List.mem_cons_of_mem _ (List.mem_singleton.mpr rfl)))
      (kid_mem_subtrees (List.mem_singleton.mpr rfl))
    have hseq := subtrees_trans hwrap
      (kid_mem_subtrees (List.mem_cons_of_mem _ (List.mem_singleton.mpr rfl)))
    have hwo : wo.SameShape (g w wo) :=
      hkid (.mk w wo [.mk l lo [iter, .mk s so body]]) (by simp)
    have hloop := isLoop_mapOps hro hkid
    simp only [mapOps_mk, List.map_cons, List.map_nil] at hloop ⊢
    refine .loop (hloop.trans hl) hn (ih fun u hu => hg u ?_)
      (hwo.branches.trans hw) ?_ ((hg _ hwrap).branches.trans hb)
      (hiter.mapOps fun u hu => hg u ?_) (by simpa using hne) ?_ (fun p hp => ?_) hln
    · exact subtrees_trans (kid_mem_subtrees (by simp)) hu
    · rw [start_mapOps, hf]
    · exact subtrees_trans hwrap (subtrees_trans (kid_mem_subtrees (by simp)) hu)
    · rw [ho, ← mapOps_mk, start_mapOps]
    · rw [start_mapOps, follow_mapOps] at hp
      obtain ⟨p', hp', rfl⟩ := List.mem_map.mp hp
      refine (hbody p' hp').mapOps fun u hu => hg u (subtrees_trans hseq ?_)
      exact subtrees_trans (kid_mem_subtrees (mem_of_mem_follow hp')) hu

end Ops

end Arena

end OpTree
