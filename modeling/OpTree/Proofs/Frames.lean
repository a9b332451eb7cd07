import OpTree.Proofs.Edges

/-!
# Loops around ops

Which loops are open before and after each op of a tree, read off the tree alone. Along every step of the order of
execution the loops that are open after the one op are those that are open before the other.
-/

namespace OpTree

set_option autoImplicit false

namespace Tree

/-- The slots of the loops that are open before and after each op: an op does its turn, and all kids end with the
loops open that are open before their parent. -/
structure Leveled (into out : RecId → List Int) (t : Tree) : Prop where
  turns : ∀ u ∈ t.subtrees, u.op.turn.Leads (into u.root) (out u.root)
  level : ∀ u ∈ t.subtrees, ∀ k ∈ u.kids, out k.root = into u.root

section Leveled

variable {into out : RecId → List Int} {t u k : Tree}

theorem Leveled.subtree (h : Leveled into out t) (hu : u ∈ t.subtrees) : Leveled into out u where
  turns v hv := h.turns v (subtrees_trans hu hv)
  level v hv := h.level v (subtrees_trans hu hv)

theorem Leveled.kid (h : Leveled into out t) (hk : k ∈ t.kids) : Leveled into out k := h.subtree (kid_mem_subtrees hk)

theorem Leveled.mapOps {g : RecId → Node → Node} (h : Leveled into out t)
    (hg : ∀ u ∈ t.subtrees, (g u.root u.op).turn = u.op.turn) : Leveled into out (t.mapOps g) := by
  constructor
  · intro u hu
    rw [subtrees_mapOps] at hu
    obtain ⟨v, hv, rfl⟩ := List.mem_map.mp hu
    rw [op_mapOps, root_mapOps, hg v hv]
    exact h.turns v hv
  · intro u hu k' hk'
    rw [subtrees_mapOps] at hu
    obtain ⟨v, hv, rfl⟩ := List.mem_map.mp hu
    rw [kids_mapOps] at hk'
    obtain ⟨k, hk, rfl⟩ := List.mem_map.mp hk'
    rw [root_mapOps, root_mapOps]
    exact h.level v hv k hk

theorem Leveled.flat (h : Leveled into out t) (hs : t.op.turn = .stays) : out t.root = into t.root := by
  have hturn := h.turns t t.self_mem_subtrees
  rwa [hs] at hturn

theorem Leveled.kid_out (h : Leveled into out t) (hk : k ∈ t.kids) : out k.root = into t.root :=
  h.level t t.self_mem_subtrees k hk

theorem Leveled.exit (h : Leveled into out t) {e : RecId} (he : Exit t e) : out e = out t.root := by
  induction he with
  | root => rfl
  | @arm l e o x z ys ho hz _ ih =>
    have hk : z ∈ (Tree.mk l o (x :: ys)).kids := List.mem_cons_of_mem x hz
    calc out e = out z.root := ih (h.kid hk)
      _ = into l := h.kid_out hk
      _ = out l := (h.flat (Node.turn_of_logop ho)).symm

/-- A tree starts with the loops open that are open at its end, unless it is there to open one. -/
theorem Leveled.into_start (h : Leveled into out t) (hn : t.Nested) :
    ((∀ s, t.op.turn ≠ .opens s) → into t.start = out t.root) ∧
      ∀ s, t.op.turn = .opens s → into t.start = into t.root := by
  induction t using induct with
  | h r o ks ih =>
    have hturn : o.turn.Leads (into r) (out r) := h.turns _ (self_mem_subtrees _)
    cases ks with
    | nil =>
      refine ⟨fun hs => ?_, fun _ _ => rfl⟩
      cases ho : o.turn with
      | stays =>
        rw [ho] at hturn
        exact hturn.symm
      | opens s => exact absurd ho (hs s)
      | closes =>
        obtain ⟨k, s, hk, -⟩ := hn.closes _ (self_mem_subtrees _) ho
        cases hk
    | cons k ks =>
      obtain ⟨hplain, henter⟩ := ih k (List.mem_cons_self ..) (h.kid (List.mem_cons_self ..))
        (hn.kid (List.mem_cons_self ..))
      have hlevel : out k.root = into r := h.kid_out (List.mem_cons_self ..)
      have hbelow : o.turn ≠ .closes → into (Tree.mk r o (k :: ks)).start = into r := fun hc =>
        (hplain fun s hs => hc (hn.opens _ (self_mem_subtrees _) k (List.mem_cons_self ..) s hs).1).trans hlevel
      refine ⟨fun hs => ?_, fun s hs => hbelow (by rw [op_mk] at hs; rw [hs]; exact nofun)⟩
      cases ho : o.turn with
      | stays =>
        rw [ho] at hturn
        exact (hbelow (by rw [ho]; exact nofun)).trans hturn.symm
      | opens s => exact absurd ho (hs s)
      | closes =>
        -- the first kid opens the loop that the op closes
        obtain ⟨k', s, hk', hopens⟩ := hn.closes _ (self_mem_subtrees _) ho
        obtain rfl : k = k' := Option.some.inj hk'
        have hturn' := h.turns k (kid_mem_subtrees (List.mem_cons_self ..))
        rw [hopens] at hturn'
        rw [ho] at hturn
        obtain ⟨s', hs'⟩ := hturn
        have hin : s' :: out r = s :: into k.root := by rw [← hs', ← hlevel, hturn']
        exact (henter s hopens).trans (List.cons.inj hin).2.symm

/-- A kid that opens no loop is started with the loops open that are open before its parent. -/
theorem Leveled.start_kid (h : Leveled into out t) (hn : t.Nested) (hk : k ∈ t.kids)
    (hs : ∀ s, k.op.turn ≠ .opens s) : into k.start = into t.root :=
  (((h.kid hk).into_start (hn.kid hk)).1 hs).trans (h.kid_out hk)

theorem mem_follow_tail {ks : List Tree} {q : RecId} {p : Tree × RecId} (h : p ∈ follow ks q) :
    p.2 = q ∨ ∃ k ∈ ks.tail, p.2 = k.start := by
  induction ks with
  | nil => simp [follow] at h
  | cons k ks ih =>
    cases ks with
    | nil =>
      rw [List.mem_singleton.mp h]
      exact Or.inl rfl
    | cons j ks =>
      rcases List.mem_cons.mp h with rfl | h
      · exact Or.inr ⟨j, List.mem_cons_self .., rfl⟩
      · rcases ih h with hq | ⟨i, hi, hs⟩
        · exact Or.inl hq
        · exact Or.inr ⟨i, List.mem_cons_of_mem j hi, hs⟩

theorem Nested.tail (hn : t.Nested) (hd : t.recs.Nodup) (hk : k ∈ t.kids.tail) (s : Int) : k.op.turn ≠ .opens s := by
  intro hs
  obtain ⟨-, hhead⟩ := hn.opens t t.self_mem_subtrees k (List.mem_of_mem_tail hk) s hs
  have hkids := nodup_of_flatMap_recs (nodup_kids hd)
  cases hks : t.kids with
  | nil =>
    rw [hks] at hk
    cases hk
  | cons j ks =>
    rw [hks] at hk hhead hkids
    obtain rfl := Option.some.inj hhead
    exact (List.nodup_cons.mp hkids).1 hk

theorem Nested.plain_kid (hn : t.Nested) (ho : t.op.turn ≠ .closes) (hk : k ∈ t.kids) (s : Int) :
    k.op.turn ≠ .opens s := fun hs => ho (hn.opens t t.self_mem_subtrees k hk s hs).1

theorem Leveled.follow (h : Leveled into out t) (hn : t.Nested) (hd : t.recs.Nodup) {p : Tree × RecId}
    (hp : p ∈ follow t.kids t.root) : out p.1.root = into p.2 := by
  rw [h.kid_out (mem_of_mem_follow hp)]
  rcases mem_follow_tail hp with hq | ⟨k, hk, hq⟩
  · rw [hq]
  · rw [hq]
    exact (h.start_kid hn (List.mem_of_mem_tail hk) (hn.tail hd hk)).symm

/-- The same at the joints and the arms of the rounds of a loop, where all ops have the same loops around them. -/
theorem Leveled.rounds (h : Leveled into out t) (hn : t.Nested) {d : Rounds}
    (hr : rounds? t.kids = some d) :
    (∀ p ∈ (d.plan t.root).joints, out p.1.root = into p.2) ∧ ∀ p ∈ (d.plan t.root).arms, out p.1 = into p.2 := by
  obtain ⟨wo, lo, so, hw, hl, hs, hkids⟩ := rounds?_eq_some hr
  have hwrap : Tree.mk d.wrap wo [.mk d.branch lo [d.test, .mk d.seq so d.body]] ∈ t.kids.tail := by simp [hkids]
  have hwk := List.mem_of_mem_tail hwrap
  have hbranch : Tree.mk d.branch lo [d.test, .mk d.seq so d.body] ∈
      (Tree.mk d.wrap wo [.mk d.branch lo [d.test, .mk d.seq so d.body]]).kids := List.mem_singleton_self _
  have htest : d.test ∈ (Tree.mk d.branch lo [d.test, .mk d.seq so d.body]).kids := List.mem_cons_self ..
  have hseq : Tree.mk d.seq so d.body ∈ (Tree.mk d.branch lo [d.test, .mk d.seq so d.body]).kids := by simp
  have hw' : wo.turn = .stays := Node.turn_of_ne (by rw [hw]; exact nofun) (by rw [hw]; exact nofun)
  have hs' : so.turn = .stays := Node.turn_of_ne (by rw [hs]; exact nofun) (by rw [hs]; exact nofun)
  have hl' : lo.turn = .stays := Node.turn_of_logop hl
  have hlw := h.kid hwk
  have hlb := hlw.kid hbranch
  have hls := hlb.kid hseq
  have hnb := (hn.kid hwk).kid hbranch
  have ew : out d.wrap = into t.root := h.kid_out hwk
  have ew' : into d.wrap = into t.root := (hlw.flat hw').symm.trans ew
  have eb : out d.branch = into t.root := (hlw.kid_out hbranch).trans ew'
  have eb' : into d.branch = into t.root := (hlb.flat hl').symm.trans eb
  have es : into d.seq = into t.root := (hls.flat hs').symm.trans ((hlb.kid_out hseq).trans eb')
  have et : into d.test.start = into t.root :=
    (hlb.start_kid hnb htest (hnb.plain_kid (by rw [op_mk, hl']; exact nofun) htest)).trans eb'
  have hbody : ∀ k ∈ d.body, out k.root = into t.root ∧ into k.start = into t.root := fun k hk =>
    ⟨(hls.kid_out hk).trans es, (hls.start_kid (hnb.kid hseq) hk
      ((hnb.kid hseq).plain_kid (by rw [op_mk, hs']; exact nofun) hk)).trans es⟩
  constructor
  · intro p hp
    rcases List.mem_cons.mp hp with rfl | hp
    · rw [et]
      exact h.kid_out (by simp [hkids])
    rcases List.mem_cons.mp hp with rfl | hp
    · rw [eb']
      exact (hlb.kid_out htest).trans eb'
    rw [(hbody p.1 (mem_of_mem_follow hp)).1]
    rcases mem_follow_tail hp with hq | ⟨k, hk, hq⟩
    · rw [hq, et]
    · rw [hq, (hbody k (List.mem_of_mem_tail hk)).2]
  · intro p hp
    rcases List.mem_append.mp hp with hp | hp
    · obtain ⟨k, hk, rfl⟩ := List.mem_map.mp hp
      rw [eb, (hbody k (List.mem_of_mem_head? (Option.mem_toList.mp hk))).2]
    rcases List.mem_cons.mp hp with rfl | hp
    · rw [eb, ew']
    · rw [List.mem_singleton.mp hp, ew]

/-- A step of the order of execution goes from one op to another with the same loops open. -/
theorem Leveled.edge (h : Leveled into out t) (hn : t.Nested) (hd : t.recs.Nodup) {e q : RecId} (he : Edge t e q) :
    out e = into q := by
  have hplan : ∀ t : Tree, Leveled into out t → t.Nested → t.recs.Nodup →
      (∀ p ∈ t.plan.joints, out p.1.root = into p.2) ∧ ∀ p ∈ t.plan.arms, out p.1 = into p.2 := by
    rintro ⟨r, o, ks⟩ h hn hd
    rw [plan]
    split
    · rename_i ho
      have hflat : out r = into r := h.flat (Node.turn_of_logop ho)
      have hplain : ∀ k ∈ ks, ∀ s, k.op.turn ≠ .opens s := fun k hk =>
        hn.plain_kid (fun hc => by cases (Node.turn_of_logop ho).symm.trans hc) hk
      constructor
      · intro p hp
        obtain ⟨x, hx, rfl⟩ := List.mem_map.mp hp
        exact h.kid_out (List.mem_of_mem_take hx)
      · intro p hp
        obtain ⟨z, hz, rfl⟩ := List.mem_map.mp hp
        have hk := List.mem_of_mem_drop hz
        exact hflat.trans (h.start_kid hn hk (hplain z hk)).symm
    · split
      · rename_i d hd'
        refine h.rounds hn ?_
        split at hd'
        · exact hd'
        · cases hd'
      · exact ⟨fun p hp => h.follow hn hd hp, fun p hp => by cases hp⟩
  induction he with
  | @joint t p e hp he =>
    have hk := part_mem hd ((plan_fits hd).joint p hp)
    rw [(h.subtree hk).exit he]
    exact (hplan t h hn hd).1 p hp
  | @arm t p hp => exact (hplan t h hn hd).2 p hp
  | part hk _ ih => exact ih (h.subtree (part_mem hd hk)) (hn.subtree (part_mem hd hk)) (nodup_part hd hk)

end Leveled

/-- The loops that are open before the root of a tree, given those after it. -/
def inner (t : Tree) (fs : List Int) : List Int :=
  match t.op.turn with
  | .stays => fs
  | .opens _ => fs.tail
  | .closes => (t.kids.head?.bind fun k => k.op.turn.slot?).toList ++ fs

/-- The loops around a tree: one that the tree opens itself is not among them. -/
def outer (t : Tree) (fs : List Int) : List Int :=
  match t.op.turn with
  | .opens _ => fs.tail
  | _ => fs

theorem outer_of_plain {t : Tree} (h : ∀ s, t.op.turn ≠ .opens s) (fs : List Int) : t.outer fs = fs := by
  unfold outer
  split
  · exact absurd ‹_› (h _)
  · rfl

theorem inner_of_ne {t : Tree} (h : t.op.turn ≠ .closes) (fs : List Int) : t.inner fs = t.outer fs := by
  unfold inner outer
  split <;> simp_all

theorem inner_of_closes {t k : Tree} {s : Int} (h : t.op.turn = .closes) (hk : t.kids.head? = some k)
    (hs : k.op.turn = .opens s) (fs : List Int) : t.inner fs = s :: t.outer fs := by
  simp [inner, outer, h, hk, hs, Turn.slot?]

mutual

/-- The loops that are open before and after an op of a tree, given those after the tree. -/
def frames : Tree → List Int → RecId → List Int × List Int
  | mk r o ks, fs, q =>
    if q = r then ((mk r o ks).inner fs, fs) else framesAll ks ((mk r o ks).inner fs) q

def framesAll : List Tree → List Int → RecId → List Int × List Int
  | [], _, _ => ([], [])
  | k :: ks, fs, q => if q ∈ k.recs then frames k fs q else framesAll ks fs q

end

theorem frames_root (t : Tree) (fs : List Int) : t.frames fs t.root = (t.inner fs, fs) := by
  obtain ⟨r, o, ks⟩ := t
  simp [frames]

theorem framesAll_cases (ks : List Tree) (fs : List Int) (q : RecId) :
    (∃ k ∈ ks, q ∈ k.recs ∧ framesAll ks fs q = k.frames fs q) ∨
      (∀ k ∈ ks, q ∉ k.recs) ∧ framesAll ks fs q = ([], []) := by
  induction ks with
  | nil => exact Or.inr ⟨nofun, rfl⟩
  | cons j ks ih =>
    rw [framesAll]
    by_cases hj : q ∈ j.recs
    · rw [if_pos hj]
      exact Or.inl ⟨j, List.mem_cons_self .., hj, rfl⟩
    · rw [if_neg hj]
      rcases ih with ⟨k, hk, hq, he⟩ | ⟨hks, he⟩
      · exact Or.inl ⟨k, List.mem_cons_of_mem j hk, hq, he⟩
      · exact Or.inr ⟨List.forall_mem_cons.mpr ⟨hj, hks⟩, he⟩

theorem frames_kid {t k : Tree} {q : RecId} (hn : t.recs.Nodup) (hk : k ∈ t.kids) (hq : q ∈ k.recs)
    (fs : List Int) : t.frames fs q = k.frames (t.inner fs) q := by
  obtain ⟨r, o, ks⟩ := t
  have hne : q ≠ r := by
    rintro rfl
    exact root_notMem_kids hn (List.mem_flatMap.mpr ⟨k, hk, hq⟩)
  rw [frames, if_neg hne]
  rcases framesAll_cases ks ((mk r o ks).inner fs) q with ⟨j, hj, hqj, he⟩ | ⟨hks, -⟩
  · rw [he, eq_of_mem_recs (nodup_kids hn) hj hk hqj hq]
  · exact absurd hq (hks k hk)

theorem frames_subtree {t u : Tree} {q : RecId} (hn : t.recs.Nodup) (hu : u ∈ t.subtrees) (hq : q ∈ u.recs)
    (fs : List Int) : t.frames fs q = u.frames (t.frames fs u.root).2 q := by
  induction t using induct generalizing fs with
  | h r o ks ih =>
    rcases mem_subtrees_mk.mp hu with rfl | ⟨k, hk, huk⟩
    · rw [frames_root]
    · rw [frames_kid hn hk (recs_subset huk hq), frames_kid hn hk (recs_subset huk u.root_mem_recs)]
      exact ih k hk (nodup_of_mem (nodup_kids hn) hk) huk _

theorem opens_frames {t u : Tree} (hn : t.recs.Nodup) (hnest : t.Nested) {fs : List Int}
    (hfs : ∀ s, t.op.turn = .opens s → ∃ gs, fs = s :: gs) (hu : u ∈ t.subtrees) {s : Int}
    (hs : u.op.turn = .opens s) : ∃ gs, (t.frames fs u.root).2 = s :: gs := by
  induction t using induct generalizing fs with
  | h r o ks ih =>
    rcases mem_subtrees_mk.mp hu with rfl | ⟨k, hk, huk⟩
    · rw [frames_root]
      exact hfs s hs
    · rw [frames_kid hn hk (recs_subset huk u.root_mem_recs)]
      refine ih k hk (nodup_of_mem (nodup_kids hn) hk) (hnest.kid hk) (fun s' hs' => ?_) huk
      obtain ⟨hc, hhead⟩ := hnest.opens _ (self_mem_subtrees _) k hk s' hs'
      exact ⟨_, inner_of_closes hc hhead hs' fs⟩

theorem leveled_frames {t : Tree} (hn : t.recs.Nodup) (hnest : t.Nested) {fs : List Int}
    (hfs : ∀ s, t.op.turn = .opens s → ∃ gs, fs = s :: gs) :
    Leveled (fun q => (t.frames fs q).1) (fun q => (t.frames fs q).2) t where
  turns u hu := by
    have hroot : t.frames fs u.root = (u.inner (t.frames fs u.root).2, (t.frames fs u.root).2) := by
      conv_lhs => rw [frames_subtree hn hu u.root_mem_recs, frames_root]
    have hopens := @opens_frames t u hn hnest fs hfs hu
    generalize (t.frames fs u.root).2 = gs at hroot hopens
    rw [hroot]
    cases hs : u.op.turn with
    | stays => simp [inner, hs, Turn.Leads]
    | opens s =>
      obtain ⟨gs', rfl⟩ := hopens hs
      simp [inner, hs, Turn.Leads]
    | closes =>
      obtain ⟨k, s, hk, hks⟩ := hnest.closes u hu hs
      refine ⟨s, (inner_of_closes hs hk hks gs).trans ?_⟩
      rw [outer_of_plain (by rw [hs]; exact nofun)]
  level u hu k hk := by
    have hku := kid_mem_subtrees hk
    have hkid : t.frames fs k.root = k.frames (u.inner (t.frames fs u.root).2) k.root := by
      rw [frames_subtree hn hu (recs_subset hku k.root_mem_recs),
        frames_kid (nodup_subtree hn hu) hk k.root_mem_recs]
    rw [hkid, frames_root, frames_subtree hn hu u.root_mem_recs, frames_root]

theorem slots_kid {t k : Tree} (hk : k ∈ t.kids) : k.slots.Sublist t.slots := by
  obtain ⟨r, o, ks⟩ := t
  obtain ⟨js, ls, rfl⟩ := List.append_of_mem hk
  rw [slots_mk, List.flatMap_append, List.flatMap_cons]
  exact (List.sublist_append_left _ _).trans
    ((List.sublist_append_right _ _).trans (List.sublist_append_right _ _))

theorem mem_slots_of_opens {t : Tree} {s : Int} (h : t.op.turn = .opens s) : s ∈ t.slots := by
  obtain ⟨r, o, ks⟩ := t
  rw [op_mk] at h
  rw [slots_mk, h]
  exact List.mem_cons_self ..

/-- The loops that an op closes and opens are none of those around it, and none of those in its other kids. -/
theorem nodup_kid {t k : Tree} (hd : t.recs.Nodup) (hnest : t.Nested) {fs : List Int}
    (h : (t.outer fs ++ t.slots).Nodup) (hk : k ∈ t.kids) : (k.outer (t.inner fs) ++ k.slots).Nodup := by
  have hsub := h.sublist ((slots_kid hk).append_left (t.outer fs))
  by_cases hc : t.op.turn = .closes
  · obtain ⟨k₀, s, hhead, hs⟩ := hnest.closes t t.self_mem_subtrees hc
    rw [inner_of_closes hc hhead hs]
    generalize t.outer fs = gs at h hsub
    obtain ⟨r, o, ks⟩ := t
    cases ks with
    | nil => cases hk
    | cons j ks =>
      obtain rfl : j = k₀ := Option.some.inj hhead
      rcases List.mem_cons.mp hk with rfl | hk'
      · rw [outer, hs]
        exact hsub
      · rw [outer_of_plain (hnest.tail hd hk'), List.cons_append, List.nodup_cons]
        refine ⟨fun hmem => ?_, hsub⟩
        have hsj := mem_slots_of_opens hs
        rw [slots_mk, List.flatMap_cons, List.nodup_append] at h
        obtain ⟨-, hslots, hfs⟩ := h
        rcases List.mem_append.mp hmem with hmem | hmem
        · exact hfs s hmem s (List.mem_append_right _ (List.mem_append_left _ hsj)) rfl
        · obtain ⟨-, htail, -⟩ := List.nodup_append.mp hslots
          obtain ⟨-, -, hapart⟩ := List.nodup_append.mp htail
          exact hapart s hsj s (List.mem_flatMap.mpr ⟨k, hk', hmem⟩) rfl
  · rwa [outer_of_plain (hnest.plain_kid hc hk), inner_of_ne hc]

theorem nodup_frames {t : Tree} (hd : t.recs.Nodup) (hnest : t.Nested) {fs : List Int}
    (h : (t.outer fs ++ t.slots).Nodup) (q : RecId) : (t.frames fs q).1.Nodup := by
  induction t using induct generalizing fs with
  | h r o ks ih =>
    by_cases hq : q = r
    · subst hq
      rw [frames, if_pos rfl]
      obtain ⟨hout, -, hapart⟩ := List.nodup_append.mp h
      by_cases hc : (mk q o ks).op.turn = .closes
      · obtain ⟨k, s, hhead, hs⟩ := hnest.closes _ (self_mem_subtrees _) hc
        rw [inner_of_closes hc hhead hs]
        have hmem := (slots_kid (List.mem_of_mem_head? hhead)).subset (mem_slots_of_opens hs)
        exact List.nodup_cons.mpr ⟨fun hin => hapart s hin s hmem rfl, hout⟩
      · rw [inner_of_ne hc]
        exact hout
    · rw [frames, if_neg hq]
      rcases framesAll_cases ks ((mk r o ks).inner fs) q with ⟨k, hk, -, he⟩ | ⟨-, he⟩
      · rw [he]
        exact ih k hk (nodup_of_mem (nodup_kids hd) hk) (hnest.kid hk) (nodup_kid hd hnest h hk)
      · rw [he]
        exact List.nodup_nil

end Tree

/-- The ops that may be executed, and the slots of the loops that are open before and after each of them. -/
structure Course where
  live : RecId → Prop
  into : RecId → List Int
  out : RecId → List Int
  distinct : ∀ r, (into r).Nodup

instance : CoeFun Course fun _ => RecId → Prop := ⟨Course.live⟩

/-- The course of a unit as its tree stands for it. -/
def Tree.course (t : Tree) (hd : t.recs.Nodup) (hb : t.Balanced) (hs : t.slots.Nodup) : Course where
  live := Live t
  into q := (t.frames [] q).1
  out q := (t.frames [] q).2
  distinct := nodup_frames hd hb.toNested (by rw [outer_of_plain hb.root]; exact hs)

theorem Tree.leveled_course {t : Tree} (hd : t.recs.Nodup) (hb : t.Balanced) (hs : t.slots.Nodup) :
    Leveled (t.course hd hb hs).into (t.course hd hb hs).out t :=
  leveled_frames hd hb.toNested fun s h => absurd h (hb.root s)

end OpTree
