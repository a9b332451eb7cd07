import OpTree.Proofs.Scalars

/-!
# Parts of a unit on the way

Where two runs are when they enter a part of a unit about scalars and when they come out of it, and how single ops are
passed.
-/

namespace OpTree

set_option autoImplicit false

namespace Opcode

/-- The ops that may be passed, that may vanish, or that lead to more than one place. -/
def fickle : List Opcode := [.null, .scalar, .lineseq, .scope, .pushmark, .ret, .and, .or, .dor]

def valued : List Opcode := [.const, .padsv, .rv2sv, .say, .die] ++ unary ++ binary

theorem single_of_valued {t : Opcode} (h : t ∈ valued) : Single t := by
  apply single_of_heads
  revert t
  decide

end Opcode

namespace Exec

open Machine

variable {names? : Option Pad} {o : Node} {F : Floor} {xs : List Item}

theorem tandem_leaf (ho : o.code = .const ∨ o.code = .padsv) :
    Tandem (Abreast F xs) (step names? o) fun _ => Topped F xs := by
  unfold step
  rcases ho with h | h
  · simp only [h]
    exact tandem_go tandem_constant
  · simp only [h]
    exact tandem_go tandem_padScalar

end Exec

namespace Tree

theorem follow_cons (k : Tree) (ks : List Tree) (q : RecId) : follow (k :: ks) q = (k, startAll ks q) :: follow ks q := by
  cases ks <;> rfl

theorem follow_target {ks : List Tree} {q : RecId} {p : Tree × RecId} (h : p ∈ follow ks q) :
    p.2 = q ∨ ∃ k ∈ ks, p.2 = k.start := by
  induction ks with
  | nil => cases h
  | cons k ks ih =>
    rw [follow_cons] at h
    rcases List.mem_cons.mp h with rfl | h
    · cases ks with
      | nil => exact Or.inl rfl
      | cons j ks => exact Or.inr ⟨j, by simp, rfl⟩
    · refine (ih h).imp_right ?_
      rintro ⟨j, hj, hp⟩
      exact ⟨j, List.mem_cons_of_mem k hj, hp⟩

end Tree

namespace Arena

open OpTree.Tree

variable {a : Arena} {q : Option RecId}

theorem Flow.of_op {r : RecId} {o : Node} {ks : List Tree} (h : a.Flow (.mk r o ks) q) (hb : o.code.branches = false)
    (hl : o.code ≠ .leaveloop) : (∀ p ∈ follow ks r, a.Flow p.1 (some p.2)) ∧ (a.node r).next = q := by
  cases h with
  | op _ _ hks hq => exact ⟨hks, hq⟩
  | logop hb' => exact absurd (hb.symm.trans hb') (by decide)
  | cond hb' => exact absurd (hb.symm.trans hb') (by decide)
  | loop hloop =>
    simp only [isLoop, Bool.and_eq_true, beq_iff_eq] at hloop
    exact absurd hloop.1 hl

theorem Flow.of_logop {l : RecId} {o : Node} {x y : Tree} (h : a.Flow (.mk l o [x, y]) q) (hb : o.code.branches = true) :
    a.Flow x (some l) ∧ (a.node l).other = some y.start ∧ a.Flow y q ∧ (a.node l).next = q := by
  cases h with
  | op hb' => exact absurd (hb.symm.trans hb') (by decide)
  | logop _ hx ho hy hq => exact ⟨hx, ho, hy, hq⟩
  | loop hloop => exact absurd (hb.symm.trans (isLoop_not_branches hloop)) (by decide)

theorem Flow.of_cond {l : RecId} {o : Node} {x y z : Tree} (h : a.Flow (.mk l o [x, y, z]) q) (hb : o.code.branches = true) :
    a.Flow x (some l) ∧ (a.node l).other = some y.start ∧ a.Flow y q ∧ (a.node l).next = some z.start ∧ a.Flow z q := by
  cases h with
  | op hb' => exact absurd (hb.symm.trans hb') (by decide)
  | cond _ hx ho hy hn hz => exact ⟨hx, ho, hy, hn, hz⟩

end Arena

namespace Peep

open Arena Opcode Machine Exec OpTree.Tree

variable {S : Course} {root start : RecId} {a b : Arena} {ps : PeepState} {names? : Option Pad}
  {F : Floor} {d : Nat} {xs ws : List Item} {q r y : RecId} {u : Use} {t k : Tree}

def After (root : RecId) (a b : Arena) : Use → RecId → Floor → Nat → List Item → Spot
  | .operand, q, F, d, ws => Known root a b q F d ws
  | .item, q, F, d, ws => Near a b q fun m m' => ∃ cs : List (Option CellId), Pose root F d (ws ++ cs.map .scalar) m m'
  | .effect, q, _, d, _ => Near a b q (Loose root d)

def Free (u : Use) (F : Floor) : Prop := u = .effect → F.marks = [] ∧ F.marks' = []

section Spots

variable {A B : Code} {y' z : RecId} {m m' : Machine} {P : Machine → Machine → Prop} {Q : Spot}

theorem Known.after (h : Known root a b q F d ws y' m z m') (hF : Free u F) : After root a b u q F d ws y' m z m' := by
  cases u with
  | operand => exact h
  | item =>
    refine h.near.mono fun n n' hp => ?_
    obtain ⟨c, hp⟩ := hp
    exact ⟨[c], hp⟩
  | effect =>
    refine h.near.mono fun n n' hp => ?_
    obtain ⟨c, hp⟩ := hp
    exact ⟨F, _, (hF rfl).1, (hF rfl).2, hp⟩

theorem After.of_arm (h : After root a b u.arm q F d ws y' m z m') (hF : Free u F) : After root a b u q F d ws y' m z m' := by
  cases u with
  | operand => exact h
  | item => exact Known.after h hF
  | effect => exact h

theorem carries_near {ι : Sort _} {P : ι → Machine → Machine → Prop} (h : ∀ i, Carries A B (Near a b q (P i)) Q) :
    Carries A B (Near a b q fun m m' => ∃ i, P i m m') Q := by
  refine (carries_exists h).pre fun y' m z m' hp => ?_
  obtain ⟨k, hy, hs, i, hi⟩ := hp
  exact ⟨i, k, hy, hs, hi⟩

theorem carries_known (h : ∀ c, Carries A B (Near a b q (Pose root F d (ws ++ [.scalar c]))) Q) :
    Carries A B (Known root a b q F d ws) Q :=
  (carries_near h).pre fun _ _ _ _ => Known.near

theorem carries_loose (h : ∀ F xs, F.marks = [] → F.marks' = [] → Carries A B (Near a b q (Pose root F d xs)) Q) :
    Carries A B (Near a b q (Loose root d)) Q := by
  refine carries_near fun F => carries_near fun xs => ?_
  intro s hs y' m z m' hp
  obtain ⟨k, hy, hsl, hm, hm', hpose⟩ := hp
  exact h F xs hm hm' s hs y' m z m' ⟨k, hy, hsl, hpose⟩

end Spots

section Ops

variable (h : Traced S a root start ps b)

include h

theorem Traced.stays_of (hc : (a.node y).code ∉ fickle) (ha : ∀ l, ¬ Absorbs a b y l) : Stays a b y := by
  apply h.stays
  · rintro (ht | ⟨pm, ret, hf, rfl | rfl⟩)
    · apply hc
      unfold Node.transparent at ht
      split at ht
      all_goals first
        | rename_i hy
          rw [hy]
          decide
        | cases ht
    · exact hc (hf.code ▸ by decide)
    · exact hc ((tailReturnOf_some hf.tail).1 ▸ by decide)
  · exact ha
  · intro hs
    apply hc
    revert hs
    generalize (a.node y).code = t
    revert t
    decide

theorem Traced.plain_short (hs : (a.node y).code ∈ short) (ha : ∀ r, ¬ Absorbs a b r y) :
    (b.node y).plain = (a.node y).plain := by
  cases h.fate y with
  | plain hp => exact hp
  | turned r hr => exact absurd hr (ha r)
  | absorbed l hl =>
    rw [hl.code] at hs
    exact absurd hs (by decide)
  | fallen pm ret hf hr =>
    rcases hr with rfl | rfl
    · rw [hf.code] at hs
      exact absurd hs (by decide)
    · rw [(tailReturnOf_some hf.tail).1] at hs
      exact absurd hs (by decide)

theorem Traced.paces_op {G : Floor} {Q : Machine → Machine → Prop} (hy : Road S a root y) (hk : Stays a b y)
    (hb : (a.node y).code.branches = false)
    (hc : (a.node y).code ≠ .enteriter ∧ (a.node y).code ≠ .leaveloop ∧ (a.node y).code ≠ .ret)
    (hn : (a.node y).next = some q) (hx : Tandem (Abreast G xs) (step names? (a.node y).plain) fun _ => Q) :
    Paces (a.code names?) (b.code names?) (Near a b y (Pose root G d xs))
      (At a b none q fun m m' => Q m m' ∧ m.Steady root d) := by
  apply h.paces_stays hy hk hb hc.2.2 hn timeless_pose
  have hflat : (a.node y).plain.code ≠ .enteriter ∧ (a.node y).plain.code ≠ .leaveloop ∧ (a.node y).plain.code ≠ .ret := by
    rw [Node.plain_code]
    exact hc
  exact hx.within (step_steady hflat) fun m n hr hs => hr d hs

theorem Traced.carries_op {G : Floor} {Q : Machine → Machine → Prop} (hy : Road S a root y) (hk : Stays a b y)
    (hb : (a.node y).code.branches = false)
    (hc : (a.node y).code ≠ .enteriter ∧ (a.node y).code ≠ .leaveloop ∧ (a.node y).code ≠ .ret)
    (hn : (a.node y).next = some q) (hx : Tandem (Abreast G xs) (step names? (a.node y).plain) fun _ => Q) :
    Carries (a.code names?) (b.code names?) (Near a b y (Pose root G d xs))
      (At a b none q fun m m' => Q m m' ∧ m.Steady root d) := (h.paces_op hy hk hb hc hn hx).carries

theorem Traced.carries_value {G : Floor} (hy : Road S a root y) (hc : (a.node y).code ∈ valued) (ha : ∀ l, ¬ Absorbs a b y l)
    (hn : (a.node y).next = some q) (hx : Tandem (Abreast G xs) (step names? (a.node y).plain) fun _ => Topped F ws) :
    Carries (a.code names?) (b.code names?) (Near a b y (Pose root G d xs)) (Known root a b q F d ws) := by
  have hcode : (a.node y).code ∉ fickle ∧ (a.node y).code.branches = false ∧
      (a.node y).code ≠ .enteriter ∧ (a.node y).code ≠ .leaveloop ∧ (a.node y).code ≠ .ret := by
    revert hc
    generalize (a.node y).code = t
    revert t
    decide
  refine (h.carries_op hy (h.stays_of hcode.1 ha) hcode.2.1 hcode.2.2 hn hx).post fun y' m z m' hp => ?_
  obtain ⟨rfl, hs, htop, hd⟩ := hp
  exact known_of_topped hs htop hd

theorem Traced.carries_past (hy : Road S a root y) (ht : (a.node y).transparent = true) (hn : (a.node y).next = some q)
    (u : Use) : Carries (a.code names?) (b.code names?) (After root a b u y F d ws) (After root a b u q F d ws) := by
  cases u with
  | operand =>
    refine carries_exists fun k => carries_exists fun c => ?_
    refine (h.carries_transparent hy ht hn ?_).post fun y' m z m' hp => ⟨k, c, hp⟩
    have hp : Timeless (Pose root F d (ws ++ [.scalar c])) := timeless_pose
    constructor
    · intro m m' hm
      exact hp.off m m' hm.1
    · intro m m' hm
      exact ⟨hp.tick m m' hm.1, hm.2⟩
    · intro m m' hm
      exact ⟨hp.left m m' hm.1, hm.2⟩
  | item =>
    refine carries_near fun cs => carries_exists fun k => ?_
    refine (h.carries_transparent hy ht hn timeless_pose).post fun y' m z m' hp => ?_
    exact ⟨k, hp.1, hp.2.1, cs, hp.2.2⟩
  | effect =>
    refine carries_exists fun k => ?_
    exact (h.carries_transparent hy ht hn timeless_loose).post fun y' m z m' hp => ⟨k, hp⟩

end Ops

theorem tailReturnOf_last {pm ret : RecId} (h : tailReturnOf? a pm = some ret) : (a.node ret).sib.more = false ∧
    ∃ seq leave, a.parent? ret = some seq ∧ (a.node seq).code = .lineseq ∧ a.parent? seq = some leave ∧
      (a.node leave).code = .leavesub := by
  obtain ⟨r, -, h⟩ := some_bind.mp h
  obtain ⟨hg, h⟩ := guard_bind.mp h
  obtain ⟨seq, hseq, h⟩ := some_bind.mp h
  obtain ⟨hcode, h⟩ := guard_bind.mp h
  obtain ⟨leave, hleave, h⟩ := some_bind.mp h
  obtain ⟨hcode', h⟩ := guard_bind.mp h
  cases h
  simp only [Bool.and_eq_true, Bool.not_eq_true'] at hg
  exact ⟨hg.2, seq, leave, hseq, hcode, hleave, hcode'⟩

/-- A tree of the unit that leads to `q`, and no return at the end of a sub that has been dropped. -/
structure Placed (a b : Arena) (root : RecId) (t : Tree) (q : RecId) : Prop where
  mem : t ∈ (a.tree root).subtrees
  flow : a.Flow t (some q)
  kept : ∀ pm, ¬ Falls a b pm t.root

section Places

variable (hT : Terrain S a root start)

include hT

theorem Terrain.holds (ht : t ∈ (a.tree root).subtrees) : a.Holds t := hT.wired.holds.subtree ht

theorem Terrain.code (ht : t ∈ (a.tree root).subtrees) : (a.node t.root).code = t.op.code := by
  rw [← Node.plain_code, (hT.wired.holds t ht).op]

theorem Terrain.at (ht : t ∈ (a.tree root).subtrees) (hc : t.op.code ≠ .lineseq) : Road S a root t.root := by
  have hm := recs_subset ht t.root_mem_recs
  refine ⟨hm, hT.wired.live_of hm ?_⟩
  rw [hT.code ht]
  exact hc

theorem Terrain.kid (ht : t ∈ (a.tree root).subtrees) (hc : t.op.code ≠ .lineseq) (hk : k ∈ t.kids)
    (hf : a.Flow k (some q)) : Placed a b root k q := by
  refine ⟨subtrees_trans ht (kid_mem_subtrees hk), hf, fun pm hfall => ?_⟩
  have hparent := (hT.holds ht).parent?_eq (nodup_subtree hT.wired.nodup ht) hk
  obtain ⟨-, seq, -, hseq, hcode, -⟩ := tailReturnOf_last hfall.tail
  rw [hparent] at hseq
  cases hseq
  rw [hT.code ht] at hcode
  exact hc hcode

theorem Placed.follow {r : RecId} {o : Node} {ks : List Tree} (hp : Placed a b root (.mk r o ks) q) (ho : Single o.code)
    {p : Tree × RecId} (hk : p ∈ Tree.follow ks r) : Placed a b root p.1 p.2 :=
  hT.kid hp.mem ho.lineseq (mem_of_mem_follow hk) ((hp.flow.of_op ho.branches ho.leaveloop).1 p hk)

omit hT in
theorem Placed.not_absorbs (hp : Placed a b root t q) (ht : Single t.op.code) (hq : (a.node q).code ∉ short) :
    ∀ l, ¬ Absorbs a b t.root l := by
  intro l hl
  have hn := hl.next
  rw [hp.flow.next_eq ht.branches] at hn
  cases hn
  exact hq hl.opposite.short

end Places

/-- Both runs are at the end of the sub, with the same items. -/
def Ended (root : RecId) : Spot := fun y m z m' => y = root ∧ z = root ∧ ∃ xs, Even xs m m' ∧ m.Level

section Ends

variable (hT : Terrain S a root start) (h : Traced S a root start ps b)

include hT h

omit h in
theorem Terrain.root_road : (a.node root).code = .leavesub ∧ Road S a root root := by
  have hroot : (a.node root).code = .leavesub := by
    have hc := hT.wired.code_root
    rwa [root_tree] at hc
  refine ⟨hroot, mem_tree_root a root, hT.wired.live_of (mem_tree_root a root) ?_⟩
  rw [hroot]
  decide

theorem Traced.stays_root : Stays a b root := by
  have hroot := hT.root_road.1
  apply h.stays_of
  · rw [hroot]
    decide
  · intro l hl
    exact absurd (hl.code.symm.trans hroot) (by decide)

theorem Traced.agree_ended (hnone : (a.node root).next = none) {y z : RecId} {m m' : Machine} (he : Ended root y m z m') (s : Nat) :
    Agree (fun _ m m' => m'.offStack = m.offStack) (upTo (a.code names?) s (some y) m) (upTo (b.code names?) s (some z) m') := by
  obtain ⟨hroot, hlive⟩ := hT.root_road
  have hk := h.stays_root hT
  have hend : (b.node root).next = none := by
    have hrel := h.next root hlive hk.absorbed
    rw [hnone] at hrel
    generalize (b.node root).next = z at hrel
    cases hrel
    rfl
  have hx : Tandem (fun m m' => ∃ xs, Even xs m m' ∧ m.Level) (step names? (a.node root).plain)
      fun _ m m' => m'.offStack = m.offStack := by
    rintro m m' ⟨xs, heven⟩
    have hstep : step names? (a.node root).plain = (do leaveSub; return (a.node root).plain.next) := by
      unfold step
      simp only [Node.plain_code, hroot]
    rw [hstep]
    exact tandem_go tandem_leaveSub m m' heven
  have hb : (a.node root).code.branches = false ∧ (a.node root).code ≠ .ret := by
    rw [hroot]
    decide
  obtain ⟨rfl, rfl, xs, ⟨ks, ks', heven⟩, hl⟩ := he
  cases s with
  | zero => exact ⟨rfl, heven.off⟩
  | succ s =>
    have hleft := step_of_not_branches names? (a.node z) hb.1 hb.2
    have hright : step names? (b.node z) = _ := hk.step hb.1 hb.2
    rw [hnone] at hleft
    rw [hend] at hright
    refine agree_same hleft hright hx ⟨xs, ⟨ks, ks', ?_⟩, hl⟩ fun n n' hoff => ?_
    · exact ⟨heven.left.ticked, heven.right.ticked, heven.off⟩
    · cases s <;> exact ⟨rfl, hoff⟩

theorem Traced.safe_ended (hnone : (a.node root).next = none) (s : Nat) :
    Safe (a.code names?) (b.code names?) (Ended root) s := fun _ _ _ _ he =>
  ⟨s, Nat.le_succ s, h.agree_ended hT hnone he s⟩

omit hT in
theorem Traced.carries_return {Q : Spot} (hend : ∀ s, Safe (a.code names?) (b.code names?) (Ended root) s)
    (hc : (a.node r).code = .ret) (hkept : ∀ pm, ¬ Falls a b pm r) :
    Carries (a.code names?) (b.code names?) (Near a b r (Pose root (F.marked ws.length) d (ws ++ xs))) Q := by
  have hk : Stays a b r := by
    apply h.stays
    · rintro (ht | ⟨pm, ret, hf, rfl | rfl⟩)
      · rw [Node.transparent, hc] at ht
        cases ht
      · exact absurd (hf.code.symm.trans hc) (by decide)
      · exact hkept pm hf
    · intro l hl
      exact absurd (hl.code.symm.trans hc) (by decide)
    · rw [hc]
      decide
  have hcode : (b.node r).code = .ret := by rw [← Node.plain_code, hk.plain, Node.plain_code, hc]
  rintro s - y m z m' ⟨k, hy, hslide, hp⟩
  obtain rfl := hy.symm
  obtain rfl := hk.stays k z hslide
  cases s with
  | zero => exact twin_zero hp.1.off
  | succ s =>
    have htick := timeless_pose.tick m m' hp
    have hret := tandem_returnSub (ticked m) (ticked m') ⟨⟨htick.1, htick.2.level⟩, htick.2.leave⟩
    have hleft : step names? (a.node z) (ticked m) = returnSub (ticked m) := congrFun (step_ret names? _ hc) _
    have hright : step names? (b.node z) (ticked m') = returnSub (ticked m') := congrFun (step_ret names? _ hcode) _
    revert hret hleft hright
    cases returnSub (ticked m) with
    | ok v n =>
      cases returnSub (ticked m') with
      | ok v' n' =>
        rintro ⟨rfl, rfl, heven, hl⟩ hleft hright
        exact twin_ok hleft hright (hend s _ _ _ _ ⟨rfl, rfl, _, heven, hl⟩)
      | error e' n' => exact fun hret => hret.elim
    | error e n =>
      cases returnSub (ticked m') with
      | ok v' n' => exact fun hret => hret.elim
      | error e' n' =>
        rintro ⟨rfl, hoff⟩ hleft hright
        exact twin_error hleft hright hoff

end Ends

section Lists

variable {A B : Code}

theorem carries_items {ks : List Tree}
    (h : ∀ p ∈ Tree.follow ks q, ∀ cs : List (Option CellId), Carries A B (Near a b p.1.start (Pose root F d (ws ++ cs.map .scalar)))
      (After root a b .item p.2 F d (ws ++ cs.map .scalar))) :
    Carries A B (Near a b (startAll ks q) fun m m' => ∃ cs : List (Option CellId), Pose root F d (ws ++ cs.map .scalar) m m')
      (Near a b q fun m m' => ∃ cs : List (Option CellId), Pose root F d (ws ++ cs.map .scalar) m m') := by
  have hone : ∀ p ∈ Tree.follow ks q, Carries A B
      (Near a b p.1.start fun m m' => ∃ cs : List (Option CellId), Pose root F d (ws ++ cs.map .scalar) m m')
      (Near a b p.2 fun m m' => ∃ cs : List (Option CellId), Pose root F d (ws ++ cs.map .scalar) m m') := by
    intro p hp
    refine carries_near fun cs => (h p hp cs).post fun y' m z m' hq => hq.mono fun n n' hn => ?_
    obtain ⟨cs', hn⟩ := hn
    refine ⟨cs ++ cs', ?_⟩
    rwa [List.map_append, ← List.append_assoc]
  clear h
  induction ks with
  | nil => exact Carries.refl _
  | cons k ks ih =>
    cases ks with
    | nil => exact hone (k, q) (List.mem_singleton_self _)
    | cons j ks =>
      refine (hone (k, j.start) (List.mem_cons_self ..)).trans (ih fun p hp => ?_)
      exact hone p (List.mem_cons_of_mem _ hp)

end Lists

/-- What a passage through a tree needs of the machines and leads to. A negation that is part of the op behind it now is
not passed itself. -/
def Passes (root : RecId) (a b : Arena) (names? : Option Pad) (u : Use) (t : Tree) (q : RecId) : Prop :=
  ∀ ⦃F ws d⦄, F.Below ws.length → Free u F →
    ((∀ l, ¬ Absorbs a b t.root l) → Carries (a.code names?) (b.code names?) (Near a b t.start (Pose root F d ws))
      (After root a b u q F d ws)) ∧
    ((∃ l, Absorbs a b t.root l) → Carries (a.code names?) (b.code names?) (Near a b t.start (Pose root F d ws))
      (Known root a b t.root F d ws))

theorem free_operand {F : Floor} : Free .operand F := by rintro ⟨⟩

theorem free_item {F : Floor} : Free .item F := by rintro ⟨⟩

theorem Free.arm {F : Floor} (h : Free u F) : Free u.arm F := by
  cases u with
  | operand => exact free_operand
  | item => exact free_operand
  | effect => exact h

end Peep

end OpTree
