import OpTree.Proofs.Shapes

/-!
# Loops in trees

An op opens a loop, closes one or leaves the open loops as they are. In a made tree the first kid of an op
that closes a loop opens it, and nothing else opens one, so loops are nested as trees are.
-/

namespace OpTree

set_option autoImplicit false

/-- What an op does to the open loops, each of which is known by the slot of its variable. -/
inductive Turn where
  | stays
  | opens (slot : Int)
  | closes
  deriving DecidableEq

namespace Turn

def slot? : Turn → Option Int
  | opens s => some s
  | _ => none

/-- The slots of the open loops before and after the op, innermost first. -/
def Leads : Turn → List Int → List Int → Prop
  | stays, before, after => after = before
  | opens s, before, after => after = s :: before
  | closes, before, after => ∃ s, before = s :: after

end Turn

namespace Node

def turn (n : Node) : Turn :=
  match n.code with
  | .enteriter => .opens n.targ
  | .leaveloop => .closes
  | _ => .stays

theorem turn_of_ne {n : Node} (he : n.code ≠ .enteriter) (hl : n.code ≠ .leaveloop) : n.turn = .stays := by
  unfold turn
  split
  · exact absurd ‹_› he
  · exact absurd ‹_› hl
  · rfl

theorem turn_eq_closes {n : Node} : n.turn = .closes ↔ n.code = .leaveloop := by
  unfold turn
  split <;> simp_all

theorem turn_eq_opens {n : Node} {s : Int} : n.turn = .opens s ↔ n.code = .enteriter ∧ n.targ = s := by
  unfold turn
  split <;> simp_all

theorem turn_congr {n n' : Node} (hc : n'.code = n.code) (ht : n'.targ = n.targ) : n'.turn = n.turn := by
  rw [turn, turn, hc, ht]

@[simp] theorem turn_plain (n : Node) : n.plain.turn = n.turn := turn_congr rfl rfl

theorem turn_withWant (n : Node) (w : Want) : (n.withWant w).turn = n.turn := turn_congr rfl rfl

theorem turn_of_class {n : Node} {c : OpClass} (h : n.code.opClass = c) (hb : n.code ≠ .leaveloop)
    (hc : c ≠ .loop) : n.turn = .stays := by
  refine turn_of_ne (fun he => hc ?_) hb
  rw [← h, he]
  rfl

theorem turn_of_logop {n : Node} (h : n.opClass = .logop) : n.turn = .stays := by
  refine turn_of_ne (fun hc => ?_) fun hc => ?_ <;> simp [opClass, isEx, hc, Opcode.opClass] at h

end Node

namespace Tree

open Build

/-- The slots of the variables of all loops in a tree, outer ones first. -/
def slots (t : Tree) : List Int := t.subtrees.filterMap fun u => u.op.turn.slot?

theorem slots_mk (r : RecId) (o : Node) (ks : List Tree) :
    (mk r o ks).slots = o.turn.slot?.toList ++ ks.flatMap slots := by
  rw [slots, subtrees, subtreesAll_eq, List.filterMap_cons, List.filterMap_flatMap, op_mk]
  cases o.turn.slot? <;> rfl

/-- Every loop is opened by the first kid of the op that closes it, and by nothing else. -/
structure Nested (t : Tree) : Prop where
  closes : ∀ u ∈ t.subtrees, u.op.turn = .closes → ∃ k s, u.kids.head? = some k ∧ k.op.turn = .opens s
  opens : ∀ u ∈ t.subtrees, ∀ k ∈ u.kids, ∀ s, k.op.turn = .opens s →
    u.op.turn = .closes ∧ u.kids.head? = some k

theorem Nested.subtree {t u : Tree} (h : t.Nested) (hu : u ∈ t.subtrees) : u.Nested where
  closes v hv := h.closes v (subtrees_trans hu hv)
  opens v hv := h.opens v (subtrees_trans hu hv)

theorem Nested.kid {t k : Tree} (h : t.Nested) (hk : k ∈ t.kids) : k.Nested := h.subtree (kid_mem_subtrees hk)

theorem nested_of_kids {t : Tree} (hks : ∀ k ∈ t.kids, k.Nested)
    (hcloses : t.op.turn = .closes → ∃ k s, t.kids.head? = some k ∧ k.op.turn = .opens s)
    (hopens : ∀ k ∈ t.kids, ∀ s, k.op.turn = .opens s → t.op.turn = .closes ∧ t.kids.head? = some k) :
    t.Nested := by
  obtain ⟨r, o, ks⟩ := t
  constructor
  · intro u hu
    rcases mem_subtrees_mk.mp hu with rfl | ⟨k, hk, hu⟩
    · exact hcloses
    · exact (hks k hk).closes u hu
  · intro u hu
    rcases mem_subtrees_mk.mp hu with rfl | ⟨k, hk, hu⟩
    · exact hopens
    · exact (hks k hk).opens u hu

theorem Nested.mapOps {t : Tree} {g : RecId → Node → Node} (h : t.Nested)
    (hg : ∀ u ∈ t.subtrees, (g u.root u.op).turn = u.op.turn) : (t.mapOps g).Nested := by
  have hkid : ∀ v ∈ t.subtrees, ∀ k ∈ v.kids, (g k.root k.op).turn = k.op.turn := fun v hv k hk =>
    hg k (subtrees_trans hv (kid_mem_subtrees hk))
  constructor
  · intro u hu hc
    rw [subtrees_mapOps] at hu
    obtain ⟨v, hv, rfl⟩ := List.mem_map.mp hu
    rw [op_mapOps, hg v hv] at hc
    obtain ⟨k, s, hk, hs⟩ := h.closes v hv hc
    refine ⟨k.mapOps g, s, ?_, ?_⟩
    · rw [kids_mapOps, List.head?_map, hk, Option.map_some]
    · rw [op_mapOps, hkid v hv k (List.mem_of_mem_head? hk), hs]
  · intro u hu k' hk' s hs
    rw [subtrees_mapOps] at hu
    obtain ⟨v, hv, rfl⟩ := List.mem_map.mp hu
    rw [kids_mapOps] at hk' ⊢
    obtain ⟨k, hk, rfl⟩ := List.mem_map.mp hk'
    rw [op_mapOps, hkid v hv k hk] at hs
    obtain ⟨hc, hhead⟩ := h.opens v hv k hk s hs
    rw [op_mapOps, hg v hv, List.head?_map, hhead]
    exact ⟨hc, rfl⟩

theorem slots_mapOps {t : Tree} {g : RecId → Node → Node}
    (hg : ∀ u ∈ t.subtrees, (g u.root u.op).turn = u.op.turn) : (t.mapOps g).slots = t.slots := by
  rw [slots, slots, subtrees_mapOps, List.filterMap_map]
  refine List.filterMap_congr fun u hu => ?_
  rw [Function.comp_apply, op_mapOps, hg u hu]

/-- Whatever loop is opened in the tree is closed in it. -/
structure Balanced (t : Tree) : Prop extends Nested t where
  root : ∀ s, t.op.turn ≠ .opens s

theorem Balanced.mapOps {t : Tree} {g : RecId → Node → Node} (h : t.Balanced)
    (hg : ∀ u ∈ t.subtrees, (g u.root u.op).turn = u.op.turn) : (t.mapOps g).Balanced where
  toNested := h.toNested.mapOps hg
  root s := by
    rw [op_mapOps, hg t t.self_mem_subtrees]
    exact h.root s

theorem Balanced.reroot {t : Tree} {o : Node} (h : t.Balanced) (ho : o.turn = t.op.turn) :
    (Tree.mk t.root o t.kids).Balanced where
  toNested := by
    refine nested_of_kids (fun k hk => h.toNested.kid hk) ?_ ?_ <;> rw [op_mk, ho]
    · exact h.closes t t.self_mem_subtrees
    · exact h.opens t t.self_mem_subtrees
  root s := by
    rw [op_mk, ho]
    exact h.root s

theorem slots_reroot (t : Tree) {o : Node} (ho : o.turn = t.op.turn) : (mk t.root o t.kids).slots = t.slots := by
  obtain ⟨r, n, ks⟩ := t
  rw [slots_mk, slots_mk]
  exact congrArg (fun u : Turn => u.slot?.toList ++ ks.flatMap slots) ho

structure Recast (t t' : Tree) : Prop where
  balanced : t.Balanced → t'.Balanced
  slots : t'.slots = t.slots

theorem Recast.refl (t : Tree) : Recast t t := ⟨fun h => h, rfl⟩

theorem Recast.trans {t t' t'' : Tree} (h : Recast t t') (h' : Recast t' t'') : Recast t t'' :=
  ⟨h'.balanced ∘ h.balanced, h'.slots.trans h.slots⟩

theorem recast_reroot (t : Tree) {o : Node} (ho : o.turn = t.op.turn) : Recast t (mk t.root o t.kids) :=
  ⟨fun h => h.reroot ho, t.slots_reroot ho⟩

theorem recast_mapOps {t : Tree} {g : RecId → Node → Node}
    (hg : ∀ u ∈ t.subtrees, (g u.root u.op).turn = u.op.turn) : Recast t (t.mapOps g) :=
  ⟨fun h => h.mapOps hg, slots_mapOps hg⟩

theorem recast_wantScalar (t : Tree) : Recast t t.wantScalar := by
  refine t.recast_reroot ?_
  rw [Node.turn_plain]
  split
  · exact t.op.turn_withWant _
  · rfl

theorem recast_wantList (t : Tree) : Recast t t.wantList := by
  refine t.recast_reroot ?_
  rw [Node.turn_plain]
  split
  · exact t.op.turn_withWant _
  · rfl

theorem recast_withFlag (t : Tree) (f : Flags) : Recast t (t.withFlag f) := t.recast_reroot rfl

theorem recast_void (t : Tree) : Recast t t.void := by
  refine recast_mapOps fun u _ => ?_
  rw [markVoid]
  split
  · exact u.op.turn_withWant .void
  · rfl

theorem recast_derefKid (t : Tree) (deref : Priv) : Recast t (derefKid t deref) := by
  have hmod : ∀ q : RecId, Recast t (t.modify q fun n => { n with priv := n.priv ||| deref }.plain) := by
    intro q
    refine recast_mapOps fun u _ => ?_
    split <;> rfl
  unfold Build.derefKid
  split
  · split
    · exact hmod _
    · exact .refl t
  · split
    · exact hmod _
    · exact .refl t
  · exact .refl t

theorem recast_nulled {t : Tree} (h : t.op.turn = .stays) : Recast t (nulled t) := by
  refine t.recast_reroot ?_
  rw [h, Node.turn_plain]
  exact Node.turn_of_ne (by rw [Node.neutralized_code]; exact nofun) (by rw [Node.neutralized_code]; exact nofun)

/-- An op that takes no part in loops, with its kids so far and the slots of their loops. -/
structure Sprouts (t : Tree) (ss : List Int) : Prop where
  op : t.op.turn = .stays
  kids : ∀ k ∈ t.kids, k.Balanced
  slots : t.slots = ss

theorem sprouts_leaf {r : RecId} {o : Node} (ho : o.turn = .stays) : (mk r o []).Sprouts [] where
  op := ho
  kids := nofun
  slots := by
    rw [slots_mk, ho]
    rfl

theorem nested_of_balanced {t : Tree} (hks : ∀ k ∈ t.kids, k.Balanced) (hc : t.op.turn ≠ .closes) : t.Nested :=
  nested_of_kids (fun k hk => (hks k hk).toNested) (fun h => absurd h hc) fun k hk s hs =>
    absurd hs ((hks k hk).root s)

theorem Sprouts.balanced {t : Tree} {ss : List Int} (h : t.Sprouts ss) : t.Balanced := by
  refine ⟨nested_of_balanced h.kids ?_, ?_⟩ <;> rw [h.op] <;> exact nofun

theorem turn_snoc (t k : Tree) : (t.snoc k).op.turn = t.op.turn := by
  simp only [snoc, op_mk]
  split <;> rfl

theorem slots_snoc (t k : Tree) : (t.snoc k).slots = t.slots ++ k.slots := by
  have hturn := t.turn_snoc k
  obtain ⟨r, o, ks⟩ := t
  rw [snoc] at hturn ⊢
  rw [op_mk] at hturn
  rw [slots_mk, slots_mk, hturn]
  simp

theorem Sprouts.snoc {t k k' : Tree} {ss : List Int} (h : t.Sprouts ss) (hk : k.Balanced) (hr : Recast k k') :
    (t.snoc k').Sprouts (ss ++ k.slots) where
  op := (t.turn_snoc k').trans h.op
  kids j hj := by
    rw [kids_snoc] at hj
    rcases List.mem_append.mp hj with hj | hj
    · exact h.kids j hj
    · rw [List.mem_singleton.mp hj]
      exact hr.balanced hk
  slots := by rw [slots_snoc, h.slots, hr.slots]

theorem Sprouts.snocAll {t : Tree} {ss : List Int} {ks : List Tree} (h : t.Sprouts ss)
    (hks : ∀ k ∈ ks, k.Balanced) : (snocAll t ks).Sprouts (ss ++ ks.flatMap Tree.slots) := by
  induction ks generalizing t ss with
  | nil =>
    rw [List.flatMap_nil, List.append_nil]
    exact h
  | cons k ks ih =>
    rw [List.flatMap_cons, ← List.append_assoc]
    exact ih (h.snoc (hks k (List.mem_cons_self ..)) k.recast_wantList) fun j hj => hks j (List.mem_cons_of_mem k hj)

theorem Sprouts.grown {t : Tree} {ss : List Int} {ks : List Tree} (h : t.Sprouts ss)
    (hks : ∀ k ∈ ks, k.Balanced) : (grown t ks).Sprouts (ss ++ ks.flatMap Tree.slots) := by
  induction ks generalizing t ss with
  | nil =>
    rw [List.flatMap_nil, List.append_nil]
    exact h
  | cons k ks ih =>
    rw [List.flatMap_cons, ← List.append_assoc]
    exact ih (h.snoc (hks k (List.mem_cons_self ..)) (.refl k)) fun j hj => hks j (List.mem_cons_of_mem k hj)

end Tree

namespace Build

open OpTree.Tree TreeM

/-- A tree that takes over some of the loops of others. -/
structure Retains (ks : List Tree) (t : Tree) : Prop where
  balanced : t.Balanced
  slots : t.slots.Sublist (ks.flatMap Tree.slots)

theorem retains_of_sprouts {ks : List Tree} {t : Tree} {ss : List Int} (h : t.Sprouts ss)
    (hs : ss = ks.flatMap Tree.slots) : Retains ks t :=
  ⟨h.balanced, by rw [h.slots, hs]⟩

theorem retains_of_folded {ks : List Tree} {t t' : Tree} (hf : Folded t t') (h : t' = t → Retains ks t) :
    Retains ks t' := by
  rcases hf with rfl | ⟨-, r, v, line, id, rfl⟩
  · exact h rfl
  · have hleaf := @sprouts_leaf r _ (Node.turn_of_ne (n := {
      code := .const, flags := t.op.flags &&& (Flags.wantMask ||| Flags.parens), val := .scalar v,
      priv := 0 ||| Priv.folded, line := line, id := id }) (by simp) (by simp))
    exact ⟨hleaf.balanced, by rw [hleaf.slots]; exact List.nil_sublist _⟩

theorem retains_unary {r : RecId} {o : Node} {k k' : Tree} (ho : o.turn = .stays) (hk : k.Balanced) (hr : Recast k k') :
    Retains [k] ((Tree.mk r o []).snoc k') :=
  retains_of_sprouts ((sprouts_leaf ho).snoc hk hr) (by simp)

theorem retains_binary {r : RecId} {o : Node} {x x' y y' : Tree} (ho : o.turn = .stays) (hx : x.Balanced)
    (hy : y.Balanced) (hx' : Recast x x') (hy' : Recast y y') :
    Retains [x, y] (((Tree.mk r o []).snoc x').snoc y') :=
  retains_of_sprouts (((sprouts_leaf ho).snoc hx hx').snoc hy hy') (by simp)

theorem sprouts_join {r : RecId} {j : Nat} {k : Tree} {ss : List Int} (hk : k.Sprouts ss) :
    ((Tree.mk r { code := .null, id := j } []).snoc k).Sprouts ss := by
  have hsnoc := (@sprouts_leaf r { code := .null, id := j } rfl).snoc hk.balanced (.refl k)
  rwa [hk.slots, List.nil_append] at hsnoc

theorem sprouts_logTree {t : Opcode} {l : RecId} {i : Nat} {x x' y : Tree} (ht : t = .and ∨ t = .or ∨ t = .dor)
    (hx : x.Balanced) (hy : y.Balanced) (hx' : Recast x x') : (logTree t l i x' y).Sprouts (x.slots ++ y.slots) := by
  have hop : Node.turn { code := t, id := i } = .stays := by rcases ht with rfl | rfl | rfl <;> rfl
  exact ((sprouts_leaf hop).snoc hx hx').snoc hy (.refl y)

theorem Items.loops {tail : Bool} {stmts : List Stmt} {es ks : List Tree} (h : Items tail stmts es ks)
    (hes : ∀ e ∈ es, e.Balanced) : (∀ k ∈ ks, k.Balanced) ∧ ks.flatMap Tree.slots = es.flatMap Tree.slots := by
  induction h with
  | nil => exact ⟨nofun, rfl⟩
  | @empty s rest es ks n i file he h ih =>
    obtain ⟨hks, hslots⟩ := ih hes
    have hleaf := @sprouts_leaf n
      { code := .nextstate, label := s.label, line := s.line, file := file, id := i } rfl
    refine ⟨fun k hk => ?_, by rw [List.flatMap_cons, hleaf.slots, hslots, List.nil_append]⟩
    rcases List.mem_cons.mp hk with rfl | hk
    · exact hleaf.balanced
    · exact hks k hk
  | @expr s rest e es ks n i file he h ih =>
    obtain ⟨hks, hslots⟩ := ih fun e' he' => hes e' (List.mem_cons_of_mem _ he')
    have hleaf := @sprouts_leaf n
      { code := .nextstate, label := s.label, line := s.line, file := file, id := i } rfl
    have hr : Recast e (if !tail || !rest.isEmpty then e.void else e) := by
      split
      · exact e.recast_void
      · exact .refl e
    refine ⟨fun k hk => ?_, ?_⟩
    · rcases List.mem_cons.mp hk with rfl | hk
      · exact hleaf.balanced
      rcases List.mem_cons.mp hk with rfl | hk
      · exact hr.balanced (hes e (List.mem_cons_self ..))
      · exact hks k hk
    · rw [List.flatMap_cons, List.flatMap_cons, List.flatMap_cons, hleaf.slots, hr.slots, hslots, List.nil_append]

theorem Items.sprouts {tail : Bool} {stmts : List Stmt} {es ks : List Tree} (h : Items tail stmts es ks)
    (hes : ∀ e ∈ es, e.Balanced) (s : RecId) (i : Nat) :
    (grown (.mk s { code := .lineseq, id := i } []) ks).Sprouts (es.flatMap Tree.slots) := by
  obtain ⟨hks, hslots⟩ := h.loops hes
  have hgrown := (@sprouts_leaf s { code := .lineseq, id := i } rfl).grown hks
  rwa [List.nil_append, hslots] at hgrown

/-- What a constructor makes of trees whose loops are closed, if it does not close a loop itself. -/
theorem Makes.retains {ks : List Tree} {t : Tree} (h : Makes ks t) (hks : ∀ k ∈ ks, k.Balanced)
    (hc : t.op.code ≠ .leaveloop) : Retains ks t := by
  cases h with
  | const | gv | stub => exact retains_of_sprouts (sprouts_leaf rfl) rfl
  | pad _ _ _ _ ht => rcases ht with rfl | rfl | rfl <;> exact retains_of_sprouts (sprouts_leaf rfl) rfl
  | rv2 _ k _ ht =>
    rcases ht with rfl | rfl | rfl <;> exact retains_unary rfl (hks k (by simp)) k.recast_wantScalar
  | scalar _ k => exact retains_unary rfl (hks k (by simp)) k.recast_wantScalar
  | @unop o t k p id t' ht hf =>
    refine retains_of_folded hf fun _ => retains_unary (Node.turn_of_class ht ?_ (by decide)) (hks k (by simp))
      k.recast_wantScalar
    rintro rfl
    cases ht
  | @unopNone o t p id t' ht hf =>
    refine retains_of_folded hf fun _ => retains_of_sprouts (sprouts_leaf (Node.turn_of_class ht ?_ (by decide))) rfl
    rintro rfl
    cases ht
  | @binop o t x y id t' ht hf =>
    refine retains_of_folded hf fun he => retains_binary (Node.turn_of_class ht ?_ (by decide)) (hks x (by simp))
      (hks y (by simp)) x.recast_wantScalar y.recast_wantScalar
    rw [he, code_snoc, code_snoc] at hc
    exact hc
  | @listop o m t ks i j t' ht hf =>
    have hop : Node.turn { code := t, id := i } = .stays := by
      refine Node.turn_of_class ht ?_ (by decide)
      rintro rfl
      cases ht
    have hmark := @sprouts_leaf m { code := .pushmark, id := j } rfl
    refine retains_of_folded hf fun _ => retains_of_sprouts
      (((sprouts_leaf hop).snoc hmark.balanced (.refl _)).snocAll hks) ?_
    rw [hmark.slots]
    rfl
  | elem _ c key deref _ ht =>
    rcases ht with rfl | rfl <;> exact retains_binary rfl (hks c (by simp)) (hks key (by simp))
      ((c.recast_withFlag _).trans (recast_derefKid _ _)) key.recast_wantScalar
  | elemop _ e _ ht he =>
    have hop : e.op.turn = .stays := by rcases he with he | he <;> simp [Node.turn, he]
    rcases ht with rfl | rfl <;> exact retains_unary rfl (hks e (by simp)) (recast_nulled hop)
  | arylen _ av => exact retains_unary rfl (hks av (by simp)) (av.recast_withFlag _)
  | sassign _ src dst =>
    exact retains_binary rfl (hks src (by simp)) (hks dst (by simp)) src.recast_wantScalar
      ((dst.recast_withFlag _).trans (recast_wantScalar _))
  | logop _ _ x y _ _ ht =>
    refine retains_of_sprouts (sprouts_join (sprouts_logTree ht (hks x (by simp)) (hks y (by simp))
      x.recast_wantScalar)) (by simp)
  | @cond r l x y z i j =>
    have hcond := (((@sprouts_leaf l { code := .condExpr, id := i } rfl).snoc (hks x (by simp))
      x.recast_wantScalar).snoc (hks y (by simp)) (.refl y)).snoc (hks z (by simp)) (.refl z)
    exact retains_of_sprouts (sprouts_join hcond) (by simp)
  | foreach => simp [loopTree] at hc

theorem loops_foreach {r ent s u t l w : RecId} {targ : Int} {lo hi : Tree} {body : List Stmt} {es ks : List Tree}
    {i₁ i₂ i₃ i₄ i₅ i₆ i₇ : Nat} (hks : Items false body es ks) (hlo : lo.Balanced) (hhi : hi.Balanced)
    (hes : ∀ e ∈ es, e.Balanced) :
    let x := loopTree r i₁ (enterTree ent targ i₂ lo hi) ((Tree.mk w { code := .null, id := i₃ } []).snoc
      (logTree .and l i₄ (Tree.mk t { code := .iter, id := i₅ } []).wantScalar (bodyTree s u i₆ i₇ ks)))
    x.Balanced ∧ x.slots = targ :: (lo :: hi :: es).flatMap Tree.slots := by
  have hunstack := @sprouts_leaf u { code := .unstack, id := i₇ } rfl
  have hiter := @sprouts_leaf t { code := .iter, id := i₅ } rfl
  have hbody : (bodyTree s u i₆ i₇ ks).Sprouts (es.flatMap Tree.slots ++ _) :=
    (hks.sprouts hes s i₆).snoc hunstack.balanced (.refl _)
  have hwrap := @sprouts_join w i₃ _ _ (@sprouts_logTree .and l i₄ _ _ _ (Or.inl rfl) hiter.balanced hbody.balanced
    (recast_wantScalar _))
  have hturn : (enterTree ent targ i₂ lo hi).op.turn = .opens targ := by
    rw [enterTree, turn_snoc, turn_snoc]
    rfl
  have henter : (enterTree ent targ i₂ lo hi).Nested := by
    refine nested_of_balanced (fun k hk => ?_) fun hc => by cases hturn.symm.trans hc
    rw [enterTree, kids_snoc, kids_snoc] at hk
    rcases List.mem_cons.mp hk with rfl | hk
    · exact lo.recast_wantScalar.balanced hlo
    · rw [List.mem_singleton.mp hk]
      exact hi.recast_wantScalar.balanced hhi
  refine ⟨⟨nested_of_kids ?_ ?_ ?_, ?_⟩, ?_⟩
  · intro k hk
    rcases List.mem_cons.mp hk with rfl | hk
    · exact henter
    · rw [List.mem_singleton.mp hk]
      exact hwrap.balanced.toNested
  · exact fun _ => ⟨_, targ, rfl, hturn⟩
  · intro k hk s hs
    rcases List.mem_cons.mp hk with rfl | hk
    · exact ⟨by rw [loopTree, turn_snoc, turn_snoc]; rfl, rfl⟩
    · rw [List.mem_singleton.mp hk] at hs
      exact absurd hs (hwrap.balanced.root s)
  · rw [loopTree, turn_snoc, turn_snoc]
    rintro s ⟨⟩
  · rw [loopTree, slots_snoc, slots_snoc, hwrap.slots, hiter.slots, hbody.slots, hunstack.slots, enterTree,
      slots_snoc, slots_snoc, lo.recast_wantScalar.slots, hi.recast_wantScalar.slots]
    simp [slots_mk, Node.turn, Turn.slot?]

end Build

end OpTree
