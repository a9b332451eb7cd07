import OpTree.Proofs.FreeList
import OpTree.Op.Release
import Mathlib.Algebra.BigOperators.Group.List.Basic
import Mathlib.Algebra.Order.Ring.Int

/-!
# Freeing trees

A tree is freed with all that is below it, except for subs that have references to spare: these lose
one and stay with their trees. All other trees are left as they are.
-/

namespace OpTree

set_option autoImplicit false

namespace Node

def shared (n : Node) : Bool := n.code = .leavesub && 1 < n.refs

/-- The node when a reference to it is given up. Only those to subs are counted. -/
def dereferenced (n : Node) : Node :=
  { n with refs := if n.code = .leavesub && 0 < n.refs then n.refs - 1 else n.refs }

theorem shared_plain (n : Node) : n.plain.shared = n.shared := rfl

@[simp] theorem dereferenced_code (n : Node) : n.dereferenced.code = n.code := rfl
@[simp] theorem dereferenced_static (n : Node) : n.dereferenced.static = n.static := rfl

@[simp] theorem destroyed_code (n : Node) : n.destroyed.code = n.code := by
  unfold destroyed
  split <;> rfl

@[simp] theorem destroyed_static (n : Node) : n.destroyed.static = n.static := by
  unfold destroyed
  split <;> rfl

end Node

namespace Tree

mutual

/-- The records that are freed with a tree. -/
def owned : Tree → List RecId
  | .mk r o ks => if o.shared then [] else r :: ownedAll ks

def ownedAll : List Tree → List RecId
  | [] => []
  | k :: ks => owned k ++ ownedAll ks

/-- The subs that stay when a tree is freed. -/
def spared : Tree → List RecId
  | .mk r o ks => if o.shared then [r] else sparedAll ks

def sparedAll : List Tree → List RecId
  | [] => []
  | k :: ks => spared k ++ sparedAll ks

end

theorem ownedAll_eq (ks : List Tree) : ownedAll ks = ks.flatMap owned := by
  induction ks with
  | nil => rfl
  | cons k ks ih => simp [ownedAll, ih]

theorem sparedAll_eq (ks : List Tree) : sparedAll ks = ks.flatMap spared := by
  induction ks with
  | nil => rfl
  | cons k ks ih => simp [sparedAll, ih]

theorem owned_of_shared {t : Tree} (h : t.op.shared = true) : t.owned = [] := by
  cases t
  exact if_pos h

theorem spared_of_shared {t : Tree} (h : t.op.shared = true) : t.spared = [t.root] := by
  cases t
  exact if_pos h

theorem owned_eq {t : Tree} (h : t.op.shared = false) : t.owned = t.root :: t.kids.flatMap owned := by
  cases t
  rw [op_mk] at h
  rw [owned, h, ownedAll_eq]
  rfl

theorem spared_eq {t : Tree} (h : t.op.shared = false) : t.spared = t.kids.flatMap spared := by
  cases t
  rw [op_mk] at h
  rw [spared, h, sparedAll_eq]
  rfl

theorem flatMap_subset_recs {f : Tree → List RecId} {ks : List Tree} (h : ∀ k ∈ ks, f k ⊆ k.recs) :
    ks.flatMap f ⊆ ks.flatMap Tree.recs := by
  intro r hr
  obtain ⟨k, hk, hr⟩ := List.mem_flatMap.mp hr
  exact List.mem_flatMap.mpr ⟨k, hk, h k hk hr⟩

theorem owned_subset (t : Tree) : t.owned ⊆ t.recs := by
  induction t using induct with
  | h r o ks ih =>
    cases h : o.shared with
    | true => simp [owned_of_shared (t := .mk r o ks) h]
    | false =>
      rw [owned_eq (t := .mk r o ks) h, recs_mk]
      exact List.cons_subset_cons r (flatMap_subset_recs ih)

theorem spared_subset (t : Tree) : t.spared ⊆ t.recs := by
  induction t using induct with
  | h r o ks ih =>
    cases h : o.shared with
    | true => simp [spared_of_shared (t := .mk r o ks) h]
    | false =>
      rw [spared_eq (t := .mk r o ks) h, recs_mk]
      exact List.subset_cons_of_subset r (flatMap_subset_recs ih)

theorem owned_eq_recs {t : Tree} (h : ∀ u ∈ t.subtrees, u.op.shared = false) : t.owned = t.recs := by
  induction t using induct with
  | h r o ks ih =>
    rw [owned_eq (h _ (self_mem_subtrees _)), recs_mk]
    refine congrArg (r :: ·) (List.flatMap_congr fun k hk => ih k hk fun u hu => h u ?_)
    exact subtrees_trans (kid_mem_subtrees hk) hu

end Tree

namespace Arena

variable {a b : Arena}

/-- The op at a record is the root of a tree, and the kids that are met from there are those of the tree. -/
structure Spells (a : Arena) (t : Tree) : Prop where
  lt : t.root < a.recs.size
  op : (a.node t.root).plain = t.op
  live : t.op.code ≠ .freed
  kids : a.kids t.root = t.kids.map Tree.root

def Unfolds (a : Arena) (t : Tree) : Prop := ∀ u ∈ t.subtrees, a.Spells u

theorem Unfolds.spells {t : Tree} (h : a.Unfolds t) : a.Spells t := h t (Tree.self_mem_subtrees t)

theorem Unfolds.kid {t k : Tree} (h : a.Unfolds t) (hk : k ∈ t.kids) : a.Unfolds k :=
  fun _ hu => h _ (Tree.subtrees_trans (Tree.kid_mem_subtrees hk) hu)

theorem Unfolds.lt {t : Tree} (h : a.Unfolds t) {r : RecId} (hr : r ∈ t.recs) : r < a.recs.size := by
  obtain ⟨u, hu, rfl⟩ := List.mem_map.mp hr
  exact (h u hu).lt

theorem Unfolds.live {t : Tree} (h : a.Unfolds t) : (a.node t.root).code ≠ .freed := by
  have hcode : (a.node t.root).code = t.op.code := by rw [← h.spells.op, Node.plain_code]
  exact hcode ▸ h.spells.live

theorem Unfolds.shared {t : Tree} (h : a.Unfolds t) : (a.node t.root).shared = t.op.shared := by
  rw [← h.spells.op, Node.shared_plain]

theorem Holds.unfolds {t : Tree} (h : a.Holds t) (hn : t.recs.Nodup) : a.Unfolds t := fun u hu =>
  ⟨(h u hu).lt, (h u hu).op, (h u hu).live, (h.subtree hu).kids_eq (Tree.nodup_subtree hn hu)⟩

theorem kids_congr {r : RecId} (hsize : b.recs.size = a.recs.size) (hfirst : (b.node r).first = (a.node r).first)
    (hsib : ∀ k ∈ a.kids r, (b.node k).sib = (a.node k).sib) : b.kids r = a.kids r := by
  have hbound : b.bound = a.bound := congrArg (· + 1) hsize
  rw [kids, kids, hfirst, hbound]
  exact siblingsFrom_congr fun k hk => congrArg Sib.sibling? (hsib k hk)

theorem kids_dereferenced (r q : RecId) : (a.update r Node.dereferenced).kids q = a.kids q := by
  refine kids_congr (size_update a r _) ?_ fun k _ => ?_
  · rcases node_update_cases (a := a) (r := r) (f := Node.dereferenced) q with he | ⟨-, he⟩ <;> rw [he]
    rfl
  · rcases node_update_cases (a := a) (r := r) (f := Node.dereferenced) k with he | ⟨-, he⟩ <;> rw [he]
    rfl

theorem Unfolds.congr {t : Tree} (h : a.Unfolds t) (hsize : b.recs.size = a.recs.size)
    (hnode : ∀ r ∈ t.recs, b.node r = a.node r) : b.Unfolds t := fun u hu => by
  have hu' := h u hu
  have hroot := hnode u.root (Tree.recs_subset hu u.root_mem_recs)
  refine ⟨hsize ▸ hu'.lt, (congrArg Node.plain hroot).trans hu'.op, hu'.live, ?_⟩
  refine (kids_congr hsize (congrArg Node.first hroot) fun k hk => ?_).trans hu'.kids
  rw [hu'.kids] at hk
  obtain ⟨j, hj, rfl⟩ := List.mem_map.mp hk
  have hju := Tree.subtrees_trans hu (Tree.kid_mem_subtrees hj)
  rw [hnode j.root (Tree.recs_subset hju j.root_mem_recs)]

structure Laid (a : Arena) (ts : List Tree) : Prop where
  unfolds : ∀ t ∈ ts, a.Unfolds t
  nodup : (ts.flatMap Tree.recs).Nodup

theorem Stand.laid {ts : List Tree} (h : a.Stand ts) : a.Laid ts :=
  ⟨fun t ht => (h.holds t ht).unfolds (Tree.nodup_of_mem h.nodup ht), h.nodup⟩

theorem Laid.congr {ts : List Tree} (h : a.Laid ts) (hsize : b.recs.size = a.recs.size)
    (hnode : ∀ r ∈ ts.flatMap Tree.recs, b.node r = a.node r) : b.Laid ts :=
  ⟨fun t ht => (h.unfolds t ht).congr hsize fun r hr => hnode r (List.mem_flatMap.mpr ⟨t, ht, hr⟩), h.nodup⟩

theorem Laid.perm {ts us : List Tree} (h : a.Laid ts) (hp : ts.Perm us) : a.Laid us :=
  ⟨fun t ht => h.unfolds t (hp.mem_iff.mpr ht), (hp.flatMap_right _).nodup h.nodup⟩

theorem Laid.open_ {t : Tree} {ts : List Tree} (h : a.Laid (t :: ts)) :
    a.Laid (t.kids ++ ts) ∧ t.root ∉ (t.kids ++ ts).flatMap Tree.recs := by
  have hn := h.nodup
  rw [List.flatMap_cons, ← Tree.mk_root_op_kids t, Tree.recs_mk, List.cons_append, List.nodup_cons,
    ← List.flatMap_append] at hn
  refine ⟨⟨fun u hu => ?_, hn.2⟩, hn.1⟩
  rcases List.mem_append.mp hu with hu | hu
  · exact (h.unfolds t (List.mem_cons_self ..)).kid hu
  · exact h.unfolds u (List.mem_cons_of_mem t hu)

theorem Laid.tail {t : Tree} {ts : List Tree} (h : a.Laid (t :: ts)) :
    a.Laid ts ∧ t.root ∉ ts.flatMap Tree.recs := by
  obtain ⟨⟨hunf, hn⟩, hroot⟩ := h.open_
  rw [List.flatMap_append] at hn hroot
  exact ⟨⟨fun u hu => hunf u (List.mem_append_right _ hu), (List.nodup_append.mp hn).2.1⟩,
    fun hm => hroot (List.mem_append_right _ hm)⟩

theorem FreeList.update {fs : List RecId} {r : RecId} {f : Node → Node} (h : a.FreeList fs)
    (hlive : (a.node r).code ≠ .freed) : (a.update r f).FreeList fs := by
  have hfr : ∀ q ∈ fs, (a.update r f).node q = a.node q := fun q hq =>
    node_update_of_ne (fun he : q = r => hlive (he ▸ h.freed q hq)) f
  refine ⟨fun g hg => ?_, h.nodup, fun q hq => by simpa using h.lt q hq, fun q hq => ?_⟩
  · exact (h.chain g hg).congr fun q hq => congrArg Node.next (hfr q hq)
  · rw [hfr q hq]
    exact h.freed q hq

def carved (a : Arena) (rs : List RecId) : Nat := rs.countP fun r => !(a.node r).static

def carvedUnits (a : Arena) (rs : List RecId) : Int :=
  (rs.map fun r => if (a.node r).static then 0 else (a.node r).size).sum

theorem carved_congr {rs : List RecId} (h : ∀ r ∈ rs, b.node r = a.node r) : b.carved rs = a.carved rs :=
  List.countP_congr fun r hr => by rw [h r hr]

theorem carvedUnits_congr {rs : List RecId} (h : ∀ r ∈ rs, b.node r = a.node r) :
    b.carvedUnits rs = a.carvedUnits rs :=
  congrArg List.sum (List.map_congr_left fun r hr => by rw [h r hr])

/-- The op of a record is freed, and nothing else changes but the group it belongs to. -/
structure Dropped (a b : Arena) (r : RecId) : Prop where
  freed : (b.node r).code = .freed
  node : ∀ q ≠ r, b.node q = a.node q
  size : b.recs.size = a.recs.size
  rest : b = { a with recs := b.recs, group? := b.group? }
  group : (a.node r).static = true ∧ b.group? = a.group? ∨
    (a.node r).static = false ∧ ∃ g, a.group? = some g ∧ (b.node r).next = g.free ∧ b.group? = some { g with
      live := g.live - 1, liveUnits := g.liveUnits - (a.node r).size,
      free := some r, freeCount := g.freeCount + 1 }

theorem Dropped.freeList {fs : List RecId} {r : RecId} (h : Dropped a b r) (hfs : a.FreeList fs)
    (hr : a.Occupied r) : ∃ fs', b.FreeList fs' := by
  have hnot : r ∉ fs := hfs.notMem_of_occupied hr
  have hfr : ∀ q ∈ fs, b.node q = a.node q := fun q hq => h.node q fun he => hnot (he ▸ hq)
  have hchain : ∀ {o : Option RecId}, a.FreeChain o fs → b.FreeChain o fs := fun hc =>
    hc.congr fun q hq => congrArg Node.next (hfr q hq)
  have hfreed : ∀ q ∈ fs, (b.node q).code = .freed := fun q hq => hfr q hq ▸ hfs.freed q hq
  rcases h.group with ⟨-, hg⟩ | ⟨-, g, hg, hnext, hg'⟩
  · exact ⟨fs, fun g hbg => hchain (hfs.chain g (hg ▸ hbg)), hfs.nodup, fun q hq => h.size ▸ hfs.lt q hq, hfreed⟩
  · refine ⟨r :: fs, fun g' hbg => ?_, List.nodup_cons.mpr ⟨hnot, hfs.nodup⟩, fun q hq => ?_, fun q hq => ?_⟩
    · obtain rfl := Option.some.inj (hg'.symm.trans hbg)
      exact ⟨rfl, hnext ▸ hchain (hfs.chain g hg)⟩
    · rw [h.size]
      rcases List.mem_cons.mp hq with rfl | hq
      · exact hr.1
      · exact hfs.lt q hq
    · rcases List.mem_cons.mp hq with rfl | hq
      · exact h.freed
      · exact hfreed q hq

end Arena

namespace TreeM

open Arena

variable {a b : Arena}

/-- Nodes of the trees in `ts` stay as they are, and of the rest of the arena only the records and
the group may change. -/
structure Spares (a b : Arena) (ts : List Tree) : Prop where
  node : ∀ t ∈ ts, ∀ r ∈ t.recs, b.node r = a.node r
  rest : b = { a with recs := b.recs, group? := b.group? }

theorem Spares.refl (a : Arena) (ts : List Tree) : Spares a a ts := ⟨fun _ _ _ _ => rfl, rfl⟩

theorem Spares.mono {ts us : List Tree} (h : Spares a b us) (hs : ts ⊆ us) : Spares a b ts :=
  ⟨fun t ht => h.node t (hs ht), h.rest⟩

theorem Spares.trans {c : Arena} {ts : List Tree} (h : Spares a b ts) (h' : Spares b c ts) :
    Spares a c ts where
  node t ht r hr := (h'.node t ht r hr).trans (h.node t ht r hr)
  rest := by rw [h'.rest, h.rest]

theorem update_stand {ts : List Tree} {r : RecId} {f : Node → Node} (h : a.Stand ts)
    (hr : r ∉ ts.flatMap Tree.recs) (hlive : (a.node r).code ≠ .freed) :
    (a.update r f).Stand ts ∧ Spares a (a.update r f) ts := by
  have hne : ∀ t ∈ ts, ∀ q ∈ t.recs, (a.update r f).node q = a.node q := fun t ht q hq =>
    node_update_of_ne (fun he : q = r => hr (List.mem_flatMap.mpr ⟨t, ht, he ▸ hq⟩)) f
  obtain ⟨fs, hfs⟩ := h.free
  exact ⟨h.congr (by simp) (fun t ht q hq => SamePlace.of_eq (hne t ht q hq)) ⟨fs, hfs.update hlive⟩, hne, rfl⟩

theorem dropped_free {r : RecId} {g : Group} (hlt : r < a.recs.size) (hs : (a.node r).static = false)
    (hg : a.group? = some g) : Dropped a (a.free g r) r := by
  have hself : (a.free g r).node r =
      { code := .freed, ex := (a.node r).code, id := (a.node r).id, size := (a.node r).size,
        next := g.free } := node_update_self hlt _
  refine ⟨congrArg Node.code hself, fun q hq => node_update_of_ne hq _, by simp [Arena.free], rfl, Or.inr ⟨hs, g, hg, ?_⟩⟩
  exact ⟨congrArg Node.next hself, rfl⟩

theorem freeList_cons {ts : List Tree} {r : RecId} {g : Group} (h : a.Stand ts)
    (hr : r ∉ ts.flatMap Tree.recs) (hlt : r < a.recs.size) (hlive : (a.node r).code ≠ .freed)
    (hs : (a.node r).static = false) (hg : a.group? = some g) : (a.free g r).Stand ts ∧ Spares a (a.free g r) ts := by
  have hd := dropped_free hlt hs hg
  have hne : ∀ t ∈ ts, ∀ q ∈ t.recs, (a.free g r).node q = a.node q := fun t ht q hq =>
    hd.node q fun he => hr (List.mem_flatMap.mpr ⟨t, ht, he ▸ hq⟩)
  obtain ⟨fs, hfs⟩ := h.free
  exact ⟨h.congr (Nat.le_of_eq hd.size.symm) (fun t ht q hq => SamePlace.of_eq (hne t ht q hq))
    (hd.freeList hfs ⟨hlt, hlive⟩), hne, rfl⟩

theorem free_cases {r : RecId} (hlt : r < a.recs.size) (hlive : (a.node r).code ≠ .freed) :
    (∃ b, free r a = .ok () b ∧ Dropped a b r) ∨ a.group? = none ∧ ∃ e, free r a = .error e a := by
  simp only [free, freeInGroup, bind_apply, node_apply, ite_apply, if_neg hlive, get_apply]
  cases hs : (a.node r).static with
  | true =>
    refine Or.inl ⟨_, rfl, ?_, fun q hq => node_update_of_ne hq _, size_update .., rfl, Or.inl ⟨hs, rfl⟩⟩
    rw [node_update_self hlt]
  | false =>
    cases hg : a.group? with
    | none => exact Or.inr ⟨rfl, _, rfl⟩
    | some g => exact Or.inl ⟨_, rfl, dropped_free hlt hs hg⟩

theorem drop_cases {r : RecId} (hlt : r < a.recs.size) (hlive : (a.node r).code ≠ .freed) :
    (∃ b, (do destroy r; free r) (a.update r Node.dereferenced) = .ok () b ∧ Dropped a b r) ∨
      a.group? = none ∧ ∃ e b, (do destroy r; free r) (a.update r Node.dereferenced) = .error e b := by
  have hnode : ((a.update r Node.dereferenced).update r Node.destroyed).node r =
      (a.node r).dereferenced.destroyed := by
    rw [node_update_self (by simpa using hlt), node_update_self hlt]
  have hother : ∀ q ≠ r, ((a.update r Node.dereferenced).update r Node.destroyed).node q = a.node q := by
    intro q hq
    rw [node_update_of_ne hq, node_update_of_ne hq]
  have hsize : ((a.node r).dereferenced.destroyed).size = (a.node r).size := by
    unfold Node.destroyed
    split <;> rfl
  have hrun : (do destroy r; free r) (a.update r Node.dereferenced) =
      free r ((a.update r Node.dereferenced).update r Node.destroyed) := by
    rw [destroy, bind_of_ok (update_apply ..)]
  have hlt' : r < ((a.update r Node.dereferenced).update r Node.destroyed).recs.size := by simpa using hlt
  have hlive' : (((a.update r Node.dereferenced).update r Node.destroyed).node r).code ≠ .freed := by
    rwa [hnode, Node.destroyed_code, Node.dereferenced_code]
  rw [hrun]
  rcases free_cases hlt' hlive' with ⟨b, hok, hd⟩ | ⟨hg, e, he⟩
  · have hgroup := hd.group
    rw [hnode, Node.destroyed_static, Node.dereferenced_static, hsize] at hgroup
    refine Or.inl ⟨b, hok, hd.freed, fun q hq => (hd.node q hq).trans (hother q hq), ?_, hd.rest, hgroup⟩
    simpa using hd.size
  · exact Or.inr ⟨hg, e, _, he⟩

/-- The first op on the stack is dereferenced. It stays if it has references to spare, and else makes room
for its kids. -/
theorem freeStack_cons {r : RecId} {stack : List RecId} (fuel : Nat) (hlive : (a.node r).code ≠ .freed) :
    freeStack (fuel + 1) (r :: stack) a = (if (a.node r).shared then freeStack fuel stack
      else do
        let ks ← kids r
        destroy r
        free r
        freeStack fuel (ks.reverse ++ stack)) (a.update r Node.dereferenced) := by
  rw [freeStack, bind_of_ok (node_apply _ _), if_neg hlive]
  by_cases hcount : ((a.node r).code = .leavesub && 0 < (a.node r).refs) = true
  · have hupdate : a.update r (fun n => { n with refs := n.refs - 1 }) = a.update r Node.dereferenced :=
      update_congr (by rw [Node.dereferenced, if_pos hcount])
    have hshared : (a.node r).shared = decide (1 < (a.node r).refs) := by
      simp only [Bool.and_eq_true, decide_eq_true_eq] at hcount
      simp [Node.shared, hcount.1]
    simp only [hcount, if_true, Bool.true_and]
    rw [bind_of_ok (update_apply _ _ _), hupdate, hshared]
  · have hupdate : a.update r Node.dereferenced = a := by
      refine (update_congr ?_).trans (update_id a r)
      rw [Node.dereferenced, if_neg hcount]
    have hshared : (a.node r).shared = false := by
      simp only [Bool.and_eq_true, decide_eq_true_eq] at hcount
      simp only [Node.shared, Bool.and_eq_false_iff, decide_eq_false_iff_not]
      by_cases hcode : (a.node r).code = .leavesub
      · have : ¬0 < (a.node r).refs := fun h => hcount ⟨hcode, h⟩
        exact Or.inr (by omega)
      · exact Or.inl hcode
    rw [Bool.not_eq_true] at hcount
    simp only [hcount, hupdate, hshared, Bool.false_and, Bool.false_eq_true, if_false]

/-- What one step does to the tree on top of the stack: it is dereferenced and stays, or its root is freed
and the kids in `vs` are left. -/
inductive Sheds (a b : Arena) (u : Tree) : List Tree → Prop where
  | shared (h : u.op.shared = true) (hb : b = a.update u.root Node.dereferenced) : Sheds a b u []
  | dropped (h : u.op.shared = false) (hb : Dropped a b u.root) : Sheds a b u u.kids.reverse

theorem Sheds.length_lt {u : Tree} {vs : List Tree} (h : Sheds a b u vs) :
    (vs.flatMap Tree.recs).length < u.recs.length := by
  cases h with
  | shared => exact List.length_pos_of_mem u.root_mem_recs
  | dropped =>
    rw [((List.reverse_perm u.kids).flatMap_right _).length_eq]
    cases u
    rw [Tree.recs_mk, List.length_cons]
    exact Nat.lt_succ_self _

theorem Sheds.node {u : Tree} {vs : List Tree} (h : Sheds a b u vs) {r : RecId} (hr : r ≠ u.root) :
    b.node r = a.node r := by
  cases h with
  | shared _ hb => rw [hb, node_update_of_ne hr]
  | dropped _ hb => exact hb.node r hr

theorem Sheds.rest {u : Tree} {vs : List Tree} (h : Sheds a b u vs) :
    b = { a with recs := b.recs, group? := b.group? } := by
  cases h with
  | shared _ hb =>
    subst hb
    rfl
  | dropped _ hb => exact hb.rest

theorem Sheds.group_isSome {u : Tree} {vs : List Tree} (h : Sheds a b u vs) :
    b.group?.isSome = a.group?.isSome := by
  cases h with
  | shared _ hb =>
    subst hb
    rfl
  | dropped _ hb =>
    rcases hb.group with ⟨-, hg⟩ | ⟨-, g, hg, -, hg'⟩
    · rw [hg]
    · rw [hg, hg']
      rfl

theorem Sheds.freeList {u : Tree} {vs : List Tree} {fs : List RecId} (h : Sheds a b u vs) (hu : a.Unfolds u)
    (hfs : a.FreeList fs) : ∃ fs', b.FreeList fs' := by
  cases h with
  | shared _ hb => exact hb ▸ ⟨fs, hfs.update hu.live⟩
  | dropped _ hb => exact hb.freeList hfs ⟨hu.spells.lt, hu.live⟩

theorem freeStack_step {u : Tree} {us : List Tree} (fuel : Nat) (h : a.Laid (u :: us)) :
    (∃ vs b, freeStack (fuel + 1) ((u :: us).map Tree.root) a = freeStack fuel ((vs ++ us).map Tree.root) b ∧
      b.Laid (vs ++ us) ∧ Sheds a b u vs) ∨
    a.group? = none ∧ ∃ e b, freeStack (fuel + 1) ((u :: us).map Tree.root) a = .error e b := by
  have hu := h.unfolds u (List.mem_cons_self ..)
  obtain ⟨hopen, hroot⟩ := h.open_
  obtain ⟨htail, hapart⟩ := h.tail
  rw [List.map_cons, freeStack_cons fuel hu.live, hu.shared]
  -- a sub that stays is out of the way; else the kids stand by themselves once their root is dropped
  cases hs : u.op.shared with
  | true =>
    refine Or.inl ⟨[], _, rfl, ?_, .shared hs rfl⟩
    refine htail.congr (size_update ..) fun r hr => node_update_of_ne ?_ _
    rintro rfl
    exact hapart hr
  | false =>
    have hassoc : ∀ rest : TreeM Unit, (do destroy u.root; free u.root; rest : TreeM Unit) =
        ((do destroy u.root; free u.root : TreeM Unit) >>= fun _ => rest) := fun rest => (bind_assoc ..).symm
    rw [if_neg Bool.false_ne_true, bind_of_ok (kids_apply _ _), kids_dereferenced, hu.spells.kids, hassoc]
    rcases drop_cases hu.spells.lt hu.live with ⟨b, hok, hd⟩ | ⟨hg, e, b, he⟩
    · have hlaid : b.Laid (u.kids ++ us) := hopen.congr hd.size fun r hr => hd.node r fun he => hroot (he ▸ hr)
      refine Or.inl ⟨u.kids.reverse, b, ?_, hlaid.perm ((List.reverse_perm _).symm.append_right _), .dropped hs hd⟩
      rw [bind_of_ok hok, List.map_append, List.map_reverse]
    · refine Or.inr ⟨hg, e, b, ?_⟩
      rw [bind_apply, he]

/-- What has become of the trees in `us` once they are freed: what they own is free, the subs that stay lost
a reference, and the group counts as many ops and units less as it held. -/
structure Disposed (a b : Arena) (us : List Tree) : Prop where
  freed : ∀ r ∈ us.flatMap Tree.owned, (b.node r).code = .freed
  spared : ∀ r ∈ us.flatMap Tree.spared, b.node r = (a.node r).dereferenced
  node : ∀ r, r ∉ us.flatMap Tree.owned → r ∉ us.flatMap Tree.spared → b.node r = a.node r
  size : b.recs.size = a.recs.size
  rest : b = { a with recs := b.recs, group? := b.group? }
  group : ∃ o, b.group? = a.group?.map fun g => { g with
    live := g.live - (a.carved (us.flatMap Tree.owned) : Int),
    liveUnits := g.liveUnits - a.carvedUnits (us.flatMap Tree.owned),
    free := o, freeCount := g.freeCount + (a.carved (us.flatMap Tree.owned) : Int) }

theorem Disposed.nil (a : Arena) : Disposed a a [] := by
  refine ⟨by simp, by simp, fun _ _ _ => rfl, rfl, rfl, a.group?.bind Group.free, ?_⟩
  cases a.group? <;> simp [carved, carvedUnits]

theorem Disposed.live {us : List Tree} (h : Disposed a b us) :
    b.group?.map Group.live = a.group?.map fun g => g.live - (a.carved (us.flatMap Tree.owned) : Int) := by
  obtain ⟨o, ho⟩ := h.group
  rw [ho, Option.map_map]
  rfl

theorem Disposed.perm {us vs : List Tree} (h : Disposed a b us) (hp : us.Perm vs) : Disposed a b vs where
  freed r hr := h.freed r ((hp.flatMap_right _).mem_iff.mpr hr)
  spared r hr := h.spared r ((hp.flatMap_right _).mem_iff.mpr hr)
  node r hr hs := h.node r (fun hm => hr ((hp.flatMap_right _).mem_iff.mp hm)) fun hm =>
    hs ((hp.flatMap_right _).mem_iff.mp hm)
  size := h.size
  rest := h.rest
  group := by
    have howned := hp.flatMap_right Tree.owned
    have hcount : a.carved (vs.flatMap Tree.owned) = a.carved (us.flatMap Tree.owned) := (howned.countP_eq _).symm
    have hunits : a.carvedUnits (vs.flatMap Tree.owned) = a.carvedUnits (us.flatMap Tree.owned) :=
      (howned.map _).sum_eq.symm
    rw [hcount, hunits]
    exact h.group

theorem Disposed.outside {us : List Tree} (h : Disposed a b us) {r : RecId} (hr : r ∉ us.flatMap Tree.recs) :
    b.node r = a.node r :=
  h.node r (fun hm => hr (Tree.flatMap_subset_recs (fun u _ => u.owned_subset) hm)) fun hm =>
    hr (Tree.flatMap_subset_recs (fun u _ => u.spared_subset) hm)

theorem Disposed.spares {us ts : List Tree} (h : Disposed a b us)
    (hn : ((us ++ ts).flatMap Tree.recs).Nodup) : Spares a b ts where
  node t ht r hr := by
    rw [List.flatMap_append] at hn
    exact h.outside fun hm => (List.nodup_append.mp hn).2.2 r hm r (List.mem_flatMap.mpr ⟨t, ht, hr⟩) rfl
  rest := h.rest

theorem Disposed.cons_shared {c : Arena} {u : Tree} {us : List Tree} (hl : a.Laid (u :: us))
    (hs : u.op.shared = true) (hc : c = a.update u.root Node.dereferenced)
    (h : Disposed c b us) : Disposed a b (u :: us) := by
  have hroot := hl.tail.2
  have hself : c.node u.root = (a.node u.root).dereferenced := by
    rw [hc, node_update_self (hl.unfolds u (List.mem_cons_self ..)).spells.lt]
  have hother : ∀ r, r ≠ u.root → c.node r = a.node r := fun r hr => by rw [hc, node_update_of_ne hr]
  have howned : (u :: us).flatMap Tree.owned = us.flatMap Tree.owned := by
    rw [List.flatMap_cons, Tree.owned_of_shared hs, List.nil_append]
  have hspared : (u :: us).flatMap Tree.spared = u.root :: us.flatMap Tree.spared := by
    rw [List.flatMap_cons, Tree.spared_of_shared hs, List.singleton_append]
  have hne : ∀ {f : Tree → List RecId}, (∀ k ∈ us, f k ⊆ k.recs) → ∀ r ∈ us.flatMap f, r ≠ u.root :=
    fun hf r hr he => hroot (he ▸ Tree.flatMap_subset_recs hf hr)
  have hkeep : ∀ r ∈ us.flatMap Tree.owned, c.node r = a.node r := fun r hr =>
    hother r (hne (fun k _ => k.owned_subset) r hr)
  refine ⟨fun r hr => h.freed r (howned ▸ hr), fun r hr => ?_, fun r hr hr' => ?_, ?_, ?_, ?_⟩
  · rw [hspared] at hr
    rcases List.mem_cons.mp hr with rfl | hr
    · rw [h.outside hroot, hself]
    · rw [h.spared r hr, hother r (hne (fun k _ => k.spared_subset) r hr)]
  · rw [howned] at hr
    rw [hspared, List.mem_cons, not_or] at hr'
    rw [h.node r hr hr'.2, hother r hr'.1]
  · rw [h.size, hc, size_update]
  · rw [h.rest, hc]
    rfl
  · have hgroup : c.group? = a.group? := by
      rw [hc]
      rfl
    rw [howned, ← carved_congr hkeep, ← carvedUnits_congr hkeep, ← hgroup]
    exact h.group

theorem Disposed.cons_dropped {c : Arena} {u : Tree} {us : List Tree} (hl : a.Laid (u :: us))
    (hs : u.op.shared = false) (hc : Dropped a c u.root) (h : Disposed c b (u.kids ++ us)) :
    Disposed a b (u :: us) := by
  have hroot := hl.open_.2
  have howned : (u :: us).flatMap Tree.owned = u.root :: (u.kids ++ us).flatMap Tree.owned := by
    rw [List.flatMap_cons, Tree.owned_eq hs, List.cons_append, List.flatMap_append]
  have hspared : (u :: us).flatMap Tree.spared = (u.kids ++ us).flatMap Tree.spared := by
    rw [List.flatMap_cons, Tree.spared_eq hs, List.flatMap_append]
  have hne : ∀ {f : Tree → List RecId}, (∀ k ∈ u.kids ++ us, f k ⊆ k.recs) →
      ∀ r ∈ (u.kids ++ us).flatMap f, r ≠ u.root :=
    fun hf r hr he => hroot (he ▸ Tree.flatMap_subset_recs hf hr)
  have hkeep : ∀ r ∈ (u.kids ++ us).flatMap Tree.owned, c.node r = a.node r := fun r hr =>
    hc.node r (hne (fun k _ => k.owned_subset) r hr)
  refine ⟨fun r hr => ?_, fun r hr => ?_, fun r hr hr' => ?_, h.size.trans hc.size, ?_, ?_⟩
  · rw [howned] at hr
    rcases List.mem_cons.mp hr with rfl | hr
    · rw [h.outside hroot, hc.freed]
    · exact h.freed r hr
  · rw [hspared] at hr
    rw [h.spared r hr, hc.node r (hne (fun k _ => k.spared_subset) r hr)]
  · rw [howned, List.mem_cons, not_or] at hr
    rw [hspared] at hr'
    rw [h.node r hr.2 hr', hc.node r hr.1]
  · rw [h.rest, hc.rest]
  · obtain ⟨o, ho⟩ := h.group
    rw [carved_congr hkeep, carvedUnits_congr hkeep] at ho
    refine ⟨o, ho.trans ?_⟩
    rw [howned, carved, carved, carvedUnits, carvedUnits, List.countP_cons, List.map_cons, List.sum_cons]
    rcases hc.group with ⟨hstatic, hg⟩ | ⟨hstatic, g, hg, -, hg'⟩
    · simp [hstatic, hg]
    · simp only [hg, hg', hstatic, Option.map_some, Bool.not_false, if_true, Bool.false_eq_true, if_false,
        Option.some.injEq, Group.mk.injEq, true_and, and_true]
      omega

/-- Freeing the trees on the stack. The invariant of the walk is that the stack is the roots of trees that
share no record. -/
theorem freeStack_disposes {fuel : Nat} {us : List Tree} (h : a.Laid us)
    (hok : freeStack fuel (us.map Tree.root) a = .ok () b) :
    Disposed a b us ∧ ((∃ fs, a.FreeList fs) → ∃ fs, b.FreeList fs) := by
  induction fuel generalizing a us with
  | zero =>
    cases us with
    | nil =>
      simp only [List.map_nil, freeStack, pure_eq_ok, true_and] at hok
      exact hok ▸ ⟨.nil a, id⟩
    | cons u us => exact absurd hok throw_ne_ok
  | succ fuel ih =>
    cases us with
    | nil =>
      simp only [List.map_nil, freeStack, pure_eq_ok, true_and] at hok
      exact hok ▸ ⟨.nil a, id⟩
    | cons u us =>
      rcases freeStack_step fuel h with ⟨vs, c, hstep, hc, hsheds⟩ | ⟨-, e, c, he⟩
      · obtain ⟨hcb, hfree⟩ := ih hc (hstep ▸ hok)
        have hu := h.unfolds u (List.mem_cons_self ..)
        refine ⟨?_, fun hfs => hfree (hfs.elim fun _ hfs => hsheds.freeList hu hfs)⟩
        cases hsheds with
        | shared hs hac => exact .cons_shared h hs hac hcb
        | dropped hs hac => exact .cons_dropped h hs hac (hcb.perm ((List.reverse_perm _).append_right _))
      · rw [he] at hok
        cases hok

theorem freeStack_runs {fuel : Nat} {us : List Tree} (h : a.Laid us) (hg : a.group?.isSome = true)
    (hf : (us.flatMap Tree.recs).length ≤ fuel) :
    ∃ b, freeStack fuel (us.map Tree.root) a = .ok () b ∧ b.group?.isSome = true := by
  -- each step takes at least one record off the trees on the stack
  induction fuel generalizing a us with
  | zero =>
    cases us with
    | nil => exact ⟨a, rfl, hg⟩
    | cons u us =>
      have := List.length_pos_of_mem u.root_mem_recs
      rw [List.flatMap_cons, List.length_append] at hf
      omega
  | succ fuel ih =>
    cases us with
    | nil => exact ⟨a, rfl, hg⟩
    | cons u us =>
      rcases freeStack_step fuel h with ⟨vs, c, hstep, hc, hsheds⟩ | ⟨hnone, -⟩
      · rw [hstep]
        refine ih hc (hsheds.group_isSome.trans hg) ?_
        have := hsheds.length_lt
        rw [List.flatMap_cons, List.length_append] at hf
        rw [List.flatMap_append, List.length_append]
        omega
      · rw [hnone] at hg
        cases hg

/-- A tree can be freed if there is a group to take it, whatever else is in the arena. -/
theorem freeTree_laid {t : Tree} (h : a.Laid [t]) (hg : a.group?.isSome = true) :
    ∃ b, freeTree t.root a = .ok () b ∧ b.group?.isSome = true ∧ Disposed a b [t] := by
  have hlen : ([t].flatMap Tree.recs).length ≤ a.recs.size :=
    length_le_size (fun r hr => (h.unfolds t (List.mem_singleton_self t)).lt (by simpa using hr)) h.nodup
  have hfuel : ([t].flatMap Tree.recs).length ≤ a.bound * a.bound :=
    Nat.le_trans (Nat.le_succ_of_le hlen) (Nat.le_mul_self _)
  obtain ⟨b, hok, hb⟩ := freeStack_runs h hg hfuel
  refine ⟨b, ?_, hb, (freeStack_disposes h hok).1⟩
  rw [freeTree, bind_of_ok (get_apply _)]
  exact hok

theorem freeTree_disposes {t : Tree} {ts : List Tree} (h : a.Stand (t :: ts))
    (hok : freeTree t.root a = .ok () b) : b.Stand ts ∧ Disposed a b [t] := by
  rw [freeTree, bind_of_ok (get_apply _)] at hok
  have ht : a.Stand [t] := h.sublist (by simp)
  obtain ⟨hab, hfree⟩ := freeStack_disposes ht.laid hok
  have hspares : Spares a b ts := hab.spares h.nodup
  have hts : a.Stand ts := h.sublist (List.sublist_cons_self t ts)
  exact ⟨hts.congr (Nat.le_of_eq hab.size.symm) (fun u hu r hr => SamePlace.of_eq (hspares.node u hu r hr))
    (hfree h.free), hab⟩

theorem freeTree_ok {t : Tree} {ts : List Tree} (h : a.Stand (t :: ts))
    (hok : freeTree t.root a = .ok () b) : b.Stand ts ∧ Spares a b ts := by
  obtain ⟨hb, hab⟩ := freeTree_disposes h hok
  exact ⟨hb, hab.spares h.nodup⟩

theorem freeTree_runs {t : Tree} {ts : List Tree} (h : a.Stand (t :: ts)) (hg : a.group?.isSome = true) :
    ∃ b, freeTree t.root a = .ok () b ∧ b.group?.isSome = true := by
  have ht : a.Stand [t] := h.sublist (by simp)
  obtain ⟨b, hok, hb, -⟩ := freeTree_laid ht.laid hg
  exact ⟨b, hok, hb⟩

end TreeM

end OpTree
