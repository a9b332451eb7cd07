import OpTree.Op.Arena
import Mathlib.Data.List.Nodup
import Mathlib.Data.List.Perm.Subperm

/-!
# Trees of ops

The value of a tree that stands in an arena: the record of every op, what the op is apart from its
links, and its kids. Everything that constructors, the linearizer and the optimizer do to kids,
flags and payloads is described on these trees.
-/

namespace OpTree

set_option autoImplicit false

namespace Node

/-- What a node is, without its place in the tree and in the order of execution. -/
def plain (n : Node) : Node :=
  { code := n.code, ex := n.ex, flags := n.flags, priv := n.priv, targ := n.targ, val := n.val,
    path := n.path, name := n.name, file := n.file, line := n.line, label := n.label,
    count := n.count, refs := n.refs, id := n.id }

@[simp] theorem plain_code (n : Node) : n.plain.code = n.code := rfl
@[simp] theorem plain_flags (n : Node) : n.plain.flags = n.flags := rfl
@[simp] theorem plain_plain (n : Node) : n.plain.plain = n.plain := rfl

theorem opClass_plain (n : Node) : n.plain.opClass = n.opClass := rfl

theorem want_plain (n : Node) : n.plain.want = n.want := rfl

end Node

/-- A tree of ops. The links of `op` are left blank. -/
inductive Tree where
  | mk (root : RecId) (op : Node) (kids : List Tree)

namespace Tree

def root : Tree → RecId
  | mk r _ _ => r

def op : Tree → Node
  | mk _ n _ => n

def kids : Tree → List Tree
  | mk _ _ ks => ks

@[simp] theorem root_mk (r : RecId) (n : Node) (ks : List Tree) : (mk r n ks).root = r := rfl
@[simp] theorem op_mk (r : RecId) (n : Node) (ks : List Tree) : (mk r n ks).op = n := rfl
@[simp] theorem kids_mk (r : RecId) (n : Node) (ks : List Tree) : (mk r n ks).kids = ks := rfl

theorem mk_root_op_kids (t : Tree) : mk t.root t.op t.kids = t := by cases t; rfl

theorem induct {P : Tree → Prop} (h : ∀ r n ks, (∀ k ∈ ks, P k) → P (mk r n ks)) : ∀ t, P t
  | mk r n ks => h r n ks fun k _ => induct h k

mutual

/-- A tree with all trees below it, parents first. -/
def subtrees : Tree → List Tree
  | mk r n ks => mk r n ks :: subtreesAll ks

def subtreesAll : List Tree → List Tree
  | [] => []
  | k :: ks => subtrees k ++ subtreesAll ks

end

theorem subtreesAll_eq (ks : List Tree) : subtreesAll ks = ks.flatMap subtrees := by
  induction ks with
  | nil => rfl
  | cons k ks ih => simp [subtreesAll, ih]

theorem mem_subtrees_mk {u : Tree} {r : RecId} {n : Node} {ks : List Tree} :
    u ∈ (mk r n ks).subtrees ↔ u = mk r n ks ∨ ∃ k ∈ ks, u ∈ k.subtrees := by
  simp [subtrees, subtreesAll_eq]

theorem self_mem_subtrees (t : Tree) : t ∈ t.subtrees := by
  cases t
  simp [subtrees]

theorem kid_mem_subtrees {t k : Tree} (h : k ∈ t.kids) : k ∈ t.subtrees := by
  cases t with
  | mk r n ks => exact mem_subtrees_mk.mpr (Or.inr ⟨k, h, self_mem_subtrees k⟩)

theorem subtrees_trans {t u v : Tree} (hu : u ∈ t.subtrees) (hv : v ∈ u.subtrees) :
    v ∈ t.subtrees := by
  induction t using induct with
  | h r n ks ih =>
    rcases mem_subtrees_mk.mp hu with rfl | ⟨k, hk, huk⟩
    · exact hv
    · exact mem_subtrees_mk.mpr (Or.inr ⟨k, hk, ih k hk huk⟩)

/-- The records of a tree, parents first. -/
def recs (t : Tree) : List RecId := t.subtrees.map root

@[simp] theorem recs_mk (r : RecId) (n : Node) (ks : List Tree) :
    (mk r n ks).recs = r :: ks.flatMap recs := by
  simp only [recs, subtrees, subtreesAll_eq, List.map_cons, root_mk, List.map_flatMap]
  rfl

theorem root_mem_recs (t : Tree) : t.root ∈ t.recs := by
  cases t
  simp

theorem recs_subset {t u : Tree} (h : u ∈ t.subtrees) : u.recs ⊆ t.recs := by
  intro r hr
  obtain ⟨v, hv, rfl⟩ := List.mem_map.mp hr
  exact List.mem_map.mpr ⟨v, subtrees_trans h hv, rfl⟩

theorem kid_recs_subset {r : RecId} {n : Node} {ks : List Tree} {k : Tree} (h : k ∈ ks) :
    k.recs ⊆ (mk r n ks).recs := recs_subset (kid_mem_subtrees h)

theorem kids_recs_subset (t : Tree) : t.kids.flatMap recs ⊆ t.recs := by
  cases t
  rw [recs_mk]
  exact fun _ h => List.mem_cons_of_mem _ h

theorem nodup_of_mem {ts : List Tree} (h : (ts.flatMap recs).Nodup) {t : Tree} (ht : t ∈ ts) :
    t.recs.Nodup := (List.nodup_flatMap.mp h).1 t ht

theorem eq_of_mem_recs {ts : List Tree} (h : (ts.flatMap recs).Nodup) {t u : Tree} {r : RecId}
    (ht : t ∈ ts) (hu : u ∈ ts) (hrt : r ∈ t.recs) (hru : r ∈ u.recs) : t = u := by
  induction ts with
  | nil => simp at ht
  | cons v ts ih =>
    rw [List.flatMap_cons, List.nodup_append] at h
    have apart : ∀ w ∈ ts, r ∈ v.recs → r ∉ w.recs := fun w hw hv hrw =>
      h.2.2 r hv r (List.mem_flatMap.mpr ⟨w, hw, hrw⟩) rfl
    rcases List.mem_cons.mp ht with rfl | ht' <;> rcases List.mem_cons.mp hu with rfl | hu'
    · rfl
    · exact absurd hru (apart u hu' hrt)
    · exact absurd hrt (apart t ht' hru)
    · exact ih h.2.1 ht' hu'

theorem nodup_kids {t : Tree} (h : t.recs.Nodup) : (t.kids.flatMap recs).Nodup := by
  cases t
  simp only [recs_mk, List.nodup_cons] at h
  exact h.2

theorem root_notMem_kids {t : Tree} (h : t.recs.Nodup) : t.root ∉ t.kids.flatMap recs := by
  cases t
  simp only [recs_mk, List.nodup_cons] at h
  exact h.1

theorem nodup_subtree {t u : Tree} (h : t.recs.Nodup) (hu : u ∈ t.subtrees) : u.recs.Nodup := by
  induction t using induct with
  | h r n ks ih =>
    rcases mem_subtrees_mk.mp hu with rfl | ⟨k, hk, hu⟩
    · exact h
    · exact ih k hk (nodup_of_mem (nodup_kids h) hk) hu

theorem eq_of_root_eq {t u v : Tree} (h : t.recs.Nodup) (hu : u ∈ t.subtrees) (hv : v ∈ t.subtrees)
    (hr : u.root = v.root) : u = v := List.inj_on_of_nodup_map h hu hv hr

theorem root_notMem_grandkids {t k j : Tree} (h : t.recs.Nodup) (hk : k ∈ t.kids) (hj : j ∈ t.kids) :
    j.root ∉ k.kids.flatMap recs := by
  intro hm
  have hkn := nodup_of_mem (nodup_kids h) hk
  have hin : j.root ∈ k.recs := by
    cases k
    simp only [recs_mk]
    exact List.mem_cons_of_mem _ hm
  obtain rfl := eq_of_mem_recs (nodup_kids h) hk hj hin j.root_mem_recs
  exact root_notMem_kids hkn hm

/-- The op that is executed first: kids come before their parent. -/
def start : Tree → RecId
  | mk r _ [] => r
  | mk _ _ (k :: _) => start k

theorem start_mem_recs (t : Tree) : t.start ∈ t.recs := by
  induction t using induct with
  | h r n ks ih =>
    cases ks with
    | nil => simp [start]
    | cons k ks => exact kid_recs_subset (List.mem_cons_self ..) (ih k (List.mem_cons_self ..))

mutual

def height : Tree → Nat
  | mk _ _ ks => heightAll ks + 1

def heightAll : List Tree → Nat
  | [] => 0
  | k :: ks => max (height k) (heightAll ks)

end

theorem height_le_heightAll {k : Tree} {ks : List Tree} (h : k ∈ ks) : k.height ≤ heightAll ks := by
  induction ks with
  | nil => simp at h
  | cons j js ih =>
    simp only [heightAll]
    rcases List.mem_cons.mp h with rfl | h
    · exact Nat.le_max_left ..
    · exact Nat.le_trans (ih h) (Nat.le_max_right ..)

theorem heightAll_le (ks : List Tree) (h : ∀ k ∈ ks, k.height ≤ k.recs.length) :
    heightAll ks ≤ (ks.flatMap recs).length := by
  induction ks with
  | nil => simp [heightAll]
  | cons k ks ih =>
    have hk := h k (List.mem_cons_self ..)
    have hks := ih fun j hj => h j (List.mem_cons_of_mem _ hj)
    simp only [heightAll, List.flatMap_cons, List.length_append]
    omega

theorem height_le_length_recs (t : Tree) : t.height ≤ t.recs.length := by
  induction t using induct with
  | h r n ks ih =>
    have := heightAll_le ks ih
    simp only [height, recs_mk, List.length_cons]
    omega

def snoc (t u : Tree) : Tree :=
  mk t.root (if t.kids.isEmpty then { t.op with flags := t.op.flags ||| Flags.kids } else t.op)
    (t.kids ++ [u])

@[simp] theorem root_snoc (t u : Tree) : (t.snoc u).root = t.root := rfl
@[simp] theorem kids_snoc (t u : Tree) : (t.snoc u).kids = t.kids ++ [u] := rfl
@[simp] theorem code_snoc (t u : Tree) : (t.snoc u).op.code = t.op.code := by
  simp only [snoc, op_mk]
  split <;> rfl

theorem opClass_snoc (t u : Tree) : (t.snoc u).op.opClass = t.op.opClass := by
  simp only [snoc, op_mk]
  split <;> rfl

@[simp] theorem recs_snoc (t u : Tree) : (t.snoc u).recs = t.recs ++ u.recs := by
  cases t
  simp [snoc]

mutual

def mapOps (g : RecId → Node → Node) : Tree → Tree
  | mk r n ks => mk r (g r n) (mapOpsAll g ks)

def mapOpsAll (g : RecId → Node → Node) : List Tree → List Tree
  | [] => []
  | k :: ks => mapOps g k :: mapOpsAll g ks

end

section MapOps

variable (g g' : RecId → Node → Node)

theorem mapOpsAll_eq (ks : List Tree) : mapOpsAll g ks = ks.map (mapOps g) := by
  induction ks with
  | nil => rfl
  | cons k ks ih => simp [mapOpsAll, ih]

theorem mapOps_mk (r : RecId) (n : Node) (ks : List Tree) :
    (mk r n ks).mapOps g = mk r (g r n) (ks.map (mapOps g)) := by
  rw [mapOps, mapOpsAll_eq]

@[simp] theorem root_mapOps (t : Tree) : (t.mapOps g).root = t.root := by
  cases t
  rfl

theorem kids_mapOps (t : Tree) : (t.mapOps g).kids = t.kids.map (mapOps g) := by
  cases t
  rw [mapOps_mk, kids_mk, kids_mk]

theorem op_mapOps (t : Tree) : (t.mapOps g).op = g t.root t.op := by
  cases t
  rfl

@[simp] theorem map_root_mapOps (ks : List Tree) : (ks.map (mapOps g)).map root = ks.map root := by
  simp [Function.comp_def]

theorem subtrees_mapOps (t : Tree) : (t.mapOps g).subtrees = t.subtrees.map (mapOps g) := by
  induction t using induct with
  | h q n ks ih =>
    rw [mapOps_mk, subtrees, subtrees, subtreesAll_eq, subtreesAll_eq, List.map_cons, mapOps_mk,
      List.map_flatMap, List.flatMap_map]
    congr 1
    exact List.flatMap_congr ih

@[simp] theorem recs_mapOps (t : Tree) : (t.mapOps g).recs = t.recs := by
  simp [recs, subtrees_mapOps, Function.comp_def]

@[simp] theorem start_mapOps (t : Tree) : (t.mapOps g).start = t.start := by
  induction t using induct with
  | h q n ks ih =>
    cases ks with
    | nil => rfl
    | cons k ks => exact ih k (List.mem_cons_self ..)

variable {g g'}

theorem mapOps_congr {t : Tree} (h : ∀ u ∈ t.subtrees, g u.root u.op = g' u.root u.op) :
    t.mapOps g = t.mapOps g' := by
  induction t using induct with
  | h q n ks ih =>
    rw [mapOps_mk, mapOps_mk]
    congr 1
    · exact h _ (self_mem_subtrees _)
    · refine List.map_congr_left fun k hk => ih k hk fun u hu => h u ?_
      exact subtrees_trans (kid_mem_subtrees hk) hu

theorem mapOps_id (t : Tree) : t.mapOps (fun _ n => n) = t := by
  induction t using induct with
  | h q n ks ih =>
    rw [mapOps_mk]
    congr 1
    exact (List.map_congr_left ih).trans (List.map_id _)

end MapOps

def modify (r : RecId) (f : Node → Node) (t : Tree) : Tree :=
  t.mapOps fun q n => if q = r then f n else n

section Modify

variable {r : RecId} {f : Node → Node}

theorem modify_of_notMem {t : Tree} (h : r ∉ t.recs) : t.modify r f = t := by
  refine (mapOps_congr fun u hu => ?_).trans (mapOps_id t)
  rw [if_neg]
  rintro rfl
  exact h (List.mem_map.mpr ⟨u, hu, rfl⟩)

theorem modify_root {t : Tree} (h : t.recs.Nodup) : t.modify t.root f = mk t.root (f t.op) t.kids := by
  obtain ⟨q, n, ks⟩ := t
  rw [modify, mapOps_mk]
  simp only [root_mk, op_mk, kids_mk, if_true]
  congr 1
  refine (List.map_congr_left fun k hk => modify_of_notMem fun hq => ?_).trans (List.map_id _)
  exact root_notMem_kids h (List.mem_flatMap.mpr ⟨k, hk, hq⟩)

@[simp] theorem root_modify (t : Tree) : (t.modify r f).root = t.root := root_mapOps _ t
@[simp] theorem recs_modify (t : Tree) : (t.modify r f).recs = t.recs := recs_mapOps _ t

end Modify

end Tree

end OpTree
