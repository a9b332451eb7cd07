import OpTree.Proofs.Weaving

/-!
# Order of execution

A tree in which some subtrees are linked already is linearized in post-order, with the chains of those
subtrees in their places.
-/

namespace OpTree

set_option autoImplicit false

namespace Arena

open OpTree.Tree TreeM

variable {a b : Arena} {o : RecId} {p : Option RecId} {l : List RecId}

/-- Following the successors from `p` leads through the records of a list to its end, the first time that
`o` is met. -/
inductive Trail (a : Arena) (o : RecId) : Option RecId → List RecId → Prop where
  | reached : Trail a o (some o) [o]
  | step {r : RecId} {l : List RecId} (h : r ≠ o) (hl : Trail a o (a.node r).next l) : Trail a o (some r) (r :: l)

theorem Trail.head_eq (h : a.Trail o p l) : l.head? = p := by
  cases h <;> rfl

theorem Trail.ne_none (h : a.Trail o p l) : p ≠ none := by
  cases h <;> simp

theorem Trail.congr (h : a.Trail o p l) (hs : ∀ r ∈ l, r ≠ o → (b.node r).next = (a.node r).next) :
    b.Trail o p l := by
  induction h with
  | reached => exact .reached
  | @step r l h hl ih =>
    apply Trail.step h
    rw [hs r (List.mem_cons_self ..) h]
    exact ih fun q hq => hs q (List.mem_cons_of_mem r hq)

theorem Trail.append {k : RecId} {l' : List RecId} (h : a.Trail k p l) (ho : o ∉ l)
    (h' : a.Trail o (a.node k).next l') : a.Trail o p (l ++ l') := by
  induction h with
  | reached => exact .step (fun he => ho (by simp [he])) h'
  | @step r l _ _ ih =>
    apply Trail.step fun he => ho (by simp [he])
    exact ih fun hm => ho (List.mem_cons_of_mem r hm)

theorem Strung.trail {f : Tree → RecId} {order : Tree → List RecId} {k : Tree} {ks : List Tree}
    (hs : a.Strung f o (k :: ks)) (ht : ∀ j ∈ k :: ks, a.Trail j.root (some (f j)) (order j))
    (ho : ∀ j ∈ k :: ks, o ∉ order j) : a.Trail o (some (f k)) ((k :: ks).flatMap order ++ [o]) := by
  induction ks generalizing k with
  | nil =>
    rw [List.flatMap_singleton]
    refine (ht k (by simp)).append (ho k (by simp)) ?_
    rw [hs.1]
    exact .reached
  | cons j ks ih =>
    rw [List.flatMap_cons, List.append_assoc]
    refine (ht k (by simp)).append (ho k (by simp)) ?_
    rw [hs.1.1]
    exact ih hs.2 (fun i hi => ht i (List.mem_cons_of_mem k hi)) fun i hi => ho i (List.mem_cons_of_mem k hi)

/-- Nothing is linked in a tree but some subtrees. The root of each of these floats, and its `chain` leads
through the subtree from the start to the root. -/
inductive Prelinked (a : Arena) (chain : RecId → List RecId) : Tree → Prop where
  | linked {t : Tree} (hf : (a.node t.root).real = false)
      (ht : a.Trail t.root (a.node t.root).next (chain t.root)) (hs : chain t.root ⊆ t.recs) : Prelinked a chain t
  | op {r : RecId} {o : Node} {ks : List Tree} (h : (a.node r).next = none)
      (hks : ∀ k ∈ ks, Prelinked a chain k) : Prelinked a chain (.mk r o ks)

mutual

/-- The records of a tree in post-order, with the chains of the linked subtrees in their places. -/
def order (a : Arena) (chain : RecId → List RecId) : Tree → List RecId
  | .mk r _ ks => if (a.node r).next.isSome then chain r else orderAll a chain ks ++ [r]

def orderAll (a : Arena) (chain : RecId → List RecId) : List Tree → List RecId
  | [] => []
  | k :: ks => order a chain k ++ orderAll a chain ks

end

section Order

variable {chain : RecId → List RecId}

theorem orderAll_eq (ks : List Tree) : a.orderAll chain ks = ks.flatMap (a.order chain) := by
  induction ks with
  | nil => rfl
  | cons k ks ih => simp [orderAll, ih]

theorem order_of_linked {t : Tree} (h : (a.node t.root).next ≠ none) : a.order chain t = chain t.root := by
  cases t
  exact if_pos (Option.isSome_iff_ne_none.mpr h)

theorem order_mk {r : RecId} {n : Node} {ks : List Tree} (h : (a.node r).next = none) :
    a.order chain (.mk r n ks) = ks.flatMap (a.order chain) ++ [r] := by
  rw [order, h, orderAll_eq]
  rfl

theorem Prelinked.order_subset {t : Tree} (h : a.Prelinked chain t) : a.order chain t ⊆ t.recs := by
  induction h with
  | linked _ ht hs =>
    rw [order_of_linked ht.ne_none]
    exact hs
  | @op r n ks h _ ih =>
    rw [order_mk h]
    intro q hq
    rcases List.mem_append.mp hq with hq | hq
    · obtain ⟨k, hk, hq⟩ := List.mem_flatMap.mp hq
      exact kid_recs_subset hk (ih k hk hq)
    · exact List.mem_singleton.mp hq ▸ root_mem_recs _

theorem Prelinked.trail {t : Tree} (h : a.Prelinked chain t) (hn : t.recs.Nodup) (hw : Woven a b t)
    (hkeep : ∀ r ∈ t.recs, r ∉ a.crown t → b.node r = a.node r) :
    b.Trail t.root (some (a.entrance t)) (a.order chain t) := by
  induction h with
  | @linked t _ ht hs =>
    have hl := ht.ne_none
    obtain ⟨q, hq⟩ := Option.ne_none_iff_exists'.mp hl
    have hentrance : a.entrance t = q := by
      cases t
      rw [root_mk] at hq
      rw [entrance_mk, hq, Option.getD_some]
    rw [order_of_linked hl, hentrance, ← hq]
    refine ht.congr fun r hr hne => congrArg Node.next (hkeep r (hs hr) ?_)
    rwa [crown_of_linked hl, List.mem_singleton]
  | @op r n ks hnone hks ih =>
    cases hw with
    | linked h => exact absurd hnone h
    | op _ hwk hstrung =>
      rw [order_mk hnone, entrance_mk, hnone]
      cases ks with
      | nil => exact .reached
      | cons k ks =>
        refine hstrung.trail (fun j hj => ?_) fun j hj hm => ?_
        · exact ih j hj (nodup_of_mem (nodup_kids hn) hj) (hwk j hj) (crown_kid hn hnone hkeep hj)
        · exact root_notMem_kids hn (List.mem_flatMap.mpr ⟨j, hj, (hks j hj).order_subset hm⟩)

theorem Prelinked.floats {t : Tree} (h : a.Prelinked chain t) (hab : Threaded a b t) :
    b.Floats t.root (a.entrance t) := by
  refine ⟨hab.next, hab.real.trans ?_⟩
  cases h with
  | linked hf => simp [hf]
  | op h => simp [h]

/-- **Linearizing.** A well-formed tree in which nothing is linked but some floating subtrees is linearized.
From the start that is answered the links lead to the root, in post-order, with the chains of those subtrees
in their places. The root floats, and all other ops that were not linked and roots of linked subtrees are
embedded; nothing else has changed. Linearizing once more changes nothing and answers the same. -/
theorem linearize_prelinked {t : Tree} (h : a.Prelinked chain t) (hh : a.Holds t) (hn : t.recs.Nodup) :
    ∃ start b, linearize t.root a = .ok (some start) b ∧ b.Trail t.root (some start) (a.order chain t) ∧
      b.Floats t.root start ∧ (∀ r ∈ a.crown t, r ≠ t.root → (b.node r).real = true) ∧
      Rethreaded a b (a.crown t) ∧ linearize t.root b = .ok (some start) b := by
  obtain ⟨b, hok, hab⟩ := linearize_threads hh hn
  have htrail := h.trail hn hab.woven fun r _ hr => hab.keep hr
  exact ⟨a.entrance t, b, hok, htrail, h.floats hab, fun r hr hne => hab.woven.real hr hne, hab.rethreaded,
    linearize_of_linked hab.next⟩

end Order

def negated : Arena where
  recs := #[{ code := .add, flags := Flags.kids, first := some 1, last := some 3, id := 4 },
    { code := .negate, flags := Flags.kids, first := some 2, sib := .next (some 3), next := some 2, id := 2 },
    { code := .const, sib := .up 1, next := some 1, real := true, id := 1 },
    { code := .const, sib := .up 0, id := 3 }]

def negatedTree : Tree :=
  .mk 0 (negated.node 0).plain [.mk 1 (negated.node 1).plain [.mk 2 (negated.node 2).plain []],
    .mk 3 (negated.node 3).plain []]

/-- The chain of the negation comes first. -/
theorem linearize_prelinked_negated : ∃ b, linearize 0 negated = .ok (some 2) b ∧
    b.Trail 0 (some 2) [2, 1, 3, 0] ∧ (b.node 1).real = true ∧ linearize 0 b = .ok (some 2) b := by
  have h2 : negated.Holds (.mk 2 (negated.node 2).plain []) :=
    holds_mk.mpr ⟨⟨by decide, rfl, by decide, rfl, fun _ => rfl, trivial⟩, by simp⟩
  have h3 : negated.Holds (.mk 3 (negated.node 3).plain []) :=
    holds_mk.mpr ⟨⟨by decide, rfl, by decide, rfl, fun _ => rfl, trivial⟩, by simp⟩
  have h1 : negated.Holds (.mk 1 (negated.node 1).plain [.mk 2 (negated.node 2).plain []]) :=
    holds_mk.mpr ⟨⟨by decide, rfl, by decide, rfl, by decide, rfl⟩, by simpa using h2⟩
  have h0 : negated.Holds negatedTree :=
    holds_mk.mpr ⟨⟨by decide, rfl, by decide, rfl, fun _ => rfl, rfl, rfl⟩, by simp [h1, h3]⟩
  have hchain : negated.Trail 1 (some 2) [2, 1] := .step (by decide) .reached
  have hpre : negated.Prelinked (fun _ => [2, 1]) negatedTree := by
    refine .op rfl fun k hk => ?_
    simp only [List.mem_cons, List.not_mem_nil, or_false] at hk
    rcases hk with rfl | rfl
    · exact .linked rfl hchain (by decide)
    · exact .op rfl (by simp)
  obtain ⟨start, b, hok, htrail, -, hreal, -, hagain⟩ := linearize_prelinked hpre h0 (by decide)
  have hstart : some start = some 2 := htrail.head_eq.symm
  rw [hstart] at hok htrail hagain
  exact ⟨b, hok, htrail, hreal 1 (by decide) (by decide), hagain⟩

end Arena

end OpTree
