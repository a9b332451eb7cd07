import OpTree.Proofs.Folds
import OpTree.Proofs.KidEdits
import OpTree.Proofs.Conversions

/-!
# Attempts to fold

An attempt that answers with the op itself leaves the arena as it was, or as the linearizer alone leaves it.
One that succeeds makes one op and frees the old tree.
-/

namespace OpTree

set_option autoImplicit false

namespace Arena

variable {a b : Arena}

theorem Rethreaded.occupied_iff {s : List RecId} (h : Rethreaded a b s) (r : RecId) : b.Occupied r ↔ a.Occupied r := by
  rw [Occupied, h.size, h.node r, Occupied]

theorem Rethreaded.stand {ts : List Tree} {s : List RecId} (h : Rethreaded a b s) (ha : a.Stand ts)
    (hs : s ⊆ ts.flatMap Tree.recs) : b.Stand ts :=
  ha.congr (Nat.le_of_eq h.size.symm) (fun _ _ r _ => h.samePlace r) (ha.freeList h.toLocal hs)

theorem FreeChain.findFree {fs : List RecId} {size : Int} {scan : Nat} {prev o : Option RecId} (h : a.FreeChain o fs)
    (hn : ∀ r ∈ fs, b.node r = a.node r) : b.findFree size scan prev o = a.findFree size scan prev o := by
  induction scan generalizing prev o fs with
  | zero => rfl
  | succ scan ih =>
    cases o with
    | none => rfl
    | some r =>
      cases fs with
      | nil => simp [FreeChain] at h
      | cons q fs =>
        obtain ⟨hq, hrest⟩ := h
        obtain rfl : r = q := Option.some.inj hq
        rw [Arena.findFree, Arena.findFree, hn r (by simp), ih hrest fun s hs => hn s (by simp [hs])]

theorem Stand.canAlloc {ts : List Tree} {s : List RecId} {g : Group} (h : a.Stand ts) (hg : a.group? = some g)
    (hb : Rethreaded a b s) (hs : s ⊆ ts.flatMap Tree.recs) (size : Int) : b.canAlloc g size = a.canAlloc g size := by
  obtain ⟨fs, hfs⟩ := h.free
  have hkeep : ∀ r ∈ fs, b.node r = a.node r := by
    intro r hr
    refine hb.outside r fun hm => ?_
    obtain ⟨t, ht, hm⟩ := List.mem_flatMap.mp (hs hm)
    exact hfs.notMem (h.holds t ht) hm hr
  have hfind : ∀ size, b.findFree size g.tune.freeScan.toNat none g.free =
      a.findFree size g.tune.freeScan.toNat none g.free := fun _ => (hfs.chain g hg).findFree hkeep
  simp only [Arena.canAlloc, reuse?, Option.isSome_map, hfind]

end Arena

namespace TreeM

open Arena Build OpTree.Tree

variable {a b c : Arena} {t : Tree} {k : RecId}

theorem new_live {fs : List RecId} {op : Opcode} {fl : Flags} (h : a.FreeList fs) (hr : new op fl a = .ok k b) :
    b.group?.map Group.live = a.group?.map fun g => g.live + 1 := by
  obtain ⟨q, c, hq, hr⟩ := bind_eq_ok.mp hr
  have hgroup : b.group? = c.group? := by
    cases hr
    rfl
  rw [hgroup]
  rw [alloc, bind_of_ok (get_apply _)] at hq
  cases hg : a.group? with
  | none =>
    rw [hg] at hq
    cases hq
    rw [hg]
    rfl
  | some g =>
    rw [hg] at hq
    simp only at hq
    split at hq
    · exact absurd hq throw_ne_ok
    · rw [bind_of_ok (get_apply _)] at hq
      split at hq
      · exact absurd hq throw_ne_ok
      · have hp : a.alloc g op.size = (q, c) := by
          cases hq
          rfl
        obtain ⟨-, g', hg', hlive, -⟩ := h.alloc_live hg hp
        rw [hg', Option.map_some, Option.map_some, hlive]

/-- A constant was made at `k`, where nothing was. All that was there before stays. -/
structure Placed (a b : Arena) (k : RecId) : Prop where
  const : (b.node k).code = .const
  fresh : ¬a.Occupied k
  occupied : ∀ r, b.Occupied r ↔ r = k ∨ a.Occupied r
  node : ∀ r, a.Occupied r → b.node r = a.node r
  live : b.group?.map Group.live = a.group?.map fun g => g.live + 1
  state : b.state = a.state
  saved : b.saved = a.saved

theorem Placed.of_new {ts : List Tree} {fl : Flags} {f : Node → Node} (h : a.Stand ts)
    (hr : new .const fl a = .ok k b) (hf : ∀ n, (f n).code = n.code) :
    Placed a (b.update k f) k ∧ (b.update k f).Stand ts := by
  obtain ⟨fs, hfs⟩ := h.free
  have hnew := new_adds hfs (by simp) hr
  obtain ⟨static, size, hnode⟩ := hnew.node
  obtain ⟨hb, -⟩ := new_stand h (by simp) hr
  have hk : b.Occupied k := (hnew.occupied k).mpr (Or.inl rfl)
  have hts : k ∉ ts.flatMap Tree.recs := by
    intro hm
    obtain ⟨u, hu, hm⟩ := List.mem_flatMap.mp hm
    exact hnew.fresh ((h.holds u hu).occupied hm)
  have hcode : ∀ r, ((b.update k f).node r).code = (b.node r).code := by
    intro r
    rcases node_update_cases (a := b) (r := k) (f := f) r with hr | ⟨rfl, hr⟩
    · rw [hr]
    · rw [hr, hf]
  have hlive := new_live hfs hr
  have hstate := congrArg Arena.state hnew.rest
  have hsaved := congrArg Arena.saved hnew.rest
  refine ⟨⟨?_, hnew.fresh, fun r => ?_, fun r hr => ?_, hlive, ?_, ?_⟩, ?_⟩
  · rw [hcode, hnode]
  · rw [← hnew.occupied r, Occupied, size_update, hcode, Occupied]
  · have hrk : r ≠ k := fun he => hnew.fresh (he ▸ hr)
    rw [node_update_of_ne hrk, hnew.keeps r hr]
  · exact hstate
  · exact hsaved
  · exact (update_stand (hb.sublist (List.sublist_cons_self _ _)) hts hk.2).1

/-- What an attempt leaves that answers with the op itself. -/
structure Undone (a b : Arena) (t : Tree) : Prop where
  links : b = a ∨ ∃ start, linearize t.root a = .ok (some start) b
  holds : b.Holds t
  rethreaded : Rethreaded a b t.recs
  state : b.state = a.state
  saved : b.saved = a.saved
  group : b.group? = a.group?

theorem Undone.of_rethreaded (hh : a.Holds t) (hab : Rethreaded a b t.recs)
    (hl : b = a ∨ ∃ start, linearize t.root a = .ok (some start) b) : Undone a b t :=
  ⟨hl, hab.holds hh, hab, by rw [hab.rest], by rw [hab.rest], by rw [hab.rest]⟩

/-- What an attempt leaves that answers with a new constant `k`. Subs with references to spare stay below the
freed ops. -/
structure Replaced (a b : Arena) (t : Tree) (k : RecId) : Prop where
  const : (b.node k).code = .const
  fresh : ¬a.Occupied k
  occupied : ∀ r, b.Occupied r ↔ r = k ∨ a.Occupied r ∧ r ∉ t.owned
  outside : ∀ r, a.Occupied r → r ∉ t.recs → b.node r = a.node r
  spared : ∀ r ∈ t.recs, r ∉ t.owned → b.node r =
    { (if r ∈ t.spared then (a.node r).dereferenced else a.node r) with
      next := (b.node r).next, real := (b.node r).real }
  live : b.group?.map Group.live = a.group?.map fun g => g.live + 1 - (a.carved t.owned : Int)
  state : b.state = a.state
  saved : b.saved = a.saved

theorem Replaced.of_placed {d : Arena} (hh : a.Holds t) (hac : Rethreaded a c t.recs) (hcd : Placed c d k)
    (hdb : Disposed d b [t]) : Replaced a b t k := by
  have hocc : ∀ r, c.Occupied r ↔ a.Occupied r := hac.occupied_iff
  have hfresh : ¬a.Occupied k := fun hk => hcd.fresh ((hocc k).mpr hk)
  have hkt : k ∉ t.recs := fun hm => hfresh (hh.occupied hm)
  have htree : ∀ r ∈ t.recs, d.node r = c.node r := fun r hr =>
    hcd.node r ((hocc r).mpr (hh.occupied hr))
  have howned : [t].flatMap Tree.owned = t.owned := by simp
  have hspared : [t].flatMap Tree.spared = t.spared := by simp
  have hout : ∀ r ∉ t.recs, b.node r = d.node r := fun r hr => hdb.outside (by simpa using hr)
  have hleft : ∀ r ∉ t.owned, b.node r = if r ∈ t.spared then (d.node r).dereferenced else d.node r := by
    intro r hr
    split
    · exact hdb.spared r (hspared ▸ ‹_›)
    · exact hdb.node r (howned ▸ hr) (hspared ▸ ‹_›)
  have hcarved : d.carved t.owned = a.carved t.owned := List.countP_congr fun r hr => by
    rw [htree r (t.owned_subset hr), hac.node r]
  have hgroup : c.group? = a.group? := by rw [hac.rest]
  refine ⟨(congrArg Node.code (hout k hkt)).trans hcd.const, hfresh, fun r => ?_, fun r hr hrt => ?_,
    fun r hr hro => ?_, ?_, ?_, ?_⟩
  · by_cases hr : r ∈ t.owned
    · have hfreed : (b.node r).code = .freed := hdb.freed r (howned ▸ hr)
      have hrk : r ≠ k := fun he => hkt (he ▸ t.owned_subset hr)
      simp [Occupied, hfreed, hr, hrk]
    · have hcode : (b.node r).code = (d.node r).code := by
        rw [hleft r hr]
        split <;> rfl
      have hiff : b.Occupied r ↔ d.Occupied r := by rw [Occupied, hdb.size, hcode, Occupied]
      rw [hiff, hcd.occupied r, hocc r]
      simp [hr]
  · rw [hout r hrt, hcd.node r ((hocc r).mpr hr), hac.outside r hrt]
  · rw [hleft r hro, htree r hr]
    split
    · rw [hac.node r]
      rfl
    · rw [← hac.node r]
  · calc b.group?.map Group.live
        = (d.group?.map Group.live).map (· - (a.carved t.owned : Int)) := by
          rw [hdb.live, howned, hcarved, Option.map_map]
          rfl
      _ = a.group?.map fun g => g.live + 1 - (a.carved t.owned : Int) := by
          rw [hcd.live, hgroup, Option.map_map]
          rfl
  · rw [hdb.rest, hcd.state, hac.rest]
  · rw [hdb.rest, hcd.saved, hac.rest]

theorem owned_eq_of_safe {start : RecId} {fuel : Nat} (h : a.Ready t) (hh : a.Holds t) (hn : t.recs.Nodup)
    (hcan : t.op.code.foldable = true) (hlin : linearize t.root a = .ok (some start) c)
    (hsafe : c.chainSafe t.root fuel (some start) = true) : t.owned = t.recs := by
  obtain ⟨c', hok, hac, hlinked⟩ := linearize_ok h hh hn
  obtain ⟨hstart, rfl⟩ := EStateM.Result.ok.inj (hlin.symm.trans hok)
  obtain rfl := Option.some.inj hstart
  have hstraight := Flow.straight_root hlinked (hac.holds hh) hn (Opcode.foldSafe_of_foldable hcan) hsafe
  refine owned_eq_recs fun u hu => ?_
  have hcode : u.op.code ≠ .leavesub := fun he => by
    have := hstraight.safe u hu
    simp [he, Opcode.foldSafe, Opcode.foldable] at this
  simp [Node.shared, hcode]

/-- Where the op itself is answered, the tree is as it was or as linearizing alone leaves it, and so is all the rest
of the arena: the statement and the hook of the compilation, the states that are saved and the slabs. Where a
constant is answered, that is the one op that was made, and the tree is freed, which is all of its ops but for subs
with references to spare, and what is below those. A tree that is ready for the linearizer has no such subs. -/
theorem fold_settles (h : a.Stand [t]) (hok : fold t.root a = .ok k b) :
    k = t.root ∧ Undone a b t ∨ k ≠ t.root ∧ Replaced a b t k ∧ (a.Ready t → t.owned = t.recs) := by
  have hh := h.holds t (by simp)
  have hn := h.nodup_head
  cases fold_attempts hh hn hok with
  | untouched hb => exact Or.inl ⟨rfl, .of_rethreaded hh (hb ▸ Rethreaded.refl a _) (Or.inl hb)⟩
  | linearized _ hb hlin =>
    exact Or.inl ⟨rfl, .of_rethreaded hh (hb.rethreaded.mono (crown_subset a t)) (Or.inr ⟨_, hlin⟩)⟩
  | @replaced c d e _ v hcan hc hlin hsafe htrial hnew hfree =>
    have hac : Rethreaded a c t.recs := hc.rethreaded.mono (crown_subset a t)
    obtain ⟨hplaced, hstand⟩ := Placed.of_new (f := fun x =>
      { x with val := .scalar v, priv := x.priv ||| Priv.folded, line := t.op.line })
      (hac.stand h (by simp)) hnew fun _ => rfl
    obtain ⟨-, hdisposed⟩ := freeTree_disposes hstand hfree
    have hreplaced : Replaced a b t k := .of_placed hh hac hplaced hdisposed
    refine Or.inr ⟨fun he => hreplaced.fresh (he ▸ hh.occupied t.root_mem_recs), hreplaced, fun hr => ?_⟩
    exact owned_eq_of_safe hr hh hn hcan hlin hsafe

/-- One op was made, the constant `k`, and the ops of the tree are freed, all of them and no others. -/
structure Exchanged (a b : Arena) (t : Tree) (k : RecId) : Prop where
  const : (b.node k).code = .const
  fresh : ¬a.Occupied k
  occupied : ∀ r, b.Occupied r ↔ r = k ∨ a.Occupied r ∧ r ∉ t.recs
  outside : ∀ r, a.Occupied r → r ∉ t.recs → b.node r = a.node r
  live : b.group?.map Group.live = a.group?.map fun g => g.live + 1 - (a.carved t.recs : Int)
  state : b.state = a.state
  saved : b.saved = a.saved

theorem Replaced.exchanged (h : Replaced a b t k) (howned : t.owned = t.recs) : Exchanged a b t k := by
  have hoccupied := h.occupied
  have hlive := h.live
  rw [howned] at hoccupied hlive
  exact ⟨h.const, h.fresh, hoccupied, h.outside, hlive, h.state, h.saved⟩

section Builder

variable {ks rs : List RecId} {x : TreeM RecId} {o : RecId}

/-- **Folding.** An attempt is made on an op that a constructor has just made, or on one that was built before. Where
it answers with the op itself, the tree is as it was or as linearizing alone leaves it, and so is all the rest of the
arena. Where it answers with a constant, that is the one op that was made, and the old tree is freed. -/
theorem fold_restores (h : Built a (ks ++ rs)) (hx : Foldee ks x) (hok : x a = .ok o b) (hfold : fold o b = .ok k c) :
    k = o ∧ Undone b c (b.tree o) ∨ k ≠ o ∧ Exchanged b c (b.tree o) k := by
  obtain ⟨t, ts, rfl, -, hsite⟩ := hx.site h hok
  have htree := (hsite.holds t (by simp)).tree_eq hsite.toStand.nodup_head
  have hstand : b.Stand [t] := hsite.toStand.sublist (List.cons_sublist_cons.mpr (List.nil_sublist ts))
  rw [htree]
  rcases fold_settles hstand hfold with hundone | ⟨hk, hreplaced, howned⟩
  · exact Or.inl hundone
  · exact Or.inr ⟨hk, hreplaced.exchanged (howned (hsite.ready t (by simp)))⟩

/-- A text made of a format and two numbers is folded. Of the ops that were made only the constant is left. -/
theorem fold_restores_formatted : ∃ a f x y b o k c, Built a ([f, x, y] ++ []) ∧
    Foldee [f, x, y] (rawListop .sprintf [f, x, y]) ∧ rawListop .sprintf [f, x, y] a = .ok o b ∧ fold o b = .ok k c ∧
    k ≠ o ∧ Exchanged b c (b.tree o) k ∧ (b.tree o).recs.length = 5 ∧ b.group?.map Group.live = some 5 ∧
    c.group?.map Group.live = some 1 := by
  have hall : yields (Build.const (.int 2)) (Arena.ofTuning [] {}) (fun y a => yields (Build.const (.int 1)) a fun x a =>
      yields (Build.const (.str (utf8 "%d-%d"))) a fun f a => yields (rawListop .sprintf [f, x, y]) a fun o b =>
        yields (fold o) b fun k c => decide (k ≠ o) && decide ((b.tree o).recs.length = 5) &&
          decide (b.group?.map Group.live = some 5) && decide (c.group?.map Group.live = some 1)) = true := by
    decide +kernel
  obtain ⟨y, a₁, hy, hall⟩ := ok_of_yields hall
  obtain ⟨x, a₂, hx, hall⟩ := ok_of_yields hall
  obtain ⟨f, a, hf, hall⟩ := ok_of_yields hall
  obtain ⟨o, b, ho, hall⟩ := ok_of_yields hall
  obtain ⟨k, c, hk, hall⟩ := ok_of_yields hall
  simp only [Bool.and_eq_true, decide_eq_true_eq] at hall
  obtain ⟨⟨⟨hne, hrecs⟩, hlive⟩, hone⟩ := hall
  have hstart : Built (Arena.ofTuning [] {}) ([] ++ []) := .start rfl fun g hg => by cases hg; rfl
  have hb₁ : Built a₁ ([] ++ [y]) := hstart.call (.const _) hy
  have hb₂ : Built a₂ ([] ++ [x, y]) := hb₁.call (.const _) hx
  have hb : Built a ([f, x, y] ++ []) := hb₂.call (.const _) hf
  have hraw : Foldee [f, x, y] (rawListop .sprintf [f, x, y]) := .listop .sprintf [f, x, y]
  rcases fold_restores hb hraw ho hk with ⟨he, -⟩ | ⟨-, hexchanged⟩
  · exact absurd he hne
  · exact ⟨a, f, x, y, b, o, k, c, hb, hraw, ho, hk, hne, hexchanged, hrecs, hlive, hone⟩

end Builder

/-- If there is memory for a constant, it is made in place of a tree, and the tree is freed. -/
theorem replace_returns {g : Group} {fl : Flags} {f : Node → Node} (h : a.Stand [t]) (hg : a.group? = some g)
    (hrel : g.released = false) (hroom : a.canAlloc g Opcode.const.size = true) (hf : ∀ n, (f n).code = n.code) :
    ∃ k b, (do let k ← new .const fl; update k f; freeTree t.root; return k : TreeM RecId) a = .ok k b := by
  have halloc := @alloc_apply a g Opcode.const.size hg hrel
  rw [hroom, if_pos rfl] at halloc
  obtain ⟨k, c, hnew⟩ : ∃ k c, new .const fl a = .ok k c := ⟨_, _, new_of_alloc halloc⟩
  obtain ⟨hplaced, hstand⟩ := Placed.of_new h hnew hf
  have hsome := congrArg Option.isSome hplaced.live
  rw [Option.isSome_map, Option.isSome_map, hg] at hsome
  obtain ⟨b, hfree, -⟩ := freeTree_runs hstand hsome
  refine ⟨k, b, ?_⟩
  rw [bind_of_ok hnew, bind_of_ok (update_apply _ _ _), bind_of_ok hfree]
  rfl

/-- A trial returns, with a value or without one, unless its run breaks an invariant or is fatal. -/
theorem trial_returns {d : Arena} {o : RecId} (start? : Option RecId)
    (hd : d = c.update o fun n => { n with next := none, real := true }) :
    (∃ v?, trial o start? c = .ok v? d) ∨
      ∃ e m, Exec.run ⟨d.recs, none⟩ d.bound start? d.trying.trialMachine = .error e m ∧ e.raised = true := by
  cases hrun : Exec.run ⟨d.recs, none⟩ d.bound start? d.trying.trialMachine with
  | ok _ m => exact Or.inl ⟨m.onlyScalar?, by rw [trial_apply _ hd, hrun]⟩
  | error e m =>
    cases hraised : e.raised with
    | true => exact Or.inr ⟨e, m, rfl, hraised⟩
    | false =>
      refine Or.inl ⟨none, ?_⟩
      rw [trial_apply _ hd, hrun]
      cases e with
      | broken msg | fatal msg => cases hraised
      | _ => rfl

end TreeM

end OpTree
