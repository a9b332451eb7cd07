import OpTree.Proofs.Compiled
import OpTree.Proofs.Folds

/-!
# Checked units

Whatever the optimizer does to a wired tree, the tree passes every check that is made at the end. So
finishing a unit that was assembled breaks no invariant: the unit is finished, or the listing asks for an
index that no array has, or memory does not hold the queue that the tuning asks for.
-/

namespace OpTree

set_option autoImplicit false

namespace Arena

open OpTree.Tree

variable {S : Course} {a : Arena} {t : Tree}

theorem Wired.complaint (h : Wired S a t) {u : Tree} (hu : u ∈ t.subtrees) : a.complaint? u.root = none := by
  have hh : a.Holds u := h.holds.subtree hu
  have hmem : u.root ∈ t.recs := recs_subset hu u.root_mem_recs
  have hkids : a.kids u.root = u.kids.map Tree.root := hh.kids_eq (nodup_subtree h.nodup hu)
  have hlive : (a.node u.root).code ≠ .freed := hh.live u.root_mem_recs
  have hshape : (a.node u.root).Shape u.kids.length := by
    rw [← Node.shape_plain, hh.fits.op]
    exact h.shaped u hu
  have hlast : (a.kids u.root).getLast?.filter (fun k => (a.node k).sib.parent? ≠ some u.root) = none := by
    rw [Option.filter_eq_none_iff, hkids]
    intro k hk
    rw [hh.fits.sibs.getLast hk]
    simp [Sib.parent?, Sib.up]
  have hstale : ((a.node u.root).opClass.tracksLast && decide ((a.node u.root).last ≠ (a.kids u.root).getLast?)) =
      false := by
    rw [Bool.and_eq_false_imp]
    intro htr
    rw [hkids, List.getLast?_map, hh.fits.last (by rwa [← hh.fits.op, Node.opClass_plain])]
    simp
  have hmissing : (a.node u.root).missing? = none := by
    unfold Node.missing?
    split
    · rename_i hc
      simpa [Option.isNone_iff_eq_none] using h.arm u.root hmem hc
    · rename_i hc
      obtain ⟨p, hp, hne⟩ := hshape.path hc
      simpa [hp] using hne
    · rfl
  have hflag : (a.node u.root).flags.has Flags.kids = !(a.kids u.root).isEmpty := by
    rw [hshape.flag, hkids]
    cases u.kids <;> rfl
  unfold complaint?
  simp only [if_neg hlive, hflag, ne_eq, not_true_eq_false, if_false, hstale, Bool.false_eq_true, hmissing]
  rw [hlast]
  simp only [Option.map_none]
  by_cases hnull : (a.node u.root).code = .null
  · rw [if_pos hnull]
  · rw [if_neg hnull, hkids, List.length_map, hshape.count hnull]
    rfl

/-- The check comes to the end of trees whose ops are all well and have ids of their own. -/
theorem checkStack_eq_none {fuel : Nat} {seen : IdSet} {ts : List Tree} (hh : ∀ t ∈ ts, a.Holds t)
    (hn : ∀ t ∈ ts, t.recs.Nodup) (hc : ∀ r ∈ ts.flatMap Tree.recs, a.complaint? r = none)
    (hids : (a.idsOf ts).Nodup) (hnew : ∀ i ∈ a.idsOf ts, seen.contains i = false)
    (hf : (ts.flatMap Tree.recs).length ≤ fuel) : a.checkStack fuel seen (ts.map Tree.root) = none := by
  induction fuel generalizing seen ts with
  | zero =>
    cases ts with
    | nil => rfl
    | cons t ts =>
      obtain ⟨r, o, ks⟩ := t
      simp at hf
  | succ fuel ih =>
    cases ts with
    | nil => rfl
    | cons t ts =>
      obtain ⟨r, o, ks⟩ := t
      have ht := hh _ (List.mem_cons_self ..)
      have htn := hn _ (List.mem_cons_self ..)
      have hkids : a.kids r = ks.map Tree.root := ht.kids_eq htn
      have hperm := idsOf_perm (a := a) r o ks ts
      have hseen : seen.contains (a.node r).id = false := hnew _ (hperm.mem_iff.mpr (List.mem_cons_self ..))
      have hids' := List.nodup_cons.mp (hperm.nodup_iff.mp hids)
      have hrest : ∀ k ∈ ks.reverse ++ ts, a.Holds k ∧ k.recs.Nodup := by
        intro k hk
        rcases List.mem_append.mp hk with hk | hk
        · have hk' := List.mem_reverse.mp hk
          exact ⟨ht.kid hk', nodup_of_mem (nodup_kids htn) hk'⟩
        · exact ⟨hh k (List.mem_cons_of_mem _ hk), hn k (List.mem_cons_of_mem _ hk)⟩
      have hflat : ((ks.reverse ++ ts).flatMap Tree.recs).Perm (ks.flatMap Tree.recs ++ ts.flatMap Tree.recs) := by
        rw [List.flatMap_append]
        exact ((List.reverse_perm ks).flatMap_right _).append_right _
      rw [List.flatMap_cons, recs_mk, List.cons_append] at hc hf
      rw [List.map_cons, root_mk, checkStack, IdSet.mark, hseen]
      simp only [Bool.false_eq_true, if_false, hc r (List.mem_cons_self ..)]
      rw [hkids, ← List.map_reverse, ← List.map_append]
      refine ih (fun k hk => (hrest k hk).1) (fun k hk => (hrest k hk).2)
        (fun q hq => hc q (List.mem_cons_of_mem _ (hflat.mem_iff.mp hq))) hids'.2 (fun i hi => ?_) ?_
      · by_contra hin
        rcases IdSet.contains_insert_iff.mp (by simpa using hin) with rfl | hin
        · exact hids'.1 hi
        · rw [hnew i (hperm.mem_iff.mpr (List.mem_cons_of_mem _ hi))] at hin
          cases hin
      · rw [hflat.length_eq]
        exact Nat.le_of_succ_le_succ hf

theorem Wired.check (h : Wired S a t) : a.check? t.root = none := by
  refine @checkStack_eq_none a _ _ [t] (by simpa using h.holds) (by simpa using h.nodup) (fun r hr => ?_) ?_
    (fun i _ => IdSet.contains_empty i) ?_
  · rw [List.flatMap_singleton] at hr
    obtain ⟨u, hu, rfl⟩ := List.mem_map.mp hr
    exact h.complaint hu
  · rw [idsOf, List.flatMap_singleton]
    exact h.nodup.map_on fun r hr q hq he => h.id_inj r hr q hq he
  · rw [List.flatMap_singleton]
    exact Nat.le_succ_of_le (h.holds.length_recs_le h.nodup)

end Arena

namespace TreeM

open Arena

/-- All records of a group can be freed, and that leaves the references to the group as they are. -/
theorem freeUnpinned_runs (rs : List RecId) {a : Arena} {g : Group} (hg : a.group? = some g) :
    ∃ n b g', freeUnpinned rs a = .ok n b ∧ b.group? = some g' ∧ g'.refs = g.refs := by
  induction rs generalizing a g with
  | nil => exact ⟨0, a, g, rfl, hg, rfl⟩
  | cons r rs ih =>
    rw [freeUnpinned, bind_of_ok (node_apply r a)]
    split
    · exact ih hg
    · rename_i hskip
      simp only [Bool.or_eq_true, decide_eq_true_eq, not_or, Bool.not_eq_true] at hskip
      split
      · obtain ⟨n, b, g', hok, hb⟩ := ih hg
        exact ⟨n + 1, b, g', by rw [bind_of_ok hok]; rfl, hb⟩
      · obtain ⟨b, g', hfree, hb, hrefs⟩ : ∃ b g', freeInGroup r (a.update r Node.destroyed) = .ok () b ∧
            b.group? = some g' ∧ g'.refs = g.refs := by
          have hnode : ((a.update r Node.destroyed).node r).static = false ∧
              ((a.update r Node.destroyed).node r).code ≠ .freed := by
            rcases node_update_cases (a := a) (r := r) (f := Node.destroyed) r with he | ⟨-, he⟩
            · rw [he]
              exact hskip
            · rw [he]
              unfold Node.destroyed
              split <;> exact hskip
          have hgroup : (a.update r Node.destroyed).group? = some g := hg
          rw [freeInGroup, bind_of_ok (node_apply _ _), if_neg hnode.2, bind_of_ok (get_apply _), hnode.1, hgroup]
          exact ⟨_, _, rfl, rfl, rfl⟩
        obtain ⟨n, c, g'', hok, hc, hrefs'⟩ := ih hb
        refine ⟨n, c, g'', ?_, hc, hrefs'.trans hrefs⟩
        rw [destroy, bind_of_ok (update_apply _ _ _), bind_of_ok hfree]
        exact hok

theorem forceFreeAll_runs {a : Arena} (h : a.Held) : ∃ b, forceFreeAll a = .ok () b := by
  obtain ⟨g, hg, hrefs, hreleased⟩ := h
  obtain ⟨n, b, g', hok, hb, hrefs'⟩ := freeUnpinned_runs (List.range a.recs.size) hg
  rw [hrefs] at hrefs'
  rw [forceFreeAll, bind_of_ok (group_apply hg), hreleased]
  simp only [Bool.false_eq_true, if_false]
  rw [bind_of_ok (get_apply a), bind_of_ok hok, bind_of_ok (group_apply hb)]
  split
  · rw [freeGroup, bind_of_ok (group_apply hb), if_neg (by simpa using hrefs')]
    exact ⟨_, rfl⟩
  · have hset : setGroup { g' with refs := g'.refs - 1 } b =
        .ok () { b with group? := some { g' with refs := g'.refs - 1 } } := rfl
    rw [release, bind_of_ok (group_apply hb), bind_of_ok hset, hrefs']
    exact ⟨_, rfl⟩

end TreeM

namespace SubUnit

open Peep Arena

theorem get_bind {α : Type} (f : SubUnit → UnitM α) (u : SubUnit) : (get >>= f) u = f u u := rfl

theorem modify_bind {α : Type} (g : SubUnit → SubUnit) (f : Unit → UnitM α) (u : SubUnit) :
    (modify g >>= f) u = f () (g u) := rfl

theorem abort_runs {u : SubUnit} (h : u.arena.Held) : ∃ u', abort u = .ok () u' := by
  obtain ⟨g, hg, -, hreleased⟩ := id h
  obtain ⟨b, hb⟩ := TreeM.forceFreeAll_runs h
  have hfree : onArena TreeM.forceFreeAll u = .ok () { u with arena := b } := by
    rw [onArena, hb]
  refine ⟨{ u with arena := b, root := none, start := none }, ?_⟩
  rw [abort, dropWith, get_bind, hg]
  simp only [hreleased, Bool.not_false, if_true]
  rw [bind_of_ok hfree]
  rfl

theorem guarded_of_ok {α : Type} {x : TreeM α} {u : SubUnit} {v : α} {b : Arena} (h : x u.arena = .ok v b) :
    guarded x u = .ok (.ok v) { u with arena := b } := by
  rw [guarded, h]

theorem guarded_of_fatal {α : Type} {x : TreeM α} {u : SubUnit} {b : Arena} (h : x u.arena = .error (.fatal none) b) :
    guarded x u = .error (.fatal none) { u with arena := b } := by
  rw [guarded, h]
  rfl

theorem tryFinish_eq {u : SubUnit} {t : Tree} (hpending : u.finished = false) (hroot : u.root = some t.root)
    (hh : u.arena.Holds t) (hcode : t.op.code = .leavesub) :
    tryFinish u = (guarded (TreeM.thread t.root) >>= fun
      | .error why => return some why
      | .ok opt => conclude t.root opt) u := by
  have hleave : ¬ (u.arena.node t.root).code ≠ .leavesub := by
    rw [← Node.plain_code, hh.fits.op, hcode]
    exact fun hne => hne rfl
  rw [tryFinish, get_bind, hpending, hroot]
  exact (congrFun (if_neg Bool.false_ne_true) u).trans (congrFun (if_neg hleave) u)

theorem conclude_tended {S : Course} {root : RecId} {ps : PeepState} {u : SubUnit}
    (h : Tended S root ps u.arena) :
    (∃ msg, conclude root ⟨ps.start, ps.stats, ps.failure?⟩ u =
      .ok (some (.during (utf8 "optimize") (.plain msg))) { u with stats := ps.stats }) ∨
    conclude root ⟨ps.start, ps.stats, ps.failure?⟩ u =
      .ok none { u with stats := ps.stats, start := ps.start, finished := true } := by
  have hcheck : u.arena.check? root = none := by
    have hc := h.wired.check
    rwa [root_tree] at hc
  cases hf : ps.failure? with
  | some why =>
    obtain ⟨msg, rfl⟩ := h.failure why hf
    exact Or.inl ⟨msg, rfl⟩
  | none =>
    obtain ⟨g, hg, -⟩ := h.wired.held
    have hok : TreeM.check root u.arena = .ok () u.arena := by
      rw [TreeM.check, bind_of_ok (TreeM.get_apply _), hcheck]
      rfl
    have hguard := guarded_of_ok (u := { u with stats := ps.stats }) hok
    refine Or.inr ?_
    rw [conclude, modify_bind]
    simp only
    rw [bind_of_ok hguard]
    simp only
    rw [modify_bind, get_bind, hg]
    rfl

def Ends (u : SubUnit) (root : RecId) : Prop :=
  match finish u with
  | .ok none u' => u'.finished = true ∧ u'.root = some root ∧ u'.arena.check? root = none
  | .ok (some why) _ => ∃ msg, why = .during (utf8 "optimize") (.plain msg)
  | .error e _ => e = .fatal none ∧ Memory.holds 8 u.arena.tune.deferQueue = false

/-- Threading breaks nothing, and what it leaves passes the check. -/
def Threads (u : SubUnit) (root : RecId) : Prop :=
  match TreeM.thread root u.arena with
  | .ok _ b => b.check? root = none
  | .error e _ => e = .fatal none ∧ Memory.holds 8 u.arena.tune.deferQueue = false

theorem Assembled.ends {u : SubUnit} (h : u.Assembled) :
    ∃ root, u.root = some root ∧ u.Threads root ∧ u.Ends root := by
  obtain ⟨t, hroot, ht⟩ := h.tree
  have hended := TreeM.thread_tended ht
  have htry := tryFinish_eq h.pending hroot (ht.site.holds t (by simp)) ht.code
  refine ⟨t.root, hroot, ?_⟩
  rw [Threads, Ends]
  cases hthread : TreeM.thread t.root u.arena with
  | error e b =>
    rw [hthread] at hended
    obtain ⟨rfl, hmemory⟩ := hended
    rw [bind_of_error (guarded_of_fatal hthread)] at htry
    rw [finish, bind_of_error htry]
    exact ⟨⟨rfl, hmemory⟩, rfl, hmemory⟩
  | ok opt b =>
    rw [hthread] at hended
    obtain ⟨S, ps, rfl, hten, -⟩ := hended
    have hcheck : b.check? t.root = none := by
      have hc := hten.wired.check
      rwa [root_tree] at hc
    rw [bind_of_ok (guarded_of_ok hthread)] at htry
    refine ⟨hcheck, ?_⟩
    rcases @conclude_tended S t.root ps { u with arena := b } hten with ⟨msg, hend⟩ | hend
    · obtain ⟨u', habort⟩ := @abort_runs { u with arena := b, stats := ps.stats } hten.wired.held
      rw [finish, bind_of_ok (htry.trans hend)]
      simp only [Option.isSome_some, if_true]
      rw [bind_of_ok habort]
      exact ⟨msg, rfl⟩
    · rw [finish, bind_of_ok (htry.trans hend)]
      exact ⟨rfl, hroot, hcheck⟩

end SubUnit

namespace Program

open SubUnit

/-- A sub that can be assembled can be finished: no step of finishing it breaks an invariant of the tree, and
the tree passes the check after all rewrites. What may go wrong is an index outside of a shape, and a queue of
branches that memory does not hold. -/
theorem finish_unbroken {src : Source} {s : Sub} {name file : Bytes} {t : Tuning} {depth seq : Nat} {v : Unit}
    {u : SubUnit}
    (h : assembleUnit src s { SubUnit.new file t with name := name, depth := depth, seq := seq } = .ok v u) :
    ∃ root, u.root = some root ∧ u.Threads root ∧ u.Ends root :=
  (assembled_of_ok (t := t) rfl rfl h).ends

/-- A sub with a loop, a branch and a chain of accesses that is fused. -/
theorem finish_unbroken_listing : ∃ src subs s u u',
    src = Source.ofFile (utf8 "t.pl") (utf8
      "(sub main (my @x) (my $y 1) (foreach $i 0 2 (if (eq $i 1) (sassign $i $y))) (return (aelem (aelem @x $y) 2)))") ∧
    Sub.readAll src = .ok subs ∧ s ∈ subs ∧ assembleUnit src s (SubUnit.new (utf8 "t.pl") {}) = .ok () u ∧
    SubUnit.finish u = .ok none u' ∧ ∃ root, u.root = some root ∧ u.Threads root ∧ u.Ends root := by
  generalize hsrc : Source.ofFile _ _ = src
  have hrun : (Sub.readAll src).toOption.map (fun subs => subs.any fun s =>
      yields (assembleUnit src s) (SubUnit.new (utf8 "t.pl") {}) fun _ u =>
        yields SubUnit.finish u fun why? _ => why?.isNone) = some true := by
    subst hsrc
    decide +kernel
  obtain ⟨subs, hsubs, hany⟩ := Option.map_eq_some_iff.mp hrun
  obtain ⟨s, hs, hrun⟩ := List.any_eq_true.mp hany
  obtain ⟨⟨⟩, u, hok, hrun⟩ := ok_of_yields hrun
  obtain ⟨why?, u', hfin, hnone⟩ := ok_of_yields hrun
  obtain rfl := Option.isNone_iff_eq_none.mp hnone
  have hread : Sub.readAll src = .ok subs := by
    cases hr : Sub.readAll src with
    | error why =>
      rw [hr] at hsubs
      cases hsubs
    | ok subs' =>
      rw [hr] at hsubs
      cases hsubs
      rfl
  exact ⟨src, subs, s, u, u', rfl, hread, hs, hok, hfin,
    @finish_unbroken src s (utf8 "t.pl") (utf8 "t.pl") {} 0 0 () u hok⟩

end Program

end OpTree
