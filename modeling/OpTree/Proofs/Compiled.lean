import OpTree.Proofs.Units
import OpTree.Proofs.Resolved
import OpTree.Program

/-!
# Compiled programs

In every unit of a compiled program the ops that execution can reach are ops of the unit's tree. None of
them is freed, and each is found in the snapshot by its id.
-/

namespace OpTree

set_option autoImplicit false

namespace Arena

variable {a : Arena}

inductive Under (a : Arena) (root : RecId) : RecId → Prop where
  | root : Under a root root
  | kid {p k : RecId} (h : Under a root p) (hk : k ∈ a.kids p) : Under a root k

theorem Under.trans {p q r : RecId} (h : a.Under p q) (h' : a.Under q r) : a.Under p r := by
  induction h' with
  | root => exact h
  | kid _ hk ih => exact ih.kid hk

theorem Holds.under {t : Tree} (hh : a.Holds t) (hn : t.recs.Nodup) {r : RecId} (hr : r ∈ t.recs) :
    a.Under t.root r := by
  induction t using Tree.induct with
  | h q o ks ih =>
    have hkids : a.kids q = ks.map Tree.root := hh.kids_eq hn
    rw [Tree.recs_mk, List.mem_cons, List.mem_flatMap] at hr
    rcases hr with rfl | ⟨k, hk, hr⟩
    · exact .root
    · have hkid : a.Under q k.root := .kid .root (by rw [hkids]; exact List.mem_map.mpr ⟨k, hk, rfl⟩)
      exact hkid.trans (ih k hk (hh.kid hk) (Tree.nodup_of_mem (Tree.nodup_kids hn) hk) hr)

end Arena

namespace Exec

/-- The ops that a run executes, in order. -/
def trace (code : Code) : Nat → Option RecId → Machine → List RecId
  | 0, _, _ => []
  | _ + 1, none, _ => []
  | fuel + 1, some r, m =>
    r :: match step code.names? (code.node r) { m with steps := m.steps + 1 } with
      | .ok next m' => trace code fuel next m'
      | .error _ _ => []

theorem map_eq_ok {α β : Type} {f : α → β} {x : Exec α} {m m' : Machine} {v : β}
    (h : (f <$> x) m = .ok v m') : ∃ u, x m = .ok u m' ∧ v = f u := by
  rw [map_eq_pure_bind] at h
  obtain ⟨u, m₁, hx, hv⟩ := bind_eq_ok.mp h
  cases hv
  exact ⟨u, hx, rfl⟩

/-- Where a step leads: a return goes to the end of the sub, and only a branching op has two ways to go on. -/
theorem step_next {names? : Option Pad} {n : Node} {m m' : Machine} {q : Option RecId}
    (h : step names? n m = .ok q m') :
    n.code = .ret ∧ q = m.leave ∨
      n.code ≠ .ret ∧ (q = n.next ∨ n.code.branches = true ∧ q = n.other) := by
  by_cases hr : n.code = .ret
  · have hleave : m'.leave = m.leave := (within_step (admits_leave names?) n).of_ok h
    rw [step_ret names? n hr] at h
    exact Or.inl ⟨hr, (returnSub_next h).trans hleave⟩
  · refine Or.inr ⟨hr, ?_⟩
    cases hb : n.code.branches with
    | true =>
      rw [step_of_branches names? n hb] at h
      obtain ⟨v, -, rfl⟩ := map_eq_ok h
      split
      · exact Or.inr ⟨rfl, rfl⟩
      · exact Or.inl rfl
    | false =>
      rw [step_of_not_branches names? n hb hr] at h
      obtain ⟨v, -, rfl⟩ := map_eq_ok h
      exact Or.inl rfl

/-- A run does not leave a set of ops that is closed under links and has the op that ends the sub. -/
theorem trace_closed {K : RecId → Prop} {a : Arena} {names? : Option Pad} {s : Option RecId} {fuel : Nat}
    {m : Machine} {r : RecId} (hK : ∀ p q, K p → a.Link p q → K q) (hs : ∀ x, s = some x → K x)
    (hl : ∀ x, m.leave = some x → K x) (hr : r ∈ trace ⟨a.recs, names?⟩ fuel s m) : K r := by
  induction fuel generalizing s m with
  | zero => cases hr
  | succ fuel ih =>
    cases s with
    | none => cases hr
    | some x =>
      have hx := hs x rfl
      rw [trace, List.mem_cons] at hr
      rcases hr with rfl | hr
      · exact hx
      · split at hr
        · rename_i q m' hstep
          have hleave := (within_step (admits_leave names?) _).of_ok hstep
          refine ih (fun y hy => ?_) (fun y hy => hl y (hleave ▸ hy)) hr
          rcases step_next hstep with ⟨-, he⟩ | ⟨-, he | ⟨-, he⟩⟩
          · exact hl y (he ▸ hy)
          · exact hK x y hx (Or.inl (he ▸ hy))
          · exact hK x y hx (Or.inr (he ▸ hy))
        · cases hr

end Exec

/-- An op that may be executed: it is in the tree of the unit, it is not freed, and its id stands for
it in the snapshot. -/
structure SubUnit.Sound (u : SubUnit) (root r : RecId) : Prop where
  under : u.arena.Under root r
  live : (u.arena.node r).code ≠ .freed
  resolves : (u.arena.snapshot u.name u.root u.start).op? (u.arena.node r).id = some (u.arena.snapOp r)

/-- All ops that can be reached, or that a run executes, are such ops. -/
structure SubUnit.Intact (u : SubUnit) (root : RecId) : Prop where
  root_eq : u.root = some root
  reach : ∀ r, u.arena.Reach u.start r → u.Sound root r
  run : ∀ fuel gimme (m : Machine),
    ∀ r ∈ Exec.trace u.code fuel u.start { m with gimme := gimme, leave := u.root, result := [] }, u.Sound root r

namespace SubUnit

open Peep Arena

/-- The tree of a unit before the unit is finished. -/
structure Assembled (u : SubUnit) : Prop where
  pending : u.finished = false
  tree : ∃ t, u.root = some t.root ∧ u.arena.Assembled t

structure Threaded (u : SubUnit) (S : Course) (root : RecId) : Prop where
  root_eq : u.root = some root
  tended : ∃ ps, u.start = ps.start ∧ Tended S root ps u.arena
  live : S root
  check : u.arena.check? root = none

theorem Threaded.intact {S : Course} {root : RecId} {u : SubUnit} (h : u.Threaded S root) : u.Intact root := by
  obtain ⟨ps, hstart, ht⟩ := h.tended
  have hsound : ∀ r ∈ (u.arena.tree root).recs, u.Sound root r := by
    intro r hr
    have hunder := ht.wired.holds.under ht.wired.nodup hr
    have hop := @op?_snapshot _ _ u.name u.start _ ht.wired.holds ht.wired.nodup
      (by rw [root_tree]; exact h.check) hr
    rw [root_tree] at hunder hop
    exact ⟨hunder, ht.wired.holds.live hr, by rw [h.root_eq]; exact hop⟩
  refine ⟨h.root_eq, fun r hr => hsound r (ht.reach (hstart ▸ hr)).1, fun fuel gimme m r hr => hsound r ?_⟩
  refine (Exec.trace_closed (K := fun x => x ∈ (u.arena.tree root).recs ∧ S x) (fun p q hp hq => ?_)
    (fun x hx => ?_) (fun x hx => ?_) hr).1
  · have hl := ht.wired.links p hp.1 hp.2 q hq
    exact ⟨hl.mem, hl.live⟩
  · have hl := ht.start x (hstart ▸ hx)
    exact ⟨hl.mem, hl.live⟩
  · obtain rfl : root = x := Option.some.inj (h.root_eq.symm.trans hx)
    exact ⟨mem_tree_root u.arena root, h.live⟩

theorem guarded_ok {α : Type} {x : TreeM α} {u u' : SubUnit} {v : α} (h : guarded x u = .ok (.ok v) u') :
    ∃ b, x u.arena = .ok v b ∧ u' = { u with arena := b } := by
  unfold guarded at h
  split at h
  · cases h
    exact ⟨_, ‹_›, rfl⟩
  · split at h <;> cases h

theorem check_ok {root : RecId} {a b : Arena} {v : Unit} (h : TreeM.check root a = .ok v b) :
    a.check? root = none ∧ b = a := by
  rw [TreeM.check, bind_of_ok (TreeM.get_apply _)] at h
  cases hc : a.check? root with
  | some msg =>
    rw [hc] at h
    cases h
  | none =>
    rw [hc] at h
    exact ⟨rfl, (TreeM.pure_eq_ok.mp h).2.symm⟩

theorem conclude_ok {root : RecId} {opt : Optimized} {u u' : SubUnit} (h : conclude root opt u = .ok none u') :
    u.arena.check? root = none ∧ u' = { u with stats := opt.stats, start := opt.start, finished := true } := by
  obtain ⟨⟨⟩, u₁, hm, h⟩ := bind_eq_ok.mp h
  cases hm
  cases hf : opt.failure? with
  | some why =>
    rw [hf] at h
    cases h
  | none =>
    rw [hf] at h
    obtain ⟨v, u₂, hg, h⟩ := bind_eq_ok.mp h
    cases v with
    | error why => cases h
    | ok v =>
      obtain ⟨b, hcheck, rfl⟩ := guarded_ok hg
      obtain ⟨⟨⟩, u₃, hm, h⟩ := bind_eq_ok.mp h
      cases hm
      obtain ⟨u₄, u₅, hget, h⟩ := bind_eq_ok.mp h
      cases hget
      obtain ⟨hc, rfl⟩ := check_ok hcheck
      split at h
      · cases h
      · cases h
        exact ⟨hc, rfl⟩

theorem finish_threaded {u u' : SubUnit} (h : u.Assembled) (hok : finish u = .ok none u') :
    ∃ S root, u'.Threaded S root ∧ u.root = some root ∧ Reworked root u.arena u'.arena := by
  obtain ⟨why?, u₁, htry, hok⟩ := bind_eq_ok.mp hok
  have hnone : why? = none ∧ u₁ = u' := by
    cases why? with
    | none =>
      cases hok
      exact ⟨rfl, rfl⟩
    | some why =>
      obtain ⟨⟨⟩, u₂, -, hok⟩ := bind_eq_ok.mp hok
      cases hok
  obtain ⟨rfl, rfl⟩ := hnone
  obtain ⟨t, hroot, htree⟩ := h.tree
  obtain ⟨u₂, u₃, hget, htry⟩ := bind_eq_ok.mp htry
  cases hget
  rw [h.pending, hroot] at htry
  simp only [Bool.false_eq_true, if_false] at htry
  split at htry
  · cases htry
  · obtain ⟨v, u₄, hg, htry⟩ := bind_eq_ok.mp htry
    split at htry
    · cases htry
    · rename_i opt
      obtain ⟨b, hthread, rfl⟩ := guarded_ok hg
      have hended := TreeM.thread_tended htree
      rw [hthread] at hended
      obtain ⟨S, ps, rfl, hten, hlive, hwork⟩ := hended
      obtain ⟨hcheck, rfl⟩ := conclude_ok htry
      exact ⟨S, t.root, ⟨hroot, ⟨ps, rfl, hten⟩, hlive, hcheck⟩, hroot, hwork⟩

theorem assemble_of_ok {src : Source} {s : Sub} {u u' : SubUnit} {T : Tuning} {v : Unit}
    (harena : u.arena = .ofTuning u.arena.file T) (hok : Program.assembleUnit src s u = .ok v u') :
    u'.finished = u.finished ∧ ∃ root, u'.root = some root ∧ Build.Laid T u.arena [] [] ∧
      TreeM.assemble src s u.arena = .ok root u'.arena := by
  obtain ⟨root, u₁, hroot, hok⟩ := bind_eq_ok.mp hok
  cases hok
  unfold onArena at hroot
  split at hroot
  · rename_i r b hb
    cases hroot
    refine ⟨rfl, root, rfl, ?_, hb⟩
    rw [harena]
    exact .start rfl rfl rfl rfl rfl rfl Nat.zero_lt_one
  · cases hroot

theorem arena_of_ok {src : Source} {s : Sub} {u u' : SubUnit} {T : Tuning} {v : Unit}
    (harena : u.arena = .ofTuning u.arena.file T) (hok : Program.assembleUnit src s u = .ok v u') :
    u'.finished = u.finished ∧ ∃ t, u'.root = some t.root ∧ u'.arena.Assembled t ∧ u'.arena.tune = T := by
  obtain ⟨hfin, root, hroot, hlaid, hasm⟩ := assemble_of_ok harena hok
  obtain ⟨t, rfl, ht, htune⟩ := TreeM.assemble_tree hlaid hasm
  exact ⟨hfin, t, hroot, ht, htune⟩

theorem assembled_of_ok {src : Source} {s : Sub} {u u' : SubUnit} {t : Tuning} {v : Unit}
    (hpending : u.finished = false) (harena : u.arena = .ofTuning u.arena.file t)
    (hok : Program.assembleUnit src s u = .ok v u') : u'.Assembled := by
  obtain ⟨hfin, t', hroot, htree, -⟩ := arena_of_ok harena hok
  exact ⟨hfin.trans hpending, t', hroot, htree⟩

end SubUnit

namespace Program

open SubUnit

variable {p p' : Program}

theorem onUnit_ok {α : Type} [Inhabited α] {i : Nat} {x : UnitM α} {v : α} (h : onUnit i x p = .ok v p') :
    (p.units[i]? = none ∧ p' = p) ∨ ∃ u u', p.units[i]? = some u ∧ x u = .ok v u' ∧
      p' = { p with units := p.units.setIfInBounds i u' } := by
  unfold onUnit at h
  split at h
  · cases h
    exact Or.inl ⟨‹_›, rfl⟩
  · split at h
    · cases h
      exact Or.inr ⟨_, _, ‹_›, ‹_›, rfl⟩
    · cases h

/-- A handler that only renames a failure does not change what happens when there is none. -/
theorem ok_of_tryCatch {α : Type} {x : ProgramM α} {handle : Failure → ProgramM α} {v : α}
    (hh : ∀ e q, handle e q ≠ .ok v p') (h : tryCatch x handle p = .ok v p') : x p = .ok v p' := by
  change EStateM.tryCatch x handle p = _ at h
  unfold EStateM.tryCatch at h
  cases hx : x p with
  | ok w q =>
    rw [hx] at h
    exact h
  | error e q =>
    rw [hx] at h
    exact absurd h (hh e _)

/-- The unit is what assembling some sub makes of a new unit. -/
def Assembles (src : Source) (t : Tuning) (u : SubUnit) : Prop :=
  ∃ s new v, new.finished = false ∧ new.arena = .ofTuning new.arena.file t ∧ assembleUnit src s new = .ok v u

theorem Assembles.assembled {src : Source} {t : Tuning} {u : SubUnit} (h : Assembles src t u) : u.Assembled := by
  obtain ⟨s, new, v, hpending, harena, hok⟩ := h
  exact assembled_of_ok hpending harena hok

/-- The unit is what finishing an assembled unit leads to. -/
def Finishes (src : Source) (t : Tuning) (u : SubUnit) : Prop :=
  ∃ u₀, Assembles src t u₀ ∧ SubUnit.finish u₀ = .ok none u

variable {src : Source} {t : Tuning}

structure AllAssembled (src : Source) (t : Tuning) (p : Program) : Prop where
  tune : p.tune = t
  units : ∀ (i : Nat) (u : SubUnit), p.units[i]? = some u → Assembles src t u

theorem onUnit_assembled {name : Bytes} {depth i : Nat} {s : Sub} {v : Unit} {q : Program}
    (hp : AllAssembled src t p) (hq : addUnit name depth p = .ok i q)
    (hok : onUnit i (assembleUnit src s) q = .ok v p') : AllAssembled src t p' := by
  cases hq
  rcases onUnit_ok hok with ⟨hnone, -⟩ | ⟨u, u', hu, hunit, rfl⟩
  · simp at hnone
  · have hnew : u = { SubUnit.new p.name p.tune with name := name, depth := depth, seq := p.units.size } := by
      simpa using hu.symm
    have hu' : Assembles src t u' := ⟨s, u, v, by rw [hnew]; rfl, by rw [hnew, ← hp.tune]; rfl, hunit⟩
    refine ⟨hp.tune, fun j w hw => ?_⟩
    rw [Array.getElem?_setIfInBounds] at hw
    split at hw
    · split at hw
      · cases hw
        exact hu'
      · cases hw
    · rename_i hne
      rw [Array.getElem?_push] at hw
      split at hw
      · exact absurd (Eq.symm ‹_›) hne
      · exact hp.units j w hw

mutual

theorem assembleSub_assembled {depth : Nat} {v : Unit} : ∀ (s : Sub) {p p' : Program},
    AllAssembled src t p → assembleSub src depth s p = .ok v p' → AllAssembled src t p'
  | .mk name body subs, p, p', hp, hok => by
    rw [assembleSub] at hok
    obtain ⟨i, p₁, hadd, hok⟩ := bind_eq_ok.mp hok
    obtain ⟨⟨⟩, p₂, hunit, hok⟩ := bind_eq_ok.mp hok
    have hunit := ok_of_tryCatch (fun e q => ?_) hunit
    · exact assembleSubs_assembled subs (onUnit_assembled hp hadd hunit) hok
    · exact nofun

theorem assembleSubs_assembled {depth : Nat} {v : Unit} : ∀ (ss : List Sub) {p p' : Program},
    AllAssembled src t p → assembleSubs src depth ss p = .ok v p' → AllAssembled src t p'
  | [], p, p', hp, hok => by
    rw [assembleSubs] at hok
    cases hok
    exact hp
  | s :: ss, p, p', hp, hok => by
    rw [assembleSubs] at hok
    obtain ⟨⟨⟩, p₁, hs, hok⟩ := bind_eq_ok.mp hok
    exact assembleSubs_assembled ss (assembleSub_assembled s hp hs) hok

end

/-- Of the units, those with the numbers `is` are still to be finished. -/
def Ahead (src : Source) (t : Tuning) (p : Program) (is : List Nat) : Prop :=
  ∀ (i : Nat) (u : SubUnit), p.units[i]? = some u → if i ∈ is then Assembles src t u else Finishes src t u

theorem Ahead.finish {i : Nat} {is : List Nat} (h : Ahead src t p (i :: is)) (hi : i ∉ is)
    (hok : onUnit i SubUnit.finish p = .ok none p') : Ahead src t p' is := by
  rcases onUnit_ok hok with ⟨hnone, rfl⟩ | ⟨u, u', hu, hunit, rfl⟩
  · intro j w hw
    have hj : j ≠ i := by
      rintro rfl
      rw [hnone] at hw
      cases hw
    simpa [hj] using h j w hw
  · have hu' : Assembles src t u := by simpa using h i u hu
    intro j w hw
    rw [Array.getElem?_setIfInBounds] at hw
    split at hw
    · rename_i hij
      split at hw
      · cases hw
        rw [if_neg (hij ▸ hi)]
        exact ⟨u, hu', hunit⟩
      · cases hw
    · rename_i hij
      simpa [Ne.symm hij] using h j w hw

theorem finishAll_finishes {is : List Nat} (h : Ahead src t p is) (hn : is.Nodup)
    (hok : finishAll is p = .ok none p') : Ahead src t p' [] := by
  induction is generalizing p with
  | nil =>
    cases hok
    exact h
  | cons i is ih =>
    rw [finishAll] at hok
    obtain ⟨why?, p₁, hunit, hok⟩ := bind_eq_ok.mp hok
    rw [List.nodup_cons] at hn
    cases why? with
    | none => exact ih (h.finish hn.1 hunit) hn.2 hok
    | some why =>
      obtain ⟨p₂, p₃, -, hok⟩ := bind_eq_ok.mp hok
      obtain ⟨⟨⟩, p₄, -, hok⟩ := bind_eq_ok.mp hok
      cases hok

theorem nodup_finishOrder (p : Program) : p.finishOrder.Nodup :=
  (List.mergeSort_perm _ _).nodup_iff.mpr (List.nodup_range.filter _)

theorem AllAssembled.ahead (h : AllAssembled src t p) : Ahead src t p p.finishOrder := by
  intro i u hu
  obtain ⟨hi, hget⟩ := Array.getElem?_eq_some_iff.mp hu
  have hmem : i ∈ p.finishOrder := by
    refine (List.mergeSort_perm _ _).mem_iff.mpr (List.mem_filter.mpr ⟨List.mem_range.mpr hi, ?_⟩)
    have hpending := (h.units i u hu).assembled.pending
    simp [Array.getD, hi, hget, hpending]
  rw [if_pos hmem]
  exact h.units i u hu

theorem build_finishes {subs : List Sub} {v : Unit} (h : p.units = #[]) (hok : build src subs p = .ok v p') :
    Ahead src p.tune p' [] := by
  obtain ⟨⟨⟩, p₁, hsubs, hok⟩ := bind_eq_ok.mp hok
  have hsubs := ok_of_tryCatch (fun e q => ?_) hsubs
  · have hall := assembleSubs_assembled subs ⟨rfl, fun i u hu => by simp [h] at hu⟩ hsubs
    obtain ⟨why?, p₂, hfin, hok⟩ := bind_eq_ok.mp hok
    cases why? with
    | some why => cases hok
    | none =>
      cases hok
      obtain ⟨p₃, p₄, hget, hfin⟩ := bind_eq_ok.mp hfin
      cases hget
      exact finishAll_finishes hall.ahead (nodup_finishOrder p₁) hfin
  · intro hbad
    obtain ⟨⟨⟩, p₄, -, hbad⟩ := bind_eq_ok.mp hbad
    cases hbad

theorem compile_finishes {name text : Bytes} {t : Tuning} (h : compile name text t = .ok p) :
    ∀ u ∈ p.units, Finishes (Source.ofFile name text) t.withDefaults u := by
  simp only [compile] at h
  split at h
  · cases h
  · split at h
    · rename_i p₁ hbuild
      cases h
      intro u hu
      obtain ⟨i, hi⟩ := Array.getElem?_of_mem hu
      have htune : (new name t).tune = t.withDefaults := rfl
      simpa [htune] using build_finishes rfl hbuild i u hi
    · cases h

theorem compile_threaded {name text : Bytes} {t : Tuning} (h : compile name text t = .ok p) :
    ∀ u ∈ p.units, ∃ S root, u.Threaded S root := by
  intro u hu
  obtain ⟨u₀, hu₀, hok⟩ := compile_finishes h u hu
  obtain ⟨S, root, hthread, -⟩ := finish_threaded hu₀.assembled hok
  exact ⟨S, root, hthread⟩

/-- In every unit of a compiled listing all that can be reached or executed is alive in the tree. -/
theorem compile_intact {name text : Bytes} {t : Tuning} (h : compile name text t = .ok p) :
    ∀ u ∈ p.units, ∃ root, u.Intact root := by
  intro u hu
  obtain ⟨S, root, hu⟩ := compile_threaded h u hu
  exact ⟨root, hu.intact⟩

/-- A unit in which fusing a chain of accesses has freed ops. -/
theorem compile_intact_fused : ∃ p, compile (utf8 "t.pl")
      (utf8 "(sub main (my @x) (my $i 1) (return (aelem (aelem @x $i) 2)))") {} = .ok p ∧
    (p.units.any fun u => u.arena.recs.any fun n => n.code = .freed) = true ∧
    ∀ u ∈ p.units, ∃ root, u.Intact root := by
  have hrun : (compile (utf8 "t.pl") (utf8 "(sub main (my @x) (my $i 1) (return (aelem (aelem @x $i) 2)))")
      {}).toOption.map (fun p => p.units.any fun u => u.arena.recs.any fun n => n.code = .freed) = some true := by
    decide +kernel
  obtain ⟨p, hp, hfreed⟩ := Option.map_eq_some_iff.mp hrun
  cases hc : compile (utf8 "t.pl") (utf8 "(sub main (my @x) (my $i 1) (return (aelem (aelem @x $i) 2)))") {} with
  | error why =>
    rw [hc] at hp
    cases hp
  | ok q =>
    rw [hc] at hp
    cases hp
    exact ⟨p, rfl, hfreed, compile_intact hc⟩

end Program

end OpTree
