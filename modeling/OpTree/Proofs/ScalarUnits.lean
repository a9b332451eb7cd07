import OpTree.Proofs.ReadOnly
import OpTree.Proofs.ScalarForms
import OpTree.Proofs.Statements
import OpTree.Proofs.Visits

/-!
# Units about scalars

A sub about scalars ends the same whether its unit is optimized or not: with the same values or the same failure, and
with machines that differ in nothing but their stacks.
-/

namespace OpTree

set_option autoImplicit false

namespace Exec

open Machine EStateM

variable {C A B : Code} {k n : Nat} {y? start start' leave : Option RecId} {gimme : Want} {m : Machine}
  {r r' : Result Failure Machine (List Value)}

/-- The same answer or the same failure, on machines that differ in their stacks only. -/
abbrev Alike {α : Type} : Result Failure Machine α → Result Failure Machine α → Prop :=
  Agree fun _ m m' => m'.offStack = m.offStack

def entering (gimme : Want) (leave : Option RecId) (m : Machine) : Machine :=
  { m with gimme := gimme, leave := leave, result := [] }

/-- How a sub ends. More fuel does not change it. -/
def EndsIn (C : Code) (start leave : Option RecId) (gimme : Want) (m : Machine)
    (r : Result Failure Machine (List Value)) : Prop :=
  ∃ fuel, ∀ more, fuel ≤ more → runSub C more start leave gimme m = r

/-- Two ways to run a sub that end alike, if either of them ends. -/
structure Matches (A B : Code) (start start' leave : Option RecId) (gimme : Want) (m : Machine) : Prop where
  forth : ∀ r, EndsIn A start leave gimme m r → ∃ r', EndsIn B start' leave gimme m r' ∧ Alike r r'
  back : ∀ r', EndsIn B start' leave gimme m r' → ∃ r, EndsIn A start leave gimme m r ∧ Alike r r'

def outcome? : Result Failure Machine Bool → Option (Result Failure Machine (List Value))
  | .ok true m => some (.ok m.result m)
  | .ok false _ => none
  | .error e m => some (.error e m)

theorem run_eq_upTo (C : Code) (n : Nat) (y? : Option RecId) (m : Machine) : run C n y? m = match upTo C n y? m with
    | .ok true m' => .ok () m'
    | .ok false m' => .error (.plain (utf8 "out of fuel")) m'
    | .error e m' => .error e m' := by
  induction n generalizing y? m with
  | zero => cases y? <;> rfl
  | succ n ih =>
    cases y? with
    | none => rfl
    | some y =>
      change (step C.names? (C.node y) >>= run C n) (ticked m) = _
      rw [upTo_tick]
      cases hs : step C.names? (C.node y) (ticked m) with
      | ok next m' =>
        rw [bind_of_ok hs, bind_of_ok hs]
        exact ih next m'
      | error e m' => rw [bind_of_error hs, bind_of_error hs]

theorem outcome_succ (h : outcome? (upTo C n y? m) = some r) : outcome? (upTo C (n + 1) y? m) = some r := by
  induction n generalizing y? m with
  | zero =>
    cases y? with
    | none => exact h
    | some y => cases h
  | succ n ih =>
    cases y? with
    | none => exact h
    | some y =>
      rw [upTo_tick] at h ⊢
      cases hs : step C.names? (C.node y) (ticked m) with
      | ok next m' =>
        rw [bind_of_ok hs] at h ⊢
        exact ih h
      | error e m' =>
        rw [bind_of_error hs] at h ⊢
        exact h

theorem outcome_mono (hle : n ≤ k) (h : outcome? (upTo C n y? m) = some r) : outcome? (upTo C k y? m) = some r := by
  induction hle with
  | refl => exact h
  | step _ ih => exact outcome_succ ih

theorem admits_steps (names? : Option Pad) :
    Machine.Admits names? fun m m' => m'.steps = m.steps where
  refl _ := rfl
  trans h h' := h'.trans h
  stack _ _ _ _ _ := rfl
  notes _ _ _ _ _ _ := rfl
  heap _ _ _ := rfl
  scalar _ _ _ _ := rfl
  fresh _ _ _ := rfl
  enter _ _ _ := rfl
  advance _ _ _ _ _ := rfl
  close _ _ _ _ := rfl
  restore _ _ _ _ := rfl

theorem steps_of_unsettled (h : outcome? (upTo C n y? m) = none) :
    ∃ m', upTo C n y? m = .ok false m' ∧ m'.steps = m.steps + n := by
  induction n generalizing y? m with
  | zero =>
    cases y? with
    | none => cases h
    | some y => exact ⟨m, rfl, rfl⟩
  | succ n ih =>
    cases y? with
    | none => cases h
    | some y =>
      rw [upTo_tick] at h ⊢
      cases hs : step C.names? (C.node y) (ticked m) with
      | ok next m₁ =>
        rw [bind_of_ok hs] at h ⊢
        obtain ⟨m', hupTo, hsteps⟩ := ih h
        have hsame : m₁.steps = m.steps + 1 := (within_step (admits_steps _) _).of_ok hs
        refine ⟨m', hupTo, ?_⟩
        omega
      | error e m₁ =>
        rw [bind_of_error hs] at h
        cases h

theorem runSub_eq (C : Code) (n : Nat) (start leave : Option RecId) (gimme : Want) (m : Machine) :
    runSub C n start leave gimme m =
      (run C n start >>= fun _ => do return (← get).result) (entering gimme leave m) := rfl

theorem runSub_of_outcome (h : outcome? (upTo C n start (entering gimme leave m)) = some r) :
    runSub C n start leave gimme m = r := by
  have hrun := run_eq_upTo C n start (entering gimme leave m)
  rw [runSub_eq]
  revert h hrun
  cases upTo C n start (entering gimme leave m) with
  | ok done m' =>
    cases done with
    | false =>
      intro h
      cases h
    | true =>
      intro h hrun
      rw [bind_of_ok hrun]
      exact Option.some.inj h
  | error e m' =>
    intro h hrun
    rw [bind_of_error hrun]
    exact Option.some.inj h

theorem runSub_of_unsettled (h : outcome? (upTo C n start (entering gimme leave m)) = none) :
    ∃ e m', runSub C n start leave gimme m = .error e m' ∧ m'.steps = m.steps + n := by
  obtain ⟨m', hupTo, hsteps⟩ := steps_of_unsettled h
  have hrun := run_eq_upTo C n start (entering gimme leave m)
  rw [hupTo] at hrun
  refine ⟨.plain (utf8 "out of fuel"), m', ?_, hsteps⟩
  rw [runSub_eq]
  exact bind_of_error hrun

theorem endsIn_iff : EndsIn C start leave gimme m r ↔ ∃ n, outcome? (upTo C n start (entering gimme leave m)) = some r := by
  constructor
  · rintro ⟨fuel, h⟩
    cases hout : outcome? (upTo C fuel start (entering gimme leave m)) with
    | some r' =>
      obtain rfl : r' = r := (runSub_of_outcome hout).symm.trans (h fuel (Nat.le_refl fuel))
      exact ⟨fuel, hout⟩
    | none =>
      cases hout' : outcome? (upTo C (fuel + 1) start (entering gimme leave m)) with
      | some r' =>
        obtain rfl : r' = r := (runSub_of_outcome hout').symm.trans (h (fuel + 1) (Nat.le_succ fuel))
        exact ⟨fuel + 1, hout'⟩
      | none =>
        -- The counts of steps tell the two runs that were given up apart.
        obtain ⟨e, m₁, hrun, hsteps⟩ := runSub_of_unsettled hout
        obtain ⟨e', m₂, hrun', hsteps'⟩ := runSub_of_unsettled hout'
        rw [h fuel (Nat.le_refl fuel)] at hrun
        rw [h (fuel + 1) (Nat.le_succ fuel), hrun] at hrun'
        cases hrun'
        omega
  · rintro ⟨n, h⟩
    exact ⟨n, fun more hle => runSub_of_outcome (outcome_mono hle h)⟩

theorem alike_outcome {x y : Result Failure Machine Bool} (h : Alike x y) :
    Option.Rel Alike (outcome? x) (outcome? y) := by
  cases x with
  | ok done m =>
    cases y with
    | ok done' m' =>
      obtain ⟨rfl, hoff⟩ := h
      cases done' with
      | false => exact .none
      | true => exact .some ⟨(congrArg Machine.result hoff :), hoff⟩
    | error e m' => exact h.elim
  | error e m =>
    cases y with
    | ok done m' => exact h.elim
    | error e' m' => exact .some h

theorem matches_of_twin (h : ∀ n, Twin A B n start (entering gimme leave m) start' (entering gimme leave m)) :
    Matches A B start start' leave gimme m := by
  constructor
  · intro r hr
    obtain ⟨n, hn⟩ := endsIn_iff.mp hr
    obtain ⟨k, hk, hagree⟩ := h (n + 1)
    have hrel := alike_outcome hagree
    rw [outcome_mono (by omega : n ≤ k) hn] at hrel
    generalize hout : outcome? (upTo B (n + 1) start' (entering gimme leave m)) = r'? at hrel
    cases hrel with
    | some hr' => exact ⟨_, endsIn_iff.mpr ⟨n + 1, hout⟩, hr'⟩
  · intro r' hr'
    obtain ⟨n, hn⟩ := endsIn_iff.mp hr'
    obtain ⟨k, -, hagree⟩ := h n
    have hrel := alike_outcome hagree
    rw [hn] at hrel
    generalize hout : outcome? (upTo A k start (entering gimme leave m)) = r? at hrel
    cases hrel with
    | some hr => exact ⟨_, endsIn_iff.mpr ⟨k, hout⟩, hr⟩

end Exec

namespace Machine

open Exec

variable {m : Machine}

/-- A machine that runs nothing, with the truth values in the two cells that are shared. -/
structure Rested (m : Machine) : Prop where
  height : m.height = 0
  marks : m.marks = []
  loops : m.loops = []
  yes : m.heap.cell yes = ⟨.bool true, true⟩
  no : m.heap.cell no = ⟨.bool false, true⟩

theorem Rested.has (h : m.Rested) : m.Has ⟨[], []⟩ := by
  refine ⟨?_, ?_, h.marks⟩
  · rw [h.height]
    exact Nat.zero_le _
  · rw [stack_eq, h.height]
    rfl

theorem Rested.steady (h : m.Rested) (gimme : Want) (root : RecId) : (entering gimme (some root) m).Steady root 0 := by
  have hloops : (entering gimme (some root) m).loops = [] := h.loops
  refine ⟨fun l hl => ?_, ?_, rfl, h.yes, h.no⟩
  · rw [hloops] at hl
    cases hl
  · rw [hloops]
    rfl

theorem rested_ofPad {base : Heap} {p : Pad} (hyes : base.cell yes = ⟨.bool true, true⟩)
    (hno : base.cell no = ⟨.bool false, true⟩) (hp : ofPadOn? base p = some m) : m.Rested := by
  have hcells : ∀ (is : List Nat) (s : Array PadSlot × Heap), s.2.cell yes = ⟨.bool true, true⟩ ∧
      s.2.cell no = ⟨.bool false, true⟩ →
      let s' := is.foldl (fun (s : Array PadSlot × Heap) (i : Nat) =>
        (s.1.push (fresh (some p) s.2 i).1, (fresh (some p) s.2 i).2)) s
      s'.2.cell yes = ⟨.bool true, true⟩ ∧ s'.2.cell no = ⟨.bool false, true⟩ := by
    intro is
    induction is with
    | nil => exact fun s hs => hs
    | cons i is ih =>
      rintro s ⟨hyes, hno⟩
      have ha := fresh_advances (some p) s.2 (i : Int)
      refine ih _ ⟨?_, ?_⟩
      · rw [ha.readOnly _ (by rw [hyes]), hyes]
      · rw [ha.readOnly _ (by rw [hno]), hno]
  unfold ofPadOn? at hp
  simp only at hp
  split at hp
  · obtain rfl := Option.some.inj hp
    obtain ⟨hyes, hno⟩ := hcells (List.range p.size) (#[], base) ⟨hyes, hno⟩
    exact ⟨rfl, rfl, rfl, hyes, hno⟩
  · cases hp

end Machine

namespace Tree

open Opcode

variable {t : Tree}

/-- No short-circuit op tests a literal. -/
def Undecided (t : Tree) : Prop :=
  ∀ w ∈ t.subtrees, w.op.code ∈ short → ∀ k ∈ w.kids.head?, k.op.code ≠ .const

instance (t : Tree) : Decidable (Undecided t) :=
  inferInstanceAs (Decidable (∀ w ∈ t.subtrees, w.op.code ∈ short → ∀ k ∈ w.kids.head?, k.op.code ≠ .const))

theorem Undecided.mapOps {g : RecId → Node → Node} (h : Undecided t) (hg : Upheld g t) : Undecided (t.mapOps g) := by
  intro w hw hs k hk
  rw [subtrees_mapOps] at hw
  obtain ⟨v, hv, rfl⟩ := List.mem_map.mp hw
  rw [op_mapOps, (hg v hv).code] at hs
  rw [kids_mapOps, List.head?_map] at hk
  obtain ⟨j, hj, rfl⟩ := Option.map_eq_some_iff.mp hk
  rw [op_mapOps, (hg j (subtrees_trans hv (kid_mem_subtrees (List.mem_of_head? hj)))).code]
  exact h v hv hs j hj

end Tree

namespace Arena

theorem Site.tree_eq {a : Arena} {t : Tree} (h : a.Site [t]) : a.tree t.root = t := by
  have hn : t.recs.Nodup := by simpa using h.nodup
  exact (h.holds t (List.mem_singleton_self t)).tree_eq hn

end Arena

namespace TreeM

open OpTree.Tree Peep Exec Arena Opcode

variable {S : Course} {a d : Arena} {t u : Tree}

theorem Prepared.terrain (h : Prepared S a d u) (hw : Whole u) (ho : Undecided u) : Terrain S d u.root u.start := by
  have hwired : Wired S d (d.tree u.root) := h.tended.wired
  have hconst : ∀ l ∈ (d.tree u.root).recs, (d.node l).code ∈ short → ∀ r, (d.node l).first = some r →
      (d.node r).code ≠ .const := by
    intro l hl hs r hr
    obtain ⟨w, hm, rfl, -⟩ := hwired.subtree hl
    rw [code_of_wired hwired hm] at hs
    rw [(hwired.holds w hm).first] at hr
    obtain ⟨k, hk, rfl⟩ := Option.map_eq_some_iff.mp hr
    rw [code_of_wired hwired (subtrees_trans hm (kid_mem_subtrees (List.mem_of_head? hk)))]
    rw [h.tree] at hm
    exact ho w hm hs k hk
  have hT : Terrain S d u.root (d.tree u.root).start := by
    apply terrain_of_whole hwired
    · rwa [h.tree]
    · rw [h.tree]
      exact h.flow
    · rw [h.tree]
      exact h.proper
    · exact h.tidy
    · rw [h.tree]
      exact h.reached
    · exact hconst
  rwa [h.tree] at hT

theorem optimize_matches (h : a.Assembled t) (hw : Whole t) (ho : Undecided t) :
    ∃ start d, prepare t.root a = .ok start d ∧
      match optimize start d with
      | .ok opt b => opt.failure? = none ∧ ∀ names? gimme (m : Machine), m.Rested →
          Matches (d.code names?) (b.code names?) start opt.start (some t.root) gimme m
      | .error e _ => e = .fatal none ∧ Memory.holds 8 a.tune.deferQueue = false := by
  have hh : a.Holds t := h.site.holds t (by simp)
  have hn : t.recs.Nodup := by simpa using h.site.nodup
  obtain ⟨a₁, S, d, hfix, hprep, hd⟩ := prepare_threaded h
  have hsettled := fixups_settles hh hn hw hfix
  have hwhole : Whole (t.reread a₁) := Whole.reread hw hh hsettled
  have hopen : Undecided (t.reread a₁) := ho.mapOps (Settled.upheld hsettled hh)
  have hroot : (t.reread a₁).root = t.root := root_mapOps _ t
  have hstart : (t.reread a₁).start = t.start := start_mapOps _ t
  refine ⟨some t.start, d, hprep, ?_⟩
  generalize t.reread a₁ = u at hd hwhole hopen hroot hstart
  have hT := hd.terrain hwhole hopen
  have hopt := optimize_traced hT hd.tended fun r => (hd.tidy.clean r).unmarked
  rw [hd.tune] at hopt
  rw [← hroot, ← hstart]
  cases hrun : optimize (some u.start) d with
  | error e b =>
    rw [hrun] at hopt
    exact hopt
  | ok opt b =>
    rw [hrun] at hopt
    obtain ⟨ps, rfl, htraced⟩ := hopt
    refine ⟨rfl, fun names? gimme m hm => matches_of_twin fun n => ?_⟩
    have hsteady := hm.steady gimme u.root
    have hhas : (entering gimme (some u.root) m).Has ⟨[], []⟩ := ⟨hm.has.room, hm.has.stack, hm.has.marks⟩
    have htree := hd.tree
    have hflow : d.Flow (d.tree u.root) none := htree ▸ hd.flow
    cases hwhole with
    | mk hc hs hblock => exact htraced.twin_unit hT htree hs hblock hflow (congrArg Tree.start htree) hhas hsteady n

end TreeM

namespace SubUnit

open OpTree.Tree

theorem rested_machine {u u' : SubUnit} {m : Machine} (h : machine u = .ok m u') : u' = u ∧ m.Rested := by
  have hget : (get : UnitM SubUnit) u = .ok u u := rfl
  rw [machine, bind_of_ok hget] at h
  cases hp : Machine.ofPadOn? u.code.heap u.arena.pad with
  | none =>
    rw [hp] at h
    cases h
  | some m₀ =>
    rw [hp] at h
    cases h
    obtain ⟨hheight, hmarks, hloops, hyes, hno⟩ := Machine.rested_ofPad u.code.heap_yes u.code.heap_no hp
    exact ⟨rfl, hheight, hmarks, hloops, hyes, hno⟩

variable {src : Source} {s : Sub} {u u' : SubUnit} {T : Tuning} {v : Unit}

theorem whole_of_ok (harena : u.arena = .ofTuning u.arena.file T) (hs : Form.clauseAll src s.body = true)
    (hok : Program.assembleUnit src s u = .ok v u') :
    ∃ t, u'.root = some t.root ∧ u'.arena.Assembled t ∧ Whole t ∧ u'.arena.tune = T := by
  obtain ⟨-, root, hroot, hlaid, hasm⟩ := assemble_of_ok harena hok
  obtain ⟨t, rfl, ht, htune⟩ := TreeM.assemble_tree hlaid hasm
  obtain ⟨ts, hts, hp⟩ := hlaid.plot
  obtain rfl := List.map_eq_nil_iff.mp hts
  obtain ⟨w, hw, hwhole, hsite⟩ := TreeM.assemble_whole hp.site hs hasm
  refine ⟨t, hroot, ht, ?_, htune⟩
  obtain rfl : w = t := by rw [← hsite.tree_eq, hw, ht.site.tree_eq]
  exact hwhole

end SubUnit

namespace Program

open OpTree.Tree Exec SubUnit

/-- Optimizing a unit about scalars does not change what its sub does: on a machine that runs nothing, the optimized
chain ends as the plain one does, in whatever context. Only a queue that memory does not hold is in the way. -/
theorem optimize_keeps_scalars {src : Source} {s : Sub} {name file : Bytes} {t : Tuning} {depth seq : Nat} {v : Unit}
    {u : SubUnit} {root : RecId} (hs : Form.clauseAll src s.body = true)
    (h : assembleUnit src s { SubUnit.new file t with name := name, depth := depth, seq := seq } = .ok v u)
    (hroot : u.root = some root) (ho : Undecided (u.arena.tree root)) :
    ∃ start a, TreeM.prepare root u.arena = .ok start a ∧
      match TreeM.optimize start a with
      | .ok opt b => opt.failure? = none ∧ ∀ names? gimme (m : Machine), m.Rested →
          Matches (a.code names?) (b.code names?) start opt.start (some root) gimme m
      | .error e _ => e = .fatal none ∧ Memory.holds 8 t.deferQueue = false := by
  obtain ⟨w, hw, htree, hwhole, htune⟩ := @whole_of_ok src s _ u t v rfl hs h
  obtain rfl : root = w.root := Option.some.inj (hroot.symm.trans hw)
  rw [htree.site.tree_eq] at ho
  rw [← htune]
  exact TreeM.optimize_matches htree hwhole ho

/-- A negated test in a loop, a return at the end, and a queue for one branch only. -/
theorem optimize_keeps_scalars_loop : ∃ src subs s u root start a opt b m,
    src = Source.ofFile (utf8 "t.pl") (utf8
      "(sub main (my $x 0) (foreach $i 1 2 (and (not $x) (say $i))) (return $x))") ∧
    Sub.readAll src = .ok subs ∧ s ∈ subs ∧
    assembleUnit src s (SubUnit.new (utf8 "t.pl") { deferQueue := 1 }) = .ok () u ∧ u.root = some root ∧
    TreeM.prepare root u.arena = .ok start a ∧ TreeM.optimize start a = .ok opt b ∧
    machine u = .ok m u ∧
    Matches (a.code (some u.arena.pad)) (b.code (some u.arena.pad)) start opt.start (some root) .scalar m := by
  generalize hsrc : Source.ofFile _ _ = src
  have hrun : (Sub.readAll src).toOption.map (fun subs => subs.any fun s => Form.clauseAll src s.body &&
      yields (assembleUnit src s) (SubUnit.new (utf8 "t.pl") { deferQueue := 1 }) fun _ u =>
        yields machine u (fun _ _ => true) && u.root.any fun root => decide (Undecided (u.arena.tree root))) =
      some true := by
    subst hsrc
    decide +kernel
  obtain ⟨subs, hsubs, hany⟩ := Option.map_eq_some_iff.mp hrun
  obtain ⟨s, hs, hrun⟩ := List.any_eq_true.mp hany
  obtain ⟨hscalar, hrun⟩ := Bool.and_eq_true_iff.mp hrun
  obtain ⟨⟨⟩, u, hok, htest⟩ := ok_of_yields hrun
  obtain ⟨hpad, hany⟩ := Bool.and_eq_true_iff.mp htest
  obtain ⟨m, u', hm, -⟩ := ok_of_yields hpad
  obtain ⟨hsame, hrested⟩ := rested_machine hm
  rw [hsame] at hm
  obtain ⟨root, hroot, ho⟩ : ∃ root, u.root = some root ∧ decide (Undecided (u.arena.tree root)) = true := by
    cases hroot : u.root with
    | none =>
      rw [hroot] at hany
      cases hany
    | some root =>
      rw [hroot] at hany
      exact ⟨root, rfl, hany⟩
  obtain ⟨start, a, hprep, hopt⟩ := @optimize_keeps_scalars src s (utf8 "t.pl") (utf8 "t.pl") { deferQueue := 1 } 0 0 ()
    u root hscalar hok hroot (of_decide_eq_true ho)
  cases hend : TreeM.optimize start a with
  | error e b =>
    rw [hend] at hopt
    exact absurd hopt.2 (by decide)
  | ok opt b =>
    rw [hend] at hopt
    exact ⟨src, subs, s, u, root, start, a, opt, b, m, rfl, ok_of_toOption hsubs, hs, hok, hroot, hprep, hend, hm,
      hopt.2 (some u.arena.pad) .scalar m hrested⟩

end Program

end OpTree
