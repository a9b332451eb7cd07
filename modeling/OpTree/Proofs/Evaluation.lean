import OpTree.Proofs.Tree
import OpTree.Proofs.Invariants

/-!
# Evaluating trees

The meaning of a tree by recursion over its kids, with the machine's own steps and no order of
execution. A run along links simulates such an evaluation if every link leads to the op that the
recursion comes to next.
-/

namespace OpTree

set_option autoImplicit false

/-- How the evaluation of a subtree ends: all of it was executed, or it returned from the sub. -/
inductive Ending where
  | done
  | left
  deriving DecidableEq

/-- Evaluation within a number of ops that may still be executed. -/
abbrev Eval := StateT Nat Exec

namespace Eval

theorem bind_apply {α β : Type} (x : Eval α) (f : α → Eval β) (n : Nat) :
    (x >>= f) n = x n >>= fun p => f p.1 p.2 := rfl

def exec (names? : Option Pad) (o : Node) : Eval (Option RecId) := fun
  | 0 => throw (.plain (utf8 "out of fuel"))
  | n + 1 => do
    modify fun m => { m with steps := m.steps + 1 }
    return (← Exec.step names? o, n)

def single (names? : Option Pad) (o : Node) : Eval Ending := do
  let _ ← exec names? o
  return if o.code = .ret then .left else .done

/-- Executes a branching op and tells whether it takes its branch. -/
def takes (names? : Option Pad) (o : Node) : Eval Bool := do
  return (← exec names? { o with next := none, other := some 0 }).isSome

theorem takes_succ (names? : Option Pad) (o : Node) (n : Nat) :
    takes names? o (n + 1) = (do
      modify fun m => { m with steps := m.steps + 1 }
      let r ← Exec.step names? { o with next := none, other := some 0 }
      return (r.isSome, n)) := by
  simp only [takes, bind_apply, exec, bind_assoc, pure_bind]
  rfl

/-- One evaluation after the other, unless the first one leaves the sub. -/
def andThen (x y : Eval Ending) : Eval Ending := do
  match ← x with
  | .done => y
  | .left => return .left

/-- Rounds of a loop: the test is evaluated and tells whether the body is. -/
def rounds (test : Eval Ending) (more : Eval Bool) (body : Eval Ending) : Nat → Eval Ending
  | 0 => throw (.plain (utf8 "out of fuel"))
  | k + 1 => andThen test do
    if ← more then andThen body (rounds test more body k) else return .done

/-- A loop has at most as many rounds as there are ops left to execute. -/
def loop (test : Eval Ending) (more : Eval Bool) (body : Eval Ending) : Eval Ending := do
  rounds test more body (← get)

end Eval

structure Node.SameShape (o o' : Node) : Prop where
  branches : o'.code.branches = o.code.branches
  leaveloop : o'.code = .leaveloop ↔ o.code = .leaveloop
  enteriter : o'.code = .enteriter ↔ o.code = .enteriter
  leavesub : o'.code = .leavesub ↔ o.code = .leavesub

theorem Node.SameShape.of_code_eq {o o' : Node} (h : o'.code = o.code) : o.SameShape o' := by
  constructor <;> rw [h]

namespace Tree

/-- Is it the end of a loop over a range, which its first kid enters. -/
def isLoop (o : Node) (ks : List Tree) : Bool :=
  o.code == .leaveloop && ks.head?.any fun k => k.op.code == .enteriter

open Eval in
mutual

/-- Evaluates a tree: kids from left to right, and then the op. -/
def eval (names? : Option Pad) : Tree → Eval Ending
  | mk _ o ks =>
    if o.code.branches then evalBranch names? o ks
    else if isLoop o ks then andThen (evalLoop names? ks) (single names? o)
    else andThen (evalAll names? ks) (single names? o)

def evalAll (names? : Option Pad) : List Tree → Eval Ending
  | [] => return .done
  | k :: ks => andThen (eval names? k) (evalAll names? ks)

/-- The first kid of a branching op, the op, and then either the second kid or those after it. -/
def evalBranch (names? : Option Pad) (o : Node) : List Tree → Eval Ending
  | x :: y :: zs =>
    andThen (eval names? x) do if ← takes names? o then eval names? y else evalAll names? zs
  | ks => evalAll names? ks

/-- The kids of a loop: it is entered once and then run through. -/
def evalLoop (names? : Option Pad) : List Tree → Eval Ending
  | [ent, wrap] => andThen (eval names? ent) (evalRounds names? wrap)
  | ks => evalAll names? ks

/-- The body of a loop is evaluated as long as the test takes the branch to it. -/
def evalRounds (names? : Option Pad) : Tree → Eval Ending
  | mk _ wrap [mk _ test [iter, mk _ _ body]] =>
    andThen (loop (eval names? iter) (takes names? test) (evalAll names? body)) (single names? wrap)
  | mk _ wrap ks => andThen (evalAll names? ks) (single names? wrap)

end

end Tree

namespace Eval

/-- Evaluates the tree of a sub in the context of a caller: its kids, which may return early, and
then the op that ends it. -/
def sub (names? : Option Pad) (fuel : Nat) (t : Tree) (gimme : Want) : Exec (List Value) := do
  modify fun m => { m with gimme := gimme, leave := some t.root, result := [] }
  let (_, n) ← Tree.evalAll names? t.kids fuel
  let _ ← single names? t.op n
  return (← get).result

end Eval

namespace Exec

theorem admits_leave (names? : Option Pad) :
    Machine.Admits names? fun m m' => m'.leave = m.leave where
  refl _ := rfl
  trans h h' := h'.trans h
  stack _ _ _ _ _ := rfl
  notes _ _ _ _ _ _ := rfl
  heap _ _ _ := rfl
  scalar _ _ _ _ := rfl
  fresh _ _ _ := rfl
  enter _ _ _ := rfl
  advance _ _ _ _ _ := rfl
  close _ _ _ _ := rfl
  restore _ _ _ _ := rfl

end Exec

namespace Eval

variable {α β : Type}

/-- An evaluation never ends with more ops to execute than it had, or with another op that ends
the sub. -/
def Thrifty (e : Eval α) : Prop :=
  ∀ n m x k m', e n m = .ok (x, k) m' → k ≤ n ∧ m'.leave = m.leave

theorem thrifty_pure (v : α) : Thrifty (pure v : Eval α) := by
  intro n m x k m' h
  cases h
  exact ⟨Nat.le_refl _, rfl⟩

theorem thrifty_throw (e : Failure) : Thrifty (throw e : Eval α) := by
  intro n m x k m' h
  have herr : (throw e : Eval α) n m = .error e m := rfl
  rw [herr] at h
  cases h

theorem Thrifty.bind {e : Eval α} {f : α → Eval β} (he : e.Thrifty) (hf : ∀ v, (f v).Thrifty) :
    (e >>= f).Thrifty := by
  intro n m x k m' h
  rw [bind_apply] at h
  obtain ⟨⟨y, j⟩, m1, h1, h2⟩ := bind_eq_ok.mp h
  obtain ⟨hj, hl⟩ := he _ _ _ _ _ h1
  obtain ⟨hk, hl'⟩ := hf y _ _ _ _ _ h2
  exact ⟨Nat.le_trans hk hj, hl'.trans hl⟩

theorem thrifty_exec (names? : Option Pad) (o : Node) : (exec names? o).Thrifty := by
  intro n m x k m' h
  cases n with
  | zero => exact nomatch h
  | succ n =>
    obtain ⟨_, m1, hcount, h1⟩ := bind_eq_ok.mp h
    obtain ⟨_, m2, hstep, h2⟩ := bind_eq_ok.mp h1
    cases hcount
    cases h2
    have hleave := (Exec.within_step (Exec.admits_leave names?) o).of_ok hstep
    exact ⟨Nat.le_succ _, hleave⟩

theorem thrifty_single (names? : Option Pad) (o : Node) : (single names? o).Thrifty :=
  (thrifty_exec names? o).bind fun _ => thrifty_pure _

theorem thrifty_takes (names? : Option Pad) (o : Node) : (takes names? o).Thrifty :=
  (thrifty_exec names? _).bind fun _ => thrifty_pure _

theorem Thrifty.andThen {e e' : Eval Ending} (he : e.Thrifty) (he' : e'.Thrifty) :
    (andThen e e').Thrifty := by
  refine he.bind fun x => ?_
  cases x with
  | done => exact he'
  | left => exact thrifty_pure _

theorem Thrifty.ite {more : Eval Bool} {e e' : Eval α} (hm : more.Thrifty) (he : e.Thrifty)
    (he' : e'.Thrifty) : Thrifty (do if ← more then e else e') := by
  refine hm.bind fun b => ?_
  cases b with
  | false => exact he'
  | true => exact he

theorem Thrifty.loop {test : Eval Ending} {more : Eval Bool} {body : Eval Ending}
    (ht : test.Thrifty) (hm : more.Thrifty) (hb : body.Thrifty) : (loop test more body).Thrifty := by
  have hrounds : ∀ k, (rounds test more body k).Thrifty := by
    intro k
    induction k with
    | zero => exact thrifty_throw _
    | succ k ih => exact ht.andThen (hm.ite (hb.andThen ih) (thrifty_pure _))
  exact fun n => hrounds n n

end Eval

namespace Tree

open Eval

variable {names? : Option Pad}

theorem thrifty_evalAll_of {ks : List Tree} (h : ∀ k ∈ ks, (eval names? k).Thrifty) :
    (evalAll names? ks).Thrifty := by
  induction ks with
  | nil =>
    rw [evalAll]
    exact thrifty_pure _
  | cons k ks ih =>
    rw [evalAll]
    exact (h k (List.mem_cons_self ..)).andThen (ih fun j hj => h j (List.mem_cons_of_mem k hj))

theorem thrifty_evalBranch_of {o : Node} {ks : List Tree} (h : ∀ k ∈ ks, (eval names? k).Thrifty) :
    (evalBranch names? o ks).Thrifty := by
  unfold evalBranch
  split
  · refine Thrifty.andThen (h _ (by simp)) ((thrifty_takes names? o).ite (h _ (by simp)) ?_)
    exact thrifty_evalAll_of fun k hk => h k (by simp [hk])
  · exact thrifty_evalAll_of h

theorem thrifty_evalRounds_of {t : Tree} (h : ∀ u ∈ t.subtrees, (eval names? u).Thrifty) :
    (evalRounds names? t).Thrifty := by
  unfold evalRounds
  split
  · refine Thrifty.andThen (Thrifty.loop (h _ ?_) (thrifty_takes names? _) ?_)
      (thrifty_single names? _)
    · simp [subtrees, subtreesAll, self_mem_subtrees]
    · refine thrifty_evalAll_of fun k hk => h k ?_
      refine subtrees_trans (kid_mem_subtrees (List.mem_singleton.mpr rfl)) ?_
      refine subtrees_trans (kid_mem_subtrees (List.mem_cons_of_mem _ (List.mem_singleton.mpr rfl))) ?_
      exact kid_mem_subtrees hk
  · exact (thrifty_evalAll_of fun k hk => h k (kid_mem_subtrees hk)).andThen (thrifty_single names? _)

theorem thrifty_eval (names? : Option Pad) (t : Tree) : ∀ u ∈ t.subtrees, (eval names? u).Thrifty := by
  induction t using induct with
  | h r o ks ih =>
    have hkids : ∀ k ∈ ks, (eval names? k).Thrifty := fun k hk => ih k hk k (self_mem_subtrees k)
    intro u hu
    rcases mem_subtrees_mk.mp hu with rfl | ⟨k, hk, hu⟩
    · rw [eval]
      split
      · exact thrifty_evalBranch_of hkids
      · split
        · refine Thrifty.andThen ?_ (thrifty_single names? o)
          unfold evalLoop
          split
          · exact (hkids _ (by simp)).andThen (thrifty_evalRounds_of (ih _ (by simp)))
          · exact thrifty_evalAll_of hkids
        · exact (thrifty_evalAll_of hkids).andThen (thrifty_single names? o)
    · exact ih k hk u hu

end Tree

namespace Exec

section Steps

variable {α β : Type} (names? : Option Pad) (n : Node)

theorem map_throw (f : α → β) (e : Failure) : f <$> (throw e : Exec α) = throw e := rfl

theorem map_throwAt (f : α → β) (msg : Bytes) : f <$> (throwAt msg : Exec α) = throwAt msg := by
  simp only [throwAt, map_bind, map_throw]

theorem map_die (f : α → β) : f <$> (die : Exec α) = die := by
  have hraise : ∀ msg : Bytes,
      f <$> (if msg.getLast? == some 10 then throw (.thrown msg [] 0) else throwAt msg) =
        if msg.getLast? == some 10 then throw (.thrown msg [] 0) else throwAt msg := by
    intro msg
    split
    · exact map_throw f _
    · exact map_throwAt f _
  simp only [die, map_bind, hraise]

theorem padSlots_plain (k : Nat) (targ : Int) :
    padSlots names? n.plain k targ = padSlots names? n k targ := by
  induction k generalizing targ with
  | zero => rfl
  | succ k ih =>
    simp only [padSlots, ih]
    rfl

theorem walkPath_plain (p : Path) (cur : Option CellId) (its : List PathItem) :
    walkPath n.plain p cur its = walkPath n p cur its := by
  induction its generalizing cur with
  | nil => rfl
  | cons it rest ih =>
    cases rest with
    | nil => rfl
    | cons next rest => simp only [walkPath, ih]

theorem padRange_plain : padRange names? n.plain = padRange names? n := by
  simp only [padRange, padSlots_plain]
  rfl

theorem multideref_plain : multideref n.plain = multideref n := by
  simp only [multideref, walkPath_plain]
  rfl

theorem step_of_not_branches (hb : n.code.branches = false) (hr : n.code ≠ .ret) :
    step names? n = (fun _ => n.next) <$> step names? n.plain := by
  cases hc : n.code with
  | and | or | dor | condExpr => simp [hc, Opcode.branches] at hb
  | ret => exact absurd hc hr
  | die => simp only [step, hc, Node.plain_code, map_die]
  | padrange => simp only [step, hc, Node.plain_code, map_bind, map_pure, padRange_plain]
  | multideref => simp only [step, hc, Node.plain_code, map_bind, map_pure, multideref_plain]
  | freed =>
    simp only [step, hc, Node.plain_code]
    rfl
  | stub | const | list | padsv | padav | padhv | gv | rv2av | rv2hv | aelem | aelemU | helem
  | existsElem | deleteElem | length | nextstate | enteriter =>
    simp only [step, hc, Node.plain_code, map_bind, map_pure]
    rfl
  | _ => simp only [step, hc, Node.plain_code, map_bind, map_pure]

theorem step_of_branches (hb : n.code.branches = true) :
    step names? n = (fun r : Option RecId => if r.isSome then n.other else n.next) <$>
      step names? { n.plain with next := none, other := some 0 } := by
  have hshort : ∀ keeps : Value → Bool, shortCircuit n keeps =
      (fun r : Option RecId => if r.isSome then n.other else n.next) <$>
        shortCircuit { n.plain with next := none, other := some 0 } keeps := by
    intro keeps
    simp only [shortCircuit, map_bind]
    congr 1
    funext c
    congr 1
    funext v
    split
    · rfl
    · simp only [map_bind, map_pure]
      rfl
  have hcond : condition n =
      (fun r : Option RecId => if r.isSome then n.other else n.next) <$>
        condition { n.plain with next := none, other := some 0 } := by
    simp only [condition, map_bind]
    congr 1
    funext c
    congr 1
    funext v
    split <;> rfl
  cases hc : n.code with
  | and | or | dor =>
    simp only [step, hc, Node.plain_code]
    exact hshort _
  | condExpr =>
    simp only [step, hc, Node.plain_code]
    exact hcond
  | _ => simp [hc, Opcode.branches] at hb

theorem step_ret (hr : n.code = .ret) : step names? n = returnSub := by
  simp only [step, hr]

theorem returnSub_next {m m' : Machine} {r : Option RecId} (h : returnSub m = .ok r m') :
    r = m'.leave := by
  obtain ⟨mark, m1, -, h⟩ := bind_eq_ok.mp h
  obtain ⟨xs, m2, -, h⟩ := bind_eq_ok.mp h
  obtain ⟨_, m3, -, h⟩ := bind_eq_ok.mp h
  obtain ⟨_, m4, -, h⟩ := bind_eq_ok.mp h
  obtain ⟨_, m5, -, h⟩ := bind_eq_ok.mp h
  obtain ⟨_, m6, -, h⟩ := bind_eq_ok.mp h
  obtain ⟨m7, _, hget, h⟩ := bind_eq_ok.mp h
  cases hget
  cases hl : m6.leave with
  | some r' =>
    simp only [hl] at h
    cases h
    exact hl.symm
  | none =>
    simp only [hl] at h
    obtain ⟨_, m8, hsub, h⟩ := bind_eq_ok.mp h
    cases h
    exact (((within_leaveSub (admits_leave none).toSpares).of_ok hsub).trans hl).symm

theorem returnSub_bind (f : Option RecId → Exec α) :
    returnSub >>= f = returnSub >>= fun _ => get >>= fun m => f m.leave := by
  funext m
  cases h : returnSub m with
  | error e m' => rw [bind_of_error h, bind_of_error h]
  | ok r m' =>
    rw [bind_of_ok h, bind_of_ok h, returnSub_next h]
    rfl

end Steps

/-- Goes on where an evaluation that began with a run has left off. -/
def resume (code : Code) (q : Option RecId) : Ending × Nat → Exec Unit
  | (.done, n) => run code n q
  | (.left, n) => do run code n (← get).leave

/-- A run from `s` is the evaluation, and then the run from `q`. -/
def Runs (code : Code) (s : Option RecId) (e : Eval Ending) (q : Option RecId) : Prop :=
  ∀ n, run code n s = e n >>= resume code q

namespace Runs

variable {code : Code} {s p q : Option RecId} {e e' : Eval Ending}

theorem refl (code : Code) (q : Option RecId) : Runs code q (pure .done) q := fun _ => rfl

theorem andThen (h : Runs code s e p) (h' : Runs code p e' q) :
    Runs code s (Eval.andThen e e') q := by
  intro n
  rw [h n, Eval.andThen, Eval.bind_apply, bind_assoc]
  congr 1
  funext x
  obtain ⟨x, k⟩ := x
  cases x with
  | done => exact h' k
  | left => rfl

theorem run_succ (code : Code) (n : Nat) (r : RecId) :
    run code (n + 1) (some r) = (do
      modify fun m => { m with steps := m.steps + 1 }
      let next ← step code.names? (code.node r)
      run code n next) := rfl

theorem single {r : RecId} {o : Node} (ho : (code.node r).plain = o)
    (hb : o.code.branches = false) (hq : (code.node r).next = q) :
    Runs code (some r) (Eval.single code.names? o) q := by
  intro n
  have hcode : (code.node r).code = o.code := by rw [← ho, Node.plain_code]
  cases n with
  | zero => rfl
  | succ n =>
    have hexec : Eval.single code.names? o (n + 1) >>= resume code q = (do
        modify fun m => { m with steps := m.steps + 1 }
        let _ ← step code.names? o
        resume code q (if o.code = .ret then .left else .done, n)) := by
      simp only [Eval.single, Eval.bind_apply, Eval.exec, bind_assoc, pure_bind]
      rfl
    rw [run_succ, hexec]
    congr 1
    funext _
    by_cases hr : o.code = .ret
    · rw [step_ret _ _ (hcode.trans hr), step_ret _ _ hr, if_pos hr]
      exact returnSub_bind _
    · rw [step_of_not_branches _ _ (hcode ▸ hb) (hcode ▸ hr), ho, hq, if_neg hr, bind_map_left]
      rfl

theorem branch {r : RecId} {o : Node} (ho : (code.node r).plain = o)
    (hb : o.code.branches = true) (hy : Runs code (code.node r).other e q)
    (hz : Runs code (code.node r).next e' q) :
    Runs code (some r) (do if ← Eval.takes code.names? o then e else e') q := by
  intro n
  have hcode : (code.node r).code = o.code := by rw [← ho, Node.plain_code]
  cases n with
  | zero => rfl
  | succ n =>
    rw [run_succ, step_of_branches _ _ (hcode ▸ hb), ho, Eval.bind_apply, Eval.takes_succ]
    simp only [bind_assoc, pure_bind, bind_map_left]
    congr 1
    funext _
    congr 1
    funext x
    cases x with
    | none => exact hz n
    | some x => exact hy n

theorem rounds {r l : RecId} {o : Node} {test body : Eval Ending} (ho : (code.node l).plain = o)
    (hb : o.code.branches = true) (htest : Runs code (some r) test (some l))
    (hbody : Runs code (code.node l).other body (some r)) (ht : test.Thrifty) (hbt : body.Thrifty)
    {k n : Nat} (hn : n ≤ k) :
    run code n (some r) =
      Eval.rounds test (Eval.takes code.names? o) body k n >>= resume code (code.node l).next := by
  have hcode : (code.node l).code = o.code := by rw [← ho, Node.plain_code]
  induction k generalizing n with
  | zero =>
    obtain rfl : n = 0 := Nat.le_zero.mp hn
    rfl
  | succ k ih =>
    rw [htest n, Eval.rounds, Eval.andThen, Eval.bind_apply, bind_assoc]
    funext m
    cases h1 : test n m with
    | error e m1 => rw [bind_of_error h1, bind_of_error h1]
    | ok x m1 =>
      rw [bind_of_ok h1, bind_of_ok h1]
      obtain ⟨x, n1⟩ := x
      have hn1 : n1 ≤ n := (ht _ _ _ _ _ h1).1
      cases x with
      | left => rfl
      | done =>
        cases n1 with
        | zero => rfl
        | succ j =>
          simp only [resume]
          rw [run_succ, step_of_branches _ _ (hcode ▸ hb), ho, Eval.bind_apply, Eval.takes_succ]
          simp only [bind_assoc, pure_bind, bind_map_left]
          refine congrFun ?_ m1
          congr 1
          funext _
          congr 1
          funext y
          cases y with
          | none => rfl
          | some y =>
            funext m2
            simp only [Option.isSome_some, if_true]
            rw [hbody j, Eval.andThen, Eval.bind_apply, bind_assoc]
            cases h2 : body j m2 with
            | error e m3 => rw [bind_of_error h2, bind_of_error h2]
            | ok z m3 =>
              rw [bind_of_ok h2, bind_of_ok h2]
              obtain ⟨z, j1⟩ := z
              have hj1 : j1 ≤ j := (hbt _ _ _ _ _ h2).1
              cases z with
              | left => rfl
              | done => exact congrFun (ih (by omega)) m3

theorem loop {r l : RecId} {o : Node} {test body : Eval Ending} (ho : (code.node l).plain = o)
    (hb : o.code.branches = true) (htest : Runs code (some r) test (some l))
    (hbody : Runs code (code.node l).other body (some r)) (ht : test.Thrifty) (hbt : body.Thrifty)
    (hq : (code.node l).next = q) :
    Runs code (some r) (Eval.loop test (Eval.takes code.names? o) body) q := by
  subst hq
  exact fun n => rounds ho hb htest hbody ht hbt (Nat.le_refl n)

end Runs

end Exec

end OpTree
