import OpTree.Proofs.Unwound

/-!
# Loops over ranges

A loop counts in words of 64 bits. If its range ends below the largest integer, its body is evaluated once for every
integer of the range, in order, and then the loop is over. The counter of a loop up to the largest integer wraps
around, so that such a loop is never over.
-/

namespace OpTree

set_option autoImplicit false

namespace Loop

def count (l : Loop) : Nat := (l.hi.toInt - l.cur.toInt + 1).toNat

def values (l : Loop) : List Int64 := (List.range l.count).map fun (i : Nat) => .ofInt (l.cur.toInt + i)

def next (l : Loop) : Loop := { l with cur := l.cur + 1 }

variable {l : Loop}

@[simp] theorem length_values : l.values.length = l.count := by simp [values]

theorem count_of_lt (h : l.hi < l.cur) : l.count = 0 := by
  rw [Int64.lt_iff_toInt_lt] at h
  unfold count
  omega

theorem toInt_next (h : l.cur ≤ l.hi) (hhi : l.hi ≠ .maxValue) : l.next.cur.toInt = l.cur.toInt + 1 := by
  have hmax : Int64.maxValue.toInt = 9223372036854775807 := by decide
  have hne : l.hi.toInt ≠ 9223372036854775807 := fun he => hhi (Int64.toInt_inj.mp (he.trans hmax.symm))
  have hlt := l.hi.toInt_lt
  have hmin := l.cur.le_toInt
  have hone : (1 : Int64).toInt = 1 := by decide
  rw [Int64.le_iff_toInt_le] at h
  rw [next, Int64.toInt_add, hone, Int.bmod_eq_of_le (by omega) (by omega)]

theorem count_of_le (h : l.cur ≤ l.hi) (hhi : l.hi ≠ .maxValue) : l.count = l.next.count + 1 := by
  have hnext := toInt_next h hhi
  rw [Int64.le_iff_toInt_le] at h
  change l.count = (l.hi.toInt - l.next.cur.toInt + 1).toNat + 1
  unfold count
  omega

theorem values_of_lt (h : l.hi < l.cur) : l.values = [] := by
  rw [values, count_of_lt h]
  rfl

theorem values_of_le (h : l.cur ≤ l.hi) (hhi : l.hi ≠ .maxValue) : l.values = l.cur :: l.next.values := by
  rw [values, count_of_le h hhi, List.range_succ_eq_map, List.map_cons, List.map_map, values]
  congr 1
  · simp
  · refine List.map_congr_left fun i _ => congrArg Int64.ofInt ?_
    rw [toInt_next h hhi]
    simp
    omega

end Loop

namespace Machine

/-- The machine is in a loop: the pad has a slot for the variable, and the stack is not below the floor of the loop. -/
structure Counts (m : Machine) (l : Loop) (ls : List Loop) : Prop where
  loops : m.loops = l :: ls
  slot : 0 ≤ l.targ ∧ l.targ < m.pad.size
  truths : m.heap.Truths
  floor : l.height ≤ m.height
  room : m.height ≤ m.slots.size

/-- The machine with the variable of a loop bound to a new cell that holds the counter, and the counter gone on. -/
def bound (m : Machine) (l : Loop) (ls : List Loop) : Machine :=
  let (c, h) := m.heap.newCell (.int l.cur) false
  { m with heap := h, pad := m.pad.setIfInBounds l.targ.toNat (.scalar c), loops := l.next :: ls }

/-- Only what lies above the stack and the number of steps differ. -/
structure Agrees (m m' : Machine) : Prop where
  layout : m'.Has ⟨m.stack, m.marks⟩
  rest : m'.offStack = m.offStack

variable {m m' : Machine} {l : Loop} {ls : List Loop}

theorem Counts.has (h : m.Counts l ls) : m.Has ⟨m.stack, m.marks⟩ := ⟨h.room, rfl, rfl⟩

theorem Counts.restack {xs : List Item} {ks : List Nat} (h : m.Counts l ls) (hrest : m'.offStack = m.offStack)
    (hhas : m'.Has ⟨m.stack ++ xs, ks⟩) : m'.Counts l ls where
  loops := (congrArg Machine.loops hrest :).trans h.loops
  slot := by
    have hpad : m'.pad = m.pad := (congrArg Machine.pad hrest :)
    rw [hpad]
    exact h.slot
  truths := by
    rw [heap_of_offStack hrest]
    exact h.truths
  floor := by
    have hlen := hhas.length
    rw [List.length_append, h.has.length] at hlen
    have hfloor := h.floor
    omega
  room := hhas.room

theorem Counts.agrees (h : m.Counts l ls) (ha : Agrees m m') : m'.Counts l ls := by
  have hhas := ha.layout
  rw [← List.append_nil m.stack] at hhas
  exact h.restack ha.rest hhas

theorem Counts.bound (h : m.Counts l ls) : (m.bound l ls).Counts l.next ls where
  loops := rfl
  slot := by
    change 0 ≤ l.targ ∧ l.targ < ((m.pad.setIfInBounds l.targ.toNat _).size : Int)
    rw [Array.size_setIfInBounds]
    exact h.slot
  truths := h.truths.grown (Heap.grown_newCell ..)
  floor := h.floor
  room := h.room

theorem Counts.variable (h : m.Counts l ls) (ha : Agrees (m.bound l ls) m') :
    ∃ c, m'.pad[l.targ.toNat]? = some (.scalar c) ∧ m'.heap.cell c = ⟨.int l.cur, false⟩ := by
  have hpad : m'.pad = (m.bound l ls).pad := (congrArg Machine.pad ha.rest :)
  have hheap : m'.heap = (m.bound l ls).heap := (congrArg Machine.heap ha.rest :)
  have hslot := h.slot
  refine ⟨(m.heap.newCell (.int l.cur) false).1, ?_, ?_⟩
  · rw [hpad]
    exact Array.getElem?_setIfInBounds_self_of_lt (by omega)
  · rw [hheap]
    exact Heap.cell_newCell ..

end Machine

namespace Exec

open Machine

variable {m m' : Machine} {l : Loop} {ls : List Loop}

theorem top_has {xs : List Item} {ks : List Nat} {c : Option CellId} (h : m.Has ⟨xs ++ [.scalar c], ks⟩) :
    ∃ n, top m = .ok c n ∧ n.offStack = m.offStack ∧ n.Has ⟨xs ++ [.scalar c], ks⟩ := by
  obtain ⟨n, hpop, hoff, hhas⟩ := pop_has h
  obtain ⟨n', hpush, hoff', hhas'⟩ := push_has (.scalar c) hhas
  refine ⟨n', ?_, hoff'.trans hoff, hhas'⟩
  rw [top, bind_of_ok hpop, bind_of_ok hpush]
  rfl

theorem get_apply (m : Machine) : (get : Exec Machine) m = .ok m m := rfl

theorem setPadSlot_of_lt {targ : Int} (h : 0 ≤ targ ∧ targ < m.pad.size) (s : PadSlot) :
    setPadSlot targ s m = .ok () { m with pad := m.pad.setIfInBounds targ.toNat s } := by
  have hin : ¬ (decide (targ < 0) || decide ((m.pad.size : Int) ≤ targ)) = true := by
    rw [Bool.or_eq_true, decide_eq_true_iff, decide_eq_true_iff]
    omega
  rw [setPadSlot, bind_of_ok (get_apply _), if_neg hin]
  rfl

theorem iterate_over (h : m.Counts l ls) (hover : l.hi < l.cur) : ∃ m', iterate m = .ok () m' ∧
    m'.offStack = m.offStack ∧ m'.Has ⟨m.stack ++ [.scalar (some (ofBool false))], m.marks⟩ := by
  obtain ⟨m', hpush, hoff, hhas⟩ := push_has (.scalar (some (ofBool false))) h.has
  refine ⟨m', ?_, hoff, hhas⟩
  rw [iterate, bind_of_ok (get_apply m)]
  simp only [h.loops, if_pos hover]
  exact hpush

theorem iterate_more (h : m.Counts l ls) (hmore : l.cur ≤ l.hi) : ∃ m', iterate m = .ok () m' ∧
    m'.offStack = (m.bound l ls).offStack ∧ m'.Has ⟨m.stack ++ [.scalar (some (ofBool true))], m.marks⟩ := by
  obtain ⟨m', hpush, hoff, hhas⟩ := push_has (.scalar (some (ofBool true))) h.bound.has
  refine ⟨m', ?_, hoff, hhas⟩
  let m₀ : Machine := { m with heap := (m.heap.newCell (.int l.cur) false).2 }
  have htemp : temp (.int l.cur) m = .ok (m.heap.newCell (.int l.cur) false).1 m₀ := rfl
  have hset := setPadSlot_of_lt (m := m₀) h.slot (.scalar (m.heap.newCell (.int l.cur) false).1)
  rw [iterate, bind_of_ok (get_apply m)]
  simp only [h.loops, if_neg (Int64.not_lt.mpr hmore)]
  rw [bind_of_ok htemp, bind_of_ok hset]
  exact hpush

/-- The value on top of the stack decides whether a branch is taken. A value that decides against it stays. -/
theorem shortCircuit_ok {xs : List Item} {ks : List Nat} {b : Bool} {o : Node} (ht : m.heap.Truths)
    (h : m.Has ⟨xs ++ [.scalar (some (ofBool b))], ks⟩) : ∃ m',
    shortCircuit o (fun v => !v.truth) m = .ok (if b then o.other else o.next) m' ∧ m'.offStack = m.offStack ∧
      m'.Has ⟨if b then xs else xs ++ [.scalar (some (ofBool b))], ks⟩ := by
  obtain ⟨m₁, htop, hoff, hhas⟩ := top_has h
  have hval : m₁.value (some (ofBool b)) = .bool b := by
    have hheap : m₁.heap = m.heap := heap_of_offStack hoff
    rw [Machine.value, Heap.value, hheap]
    exact ht.ofBool b
  cases b with
  | false =>
    refine ⟨m₁, ?_, hoff, hhas⟩
    rw [shortCircuit, bind_of_ok htop, bind_of_ok (valueOf_apply ..), hval]
    rfl
  | true =>
    obtain ⟨m₂, hpop, hoff', hhas'⟩ := pop_has hhas
    refine ⟨m₂, ?_, hoff'.trans hoff, hhas'⟩
    rw [shortCircuit, bind_of_ok htop, bind_of_ok (valueOf_apply ..), hval]
    change (do let _ ← pop; return o.other : Exec (Option RecId)) m₁ = _
    rw [bind_of_ok hpop]
    rfl

/-- A loop is left with its variable as it was before, and the stack at the floor of the loop. -/
theorem leaveLoop_counts (h : m.Counts l ls) :
    ∃ m', leaveLoop m = .ok () m' ∧ m'.loops = ls ∧ m'.SlotHas l.targ l.saved ∧ m'.height = l.height := by
  have hslot := h.slot
  let m₀ : Machine := { m with loops := ls }
  have hclose : (modify fun m => { m with loops := ls } : Exec Unit) m = .ok () m₀ := rfl
  have hset := setPadSlot_of_lt (m := m₀) hslot l.saved
  have hroom : l.height ≤ m₀.slots.size := Nat.le_trans h.floor h.room
  refine ⟨{ m with
    loops := ls
    pad := m.pad.setIfInBounds l.targ.toNat l.saved
    height := l.height
    marks := m.marks.dropWhile (l.height < ·) }, ?_, rfl, ⟨hslot.1, ?_⟩, rfl⟩
  · rw [leaveLoop, bind_of_ok (get_apply m)]
    simp only [h.loops]
    rw [bind_of_ok hclose, bind_of_ok hset, resetStack, bind_of_ok (get_apply _)]
    simp only [if_pos hroom]
    rfl
  · exact Array.getElem?_setIfInBounds_self_of_lt (by omega)

theorem resetStack_base (h : m.Counts l ls) :
    ∃ m', (do resetStack (← base) : Exec Unit) m = .ok () m' ∧ m'.Counts l ls := by
  have hroom : l.height ≤ m.slots.size := Nat.le_trans h.floor h.room
  have hbase : base m = .ok l.height m := by
    rw [base, bind_of_ok (get_apply m)]
    simp only [h.loops]
    rfl
  refine ⟨{ m with height := l.height, marks := m.marks.dropWhile (l.height < ·) }, ?_,
    h.loops, h.slot, h.truths, Nat.le_refl _, hroom⟩
  rw [bind_of_ok hbase, resetStack, bind_of_ok (get_apply m)]
  simp only [if_pos hroom]
  rfl

end Exec

namespace Eval

open Machine

variable {names? : Option Pad} {o : Node} {m m' : Machine} {l : Loop} {ls : List Loop}

theorem exec_ok {q : Option RecId} (n : Nat) (h : Exec.step names? o { m with steps := m.steps + 1 } = .ok q m') :
    exec names? o (n + 1) m = .ok (q, n) m' := by
  have hcount : (modify fun m => { m with steps := m.steps + 1 } : Exec Unit) m =
    .ok () { m with steps := m.steps + 1 } := rfl
  rw [exec, bind_of_ok hcount, bind_of_ok h]
  rfl

theorem single_ok {q : Option RecId} (n : Nat) (hr : o.code ≠ .ret)
    (h : Exec.step names? o { m with steps := m.steps + 1 } = .ok q m') :
    single names? o (n + 1) m = .ok (.done, n) m' := by
  rw [single, bind_apply, bind_of_ok (exec_ok n h), if_neg hr]
  rfl

end Eval

namespace Tree

open Eval Machine

variable {names? : Option Pad} {i : RecId} {it test : Node} {m m' : Machine} {l : Loop} {ls : List Loop}

theorem eval_leaf {o : Node} (ho : o.code.branches = false) : eval names? (.mk i o []) = single names? o := by
  have hloop : isLoop o [] = false := by simp [isLoop]
  rw [eval, ho, hloop, if_neg Bool.false_ne_true, if_neg Bool.false_ne_true, evalAll]
  rfl

theorem iter_ok (hit : it.code = .iter) (n : Nat) (h : Exec.iterate { m with steps := m.steps + 1 } = .ok () m') :
    eval names? (.mk i it []) (n + 1) m = .ok (.done, n) m' := by
  have hstep : Exec.step names? it { m with steps := m.steps + 1 } = .ok it.next m' := by
    simp only [Exec.step, hit]
    exact bind_of_ok h
  rw [eval_leaf (by simp [hit, Opcode.branches])]
  exact single_ok n (by simp [hit]) hstep

variable (names?)

theorem takes_ok {xs : List Item} {ks : List Nat} {b : Bool} (htest : test.code = .and) (n : Nat)
    (ht : m.heap.Truths) (h : m.Has ⟨xs ++ [.scalar (some (ofBool b))], ks⟩) : ∃ m',
    takes names? test (n + 1) m = .ok (b, n) m' ∧ m'.offStack = m.offStack ∧
      m'.Has ⟨if b then xs else xs ++ [.scalar (some (ofBool b))], ks⟩ := by
  let o : Node := { test with next := none, other := some 0 }
  obtain ⟨m', hshort, hoff, hhas⟩ := @Exec.shortCircuit_ok { m with steps := m.steps + 1 } xs ks b o ht
    ⟨h.room, h.stack, h.marks⟩
  have hstep : Exec.step names? o { m with steps := m.steps + 1 } = .ok (if b then o.other else o.next) m' := by
    have ho : o.code = .and := htest
    simp only [Exec.step, ho]
    exact hshort
  refine ⟨m', ?_, hoff, hhas⟩
  rw [takes, bind_apply, bind_of_ok (exec_ok n hstep)]
  cases b <;> rfl

variable (i)

theorem test_over (hit : it.code = .iter) (htest : test.code = .and) (h : m.Counts l ls) (hover : l.hi < l.cur)
    (n : Nat) : ∃ m₁ m₂, eval names? (.mk i it []) (n + 2) m = .ok (.done, n + 1) m₁ ∧
      takes names? test (n + 1) m₁ = .ok (false, n) m₂ ∧ m₂.offStack = m.offStack ∧
      m₂.Has ⟨m.stack ++ [.scalar (some (ofBool false))], m.marks⟩ := by
  obtain ⟨m₁, hiter, hoff, hhas⟩ := Exec.iterate_over (m := { m with steps := m.steps + 1 })
    ⟨h.loops, h.slot, h.truths, h.floor, h.room⟩ hover
  have hheap : m₁.heap = m.heap := heap_of_offStack hoff
  obtain ⟨m₂, htakes, hoff', hhas'⟩ := takes_ok names? htest n (by rw [hheap]; exact h.truths) hhas
  exact ⟨m₁, m₂, iter_ok hit (n + 1) hiter, htakes, hoff'.trans hoff, hhas'⟩

theorem test_more (hit : it.code = .iter) (htest : test.code = .and) (h : m.Counts l ls) (hmore : l.cur ≤ l.hi)
    (n : Nat) : ∃ m₁ m₂, eval names? (.mk i it []) (n + 2) m = .ok (.done, n + 1) m₁ ∧
      takes names? test (n + 1) m₁ = .ok (true, n) m₂ ∧ Agrees (m.bound l ls) m₂ := by
  obtain ⟨m₁, hiter, hoff, hhas⟩ := Exec.iterate_more (m := { m with steps := m.steps + 1 })
    ⟨h.loops, h.slot, h.truths, h.floor, h.room⟩ hmore
  have hheap : m₁.heap = (m.bound l ls).heap := heap_of_offStack hoff
  obtain ⟨m₂, htakes, hoff', hhas'⟩ := takes_ok names? htest n (by rw [hheap]; exact h.bound.truths) hhas
  exact ⟨m₁, m₂, iter_ok hit (n + 1) hiter, htakes, hhas', hoff'.trans hoff⟩

end Tree

namespace Eval

open Machine OpTree.Tree

/-- The rounds of a loop that is left at the end of its range, with the integers that the variable takes: the body
begins with the variable bound, is done, and leaves the loop as it was. -/
inductive Rounds (body : Eval Ending) (ls : List Loop) : List Int64 → Nat × Machine → Nat × Machine → Prop where
  | past {l : Loop} {n : Nat} {m : Machine} : m.Counts l ls → l.hi < l.cur → Rounds body ls [] (n, m) (n, m)
  | more {l : Loop} {vs : List Int64} {n n₁ : Nat} {m m₁ m₂ : Machine} {s : Nat × Machine} : m.Counts l ls →
      l.cur ≤ l.hi → Agrees (m.bound l ls) m₁ → body n m₁ = .ok (.done, n₁) m₂ → m₂.Counts l.next ls →
      Rounds body ls vs (n₁, m₂) s → Rounds body ls (l.cur :: vs) (n + 2, m) s

/-- The body is done after at most so many steps, if there are as many left, and leaves the loop as it was. -/
def Completes (c : Nat) (body : Eval Ending) : Prop :=
  ∀ (l : Loop) (ls : List Loop) (n : Nat) (m : Machine), c ≤ n → m.Counts l ls →
    ∃ n' m', body n m = .ok (.done, n') m' ∧ n ≤ n' + c ∧ m'.Counts l ls

/-- The body leaves the loop as it was, if it is ever done. -/
def Keeps (body : Eval Ending) : Prop :=
  ∀ (l : Loop) (ls : List Loop) (n n' : Nat) (m m' : Machine), m.Counts l ls →
    body n m = .ok (.done, n') m' → m'.Counts l ls

variable {names? : Option Pad} {i : RecId} {it test : Node} {body : Eval Ending} {m m' : Machine} {l : Loop}
  {ls : List Loop}

theorem andThen_done {x y : Eval Ending} {n n' : Nat} (h : x n m = .ok (.done, n') m') : andThen x y n m = y n' m' := by
  rw [andThen, bind_apply, bind_of_ok h]

theorem andThen_congr {x y z : Eval Ending} {n n' : Nat} (h : x n m = y n' m') :
    andThen x z n m = andThen y z n' m' := by
  rw [andThen, andThen, bind_apply, bind_apply]
  cases hy : y n' m' with
  | ok p m'' => rw [bind_of_ok hy, bind_of_ok (h.trans hy)]
  | error e m'' => rw [bind_of_error hy, bind_of_error (h.trans hy)]

theorem rounds_range (names? : Option Pad) (i : RecId) {c : Nat} (hit : it.code = .iter) (htest : test.code = .and)
    (hc : Completes c body) (h : m.Counts l ls) (hhi : l.hi ≠ .maxValue) {k n : Nat} (hk : l.count < k)
    (hn : (c + 2) * l.count + 2 ≤ n) :
    ∃ n' m' m'', n ≤ n' + ((c + 2) * l.count + 2) ∧ Rounds body ls l.values (n, m) (n' + 2, m') ∧
      rounds (eval names? (.mk i it [])) (takes names? test) body k n m = .ok (.done, n') m'' ∧
      m''.offStack = m'.offStack ∧ m''.Has ⟨m'.stack ++ [.scalar (some (ofBool false))], m'.marks⟩ := by
  -- by induction on the bound of rounds: before every round the machine is in the loop, and what is left of `n` is
  -- enough for the integers that are left
  induction k generalizing l m n with
  | zero => omega
  | succ k ih =>
    by_cases hover : l.hi < l.cur
    · obtain ⟨n, rfl⟩ : ∃ n₀, n = n₀ + 2 := ⟨n - 2, by omega⟩
      obtain ⟨m₁, m₂, htested, hno, hoff, hhas⟩ := test_over names? i hit htest h hover n
      refine ⟨n, m, m₂, by omega, ?_, ?_, hoff, hhas⟩
      · rw [Loop.values_of_lt hover]
        exact .past h hover
      · rw [rounds, andThen_done htested, bind_apply, bind_of_ok hno]
        rfl
    · have hmore : l.cur ≤ l.hi := Int64.not_lt.mp hover
      have hcount := Loop.count_of_le hmore hhi
      rw [hcount, Nat.mul_add, Nat.mul_one] at hn
      obtain ⟨n, rfl⟩ : ∃ n₀, n = n₀ + 2 := ⟨n - 2, by omega⟩
      obtain ⟨m₁, m₂, htested, hyes, hagrees⟩ := test_more names? i hit htest h hmore n
      obtain ⟨n₁, m₃, hbody, hcost, hcounts⟩ := hc _ _ n _ (by omega) (h.bound.agrees hagrees)
      obtain ⟨n', m', m'', hleft, hrounds, hrest, hoff, hhas⟩ := ih (n := n₁) hcounts hhi (by omega) (by omega)
      refine ⟨n', m', m'', ?_, ?_, ?_, hoff, hhas⟩
      · rw [hcount, Nat.mul_add, Nat.mul_one]
        omega
      · rw [Loop.values_of_le hmore hhi]
        exact .more h hmore hagrees hbody hcounts hrounds
      · rw [rounds, andThen_done htested, bind_apply, bind_of_ok hyes]
        change andThen body _ n m₂ = _
        rw [andThen_done hbody, hrest]

/-- A loop up to the largest integer is not left: its counter is never beyond the range. -/
theorem rounds_endless (hit : it.code = .iter) (htest : test.code = .and) (hb : Keeps body) (h : m.Counts l ls)
    (hhi : l.hi = .maxValue) (k n n' : Nat) :
    rounds (eval names? (.mk i it [])) (takes names? test) body k n m ≠ .ok (.done, n') m' := by
  induction k generalizing l m n with
  | zero =>
    intro hok
    cases hok
  | succ k ih =>
    -- no integer is above the largest one, so the test always begins another round
    have hmore : l.cur ≤ l.hi := by
      have hmax : Int64.maxValue.toInt = 9223372036854775807 := by decide
      have hlt := l.cur.toInt_lt
      rw [hhi, Int64.le_iff_toInt_le, hmax]
      omega
    rcases n with - | - | n
    · intro hok
      rw [rounds, eval_leaf (by simp [hit, Opcode.branches])] at hok
      cases hok
    · obtain ⟨m₁, hiter, -⟩ := Exec.iterate_more (m := { m with steps := m.steps + 1 })
        ⟨h.loops, h.slot, h.truths, h.floor, h.room⟩ hmore
      rw [rounds, andThen_done (iter_ok hit 0 hiter)]
      intro hok
      cases hok
    · obtain ⟨m₁, m₂, htested, hyes, hagrees⟩ := test_more names? i hit htest h hmore n
      rw [rounds, andThen_done htested, bind_apply, bind_of_ok hyes]
      change andThen body _ n m₂ ≠ _
      intro hok
      obtain ⟨⟨e, n₁⟩, m₃, hbody, hrest⟩ := bind_eq_ok.mp hok
      cases e with
      | left => cases hrest
      | done => exact ih (hb _ _ _ _ _ _ (h.bound.agrees hagrees) hbody) hhi n₁ hrest

theorem completes_leaf {u : RecId} {uo : Node} (hu : uo.code.branches = false) (hr : uo.code ≠ .ret)
    (hstep : ∀ l ls m, Machine.Counts m l ls →
      ∃ m', Exec.step names? uo m = .ok uo.next m' ∧ m'.Counts l ls) : Completes 1 (eval names? (.mk u uo [])) := by
  intro l ls n m hn h
  obtain ⟨n, rfl⟩ : ∃ k, n = k + 1 := ⟨n - 1, by omega⟩
  obtain ⟨m', hok, h'⟩ := hstep l ls { m with steps := m.steps + 1 } ⟨h.loops, h.slot, h.truths, h.floor, h.room⟩
  rw [eval_leaf hu]
  exact ⟨n, m', single_ok n hr hok, Nat.le_refl _, h'⟩

/-- The start of a statement and the end of a body cut the stack to the floor of the loop. -/
theorem completes_reset {u : RecId} {uo : Node} (hu : uo.code = .nextstate ∨ uo.code = .unstack) :
    Completes 1 (eval names? (.mk u uo [])) := by
  refine completes_leaf (by rcases hu with hu | hu <;> rw [hu] <;> rfl)
    (by rcases hu with hu | hu <;> simp [hu]) fun l ls m h => ?_
  rcases hu with hu | hu
  · obtain ⟨m', hreset, h'⟩ := Exec.resetStack_base (m := { m with place? := some (uo.file, uo.line) })
      ⟨h.loops, h.slot, h.truths, h.floor, h.room⟩
    refine ⟨m', ?_, h'⟩
    simp only [Exec.step, hu]
    exact bind_of_ok hreset
  · obtain ⟨m', hreset, h'⟩ := Exec.resetStack_base h
    refine ⟨m', ?_, h'⟩
    simp only [Exec.step, hu]
    exact bind_of_ok hreset

theorem completes_nil : Completes 0 (evalAll names? []) := by
  intro l ls n m _ h
  refine ⟨n, m, ?_, Nat.le_refl _, h⟩
  rw [evalAll]
  rfl

theorem Completes.cons {c d : Nat} {k : Tree} {ks : List Tree} (hk : Completes c (eval names? k))
    (hks : Completes d (evalAll names? ks)) : Completes (c + d) (evalAll names? (k :: ks)) := by
  intro l ls n m hn h
  obtain ⟨n₁, m₁, hok, hcost, h₁⟩ := hk l ls n m (by omega) h
  obtain ⟨n₂, m₂, hok', hcost', h₂⟩ := hks l ls n₁ m₁ (by omega) h₁
  refine ⟨n₂, m₂, ?_, by omega, h₂⟩
  rw [evalAll, andThen_done hok, hok']

theorem Rounds.counts {vs : List Int64} {p q : Nat × Machine} (h : Rounds body ls vs p q) (hl : p.2.Counts l ls) :
    ∃ cur, q.2.Counts { l with cur := cur } ls := by
  induction h generalizing l with
  | past => exact ⟨l.cur, hl⟩
  | more h _ _ _ hnext _ ih =>
    obtain ⟨rfl, -⟩ := List.cons.inj (h.loops.symm.trans hl.loops)
    obtain ⟨cur, hcur⟩ := ih hnext
    exact ⟨cur, hcur⟩

end Eval

namespace Tree

open Eval Machine

variable {names? : Option Pad} {m m₁ : Machine} {l : Loop} {ls : List Loop} {ent : Tree} {o wo test it bo : Node}
  {r w t i b : RecId} {ks : List Tree} {n n₁ : Nat}

theorem eval_loop (ho : o.code = .leaveloop) (hent : ent.op.code = .enteriter)
    (hok : eval names? ent n m = .ok (.done, n₁) m₁) :
    eval names? (.mk r o [ent, .mk w wo [.mk t test [.mk i it [], .mk b bo ks]]]) n m =
      andThen (andThen (rounds (eval names? (.mk i it [])) (takes names? test) (evalAll names? ks) n₁)
        (single names? wo)) (single names? o) n₁ m₁ := by
  have hloop : isLoop o [ent, .mk w wo [.mk t test [.mk i it [], .mk b bo ks]]] = true := by simp [isLoop, ho, hent]
  rw [eval, ho, if_neg (by decide), if_pos hloop, evalLoop, evalRounds]
  exact andThen_congr (andThen_done hok)

/-- What a loop over the integers from `lo` to `hi` is entered with. -/
def countBounds (lo hi : Int64) : Tree :=
  .mk 1 { code := .enteriter }
    [.mk 2 { code := .const, val := .scalar (.int lo) } [], .mk 3 { code := .const, val := .scalar (.int hi) } []]

def bodyEnd : Tree := .mk 8 { code := .unstack } []

/-- A loop over the integers from `lo` to `hi` without statements. -/
def countUp (lo hi : Int64) : Tree :=
  .mk 0 { code := .leaveloop } [countBounds lo hi, .mk 4 { code := .null } [.mk 5 { code := .and }
    [.mk 6 { code := .iter } [], .mk 7 { code := .lineseq } [bodyEnd]]]]

def idle : Machine := { bare with pad := #[.scalar yes] }

def entered (lo hi : Int64) : Machine :=
  { idle with
    heap := { cells := initialHeap.cells ++ #[⟨.int lo, true⟩, ⟨.int hi, true⟩] }
    slots := #[.scalar (some 2), .scalar (some 3)], loops := [⟨0, 0, .scalar yes, lo, hi⟩], steps := 3 }

theorem eval_countBounds (lo hi : Int64) (n : Nat) :
    eval none (countBounds lo hi) (n + 3) idle = .ok (.done, n) (entered lo hi) := by
  simp only [countBounds, eval, evalAll, Opcode.branches, isLoop]
  rfl

theorem entered_counts (lo hi : Int64) : (entered lo hi).Counts ⟨0, 0, .scalar yes, lo, hi⟩ [] where
  loops := rfl
  slot := ⟨Int.le_refl 0, Int.zero_lt_one⟩
  truths := ⟨by simp [entered], rfl, rfl⟩
  floor := Nat.le_refl 0
  room := Nat.zero_le _

theorem completes_bodyEnd : Completes 1 (evalAll none [bodyEnd]) :=
  (completes_reset (Or.inr rfl)).cons completes_nil

theorem keeps_bodyEnd : Keeps (evalAll none [bodyEnd]) := by
  intro l ls n n' m m' h hok
  cases n with
  | zero =>
    rw [bodyEnd, evalAll, eval_leaf rfl] at hok
    cases hok
  | succ n =>
    obtain ⟨n₁, m₁, hdone, -, hcounts⟩ := completes_bodyEnd l ls (n + 1) m (Nat.le_add_left 1 n) h
    cases hdone.symm.trans hok
    exact hcounts

theorem loop_endless (ho : o.code = .leaveloop) (hent : ent.op.code = .enteriter) (hit : it.code = .iter)
    (htest : test.code = .and) (hok : eval names? ent n m = .ok (.done, n₁) m₁) (h : m₁.Counts l ls)
    (hhi : l.hi = .maxValue) (hb : Keeps (evalAll names? ks)) (n' : Nat) (m' : Machine) :
    eval names? (.mk r o [ent, .mk w wo [.mk t test [.mk i it [], .mk b bo ks]]]) n m ≠ .ok (.done, n') m' := by
  rw [eval_loop ho hent hok]
  intro hdone
  obtain ⟨⟨e, n₂⟩, m₂, hinner, hrest⟩ := bind_eq_ok.mp hdone
  obtain ⟨⟨e', n₃⟩, m₃, hrounds, hwrap⟩ := bind_eq_ok.mp hinner
  cases e' with
  | left =>
    cases hwrap
    cases hrest
  | done => exact rounds_endless hit htest hb h hhi n₁ n₁ n₃ hrounds

end Tree

end OpTree
