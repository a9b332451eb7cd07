import OpTree.Proofs.Abreast

/-!
# Machines abreast

Two machines are abreast if nothing but their stacks tells them apart, and the same items lie on top of
whatever either stack has below. An op that only looks at these items does the same on both.
-/

namespace OpTree

set_option autoImplicit false

namespace Exec

open Machine

variable {α β : Type} {F : Floor} {xs : List Item} {c d : Option CellId}

section Ground

variable {m m' : Machine} {o : Node}

theorem base_apply (h : m.Level) : base m = .ok 0 m := by
  unfold base
  rw [bind_of_ok (get_apply m)]
  cases hl : m.loops with
  | nil => rfl
  | cons l ls =>
    have hheight := h l (by rw [hl]; exact List.mem_cons_self ..)
    change EStateM.Result.ok l.height m = _
    rw [hheight]

theorem resetStack_zero (m : Machine) :
    resetStack 0 m = .ok () { m with height := 0, marks := m.marks.dropWhile (0 < ·) } := by
  unfold resetStack
  rw [bind_of_ok (get_apply m), if_pos (Nat.zero_le _)]
  rfl

theorem has_emptied (m : Machine) (ks : List Nat) : Machine.Has { m with height := 0, marks := ks } ⟨[], ks⟩ :=
  ⟨Nat.zero_le _, by simp [stack_eq], rfl⟩

theorem tandem_cut : Tandem (fun m m' => Abreast F xs m m' ∧ m.Level ∧ F.marks = [] ∧ F.marks' = [])
    (do resetStack (← base)) fun _ => Abreast .ground [] := by
  rintro m m' ⟨hm, hl, hmarks, hmarks'⟩
  have hl' : m'.Level := by
    rw [restack_of_offStack hm.off]
    exact hl
  have hk := hm.left.marks
  have hk' := hm.right.marks
  rw [bind_of_ok (base_apply hl), bind_of_ok (base_apply hl'), resetStack_zero, resetStack_zero]
  rw [hk, hk', hmarks, hmarks']
  refine ⟨rfl, has_emptied _ _, has_emptied _ _, ?_⟩
  rw [restack_of_offStack hm.off]
  rfl

theorem tandem_statement : Tandem (fun m m' => Abreast F xs m m' ∧ m.Level ∧ F.marks = [] ∧ F.marks' = [])
    (statement o) fun _ => Abreast .ground [] := by
  rintro m m' ⟨hm, hl, hmarks⟩
  have haloof : Aloof (modify fun m => { m with place? := some (o.file, o.line) } : Exec Unit) :=
    aloof_modify fun _ _ _ _ _ => rfl
  have hplace := tandem_aloof haloof m m' hm
  exact tandem_cut _ _ ⟨hplace.2, hl, hmarks⟩

theorem tandem_enterLoop : Tandem (Abreast .ground (([] ++ [.scalar c]) ++ [.scalar d])) (enterLoop o) fun _ =>
    Abreast .ground [] := by
  refine tandem_popScalar_bind (tandem_popScalar_bind (tandem_aloof_bind (aloof_toInt _ _) fun cur => ?_))
  refine tandem_aloof_bind (aloof_toInt _ _) fun hi => tandem_aloof_bind (aloof_padSlot _) fun saved => ?_
  intro m m' hm
  have hheight : m.height = 0 := hm.left.length.symm
  have hheight' : m'.height = 0 := hm.right.length.symm
  refine ⟨rfl, ⟨hm.left.room, hm.left.stack, hm.left.marks⟩, ⟨hm.right.room, hm.right.stack, hm.right.marks⟩, ?_⟩
  rw [restack_of_offStack hm.off] at hheight' ⊢
  change Machine.offStack { m with loops := ⟨m'.height, o.targ, saved, cur, hi⟩ :: m.loops } =
    Machine.offStack { m with loops := ⟨m.height, o.targ, saved, cur, hi⟩ :: m.loops }
  rw [hheight, show m'.height = 0 from hheight']

theorem tandem_iterate : Tandem (Abreast F xs) iterate fun _ => Topped F xs := by
  intro m m' hm
  have hloops : m'.loops = m.loops := (congrArg Machine.loops hm.off :)
  rw [iterate, bind_of_ok (get_apply m), bind_of_ok (get_apply m'), hloops]
  cases m.loops with
  | nil => exact tandem_throw (fun _ _ h => h.off) m m' hm
  | cons l rest =>
    dsimp only
    split
    · exact tandem_pushBool false m m' hm
    · refine tandem_aloof_bind (aloof_temp _) (fun c => ?_) m m' hm
      refine tandem_aloof_bind (aloof_setPadSlot _ _) fun _ => ?_
      refine tandem_aloof_bind (aloof_modify fun _ _ _ _ _ => rfl) fun _ => ?_
      exact tandem_pushBool true

end Ground

section Leaving

variable {m m' n : Machine} {o : Node} {l : Loop} {ls : List Loop} {v : Unit}

theorem leaveLoop_level (hl : m.Level) : leaveLoop m = match m.loops with
    | [] => .error (.fatal none) m
    | l :: ls => if l.targ < 0 ∨ (m.pad.size : Int) ≤ l.targ then .error (.fatal none) { m with loops := ls }
      else .ok () { m with
        loops := ls, pad := m.pad.setIfInBounds l.targ.toNat l.saved, height := 0,
        marks := m.marks.dropWhile (0 < ·) } := by
  rw [leaveLoop, bind_of_ok (get_apply m)]
  cases hloops : m.loops with
  | nil => rfl
  | cons l ls =>
    have hheight : l.height = 0 := hl l (by rw [hloops]; exact List.mem_cons_self ..)
    have hclose : (modify fun m => { m with loops := ls } : Exec Unit) m = .ok () { m with loops := ls } := rfl
    dsimp only
    rw [bind_of_ok hclose, hheight]
    by_cases ht : l.targ < 0 ∨ (m.pad.size : Int) ≤ l.targ
    · rw [if_pos ht]
      have hin : (decide (l.targ < 0) || decide ((m.pad.size : Int) ≤ l.targ)) = true := by
        simpa using ht
      refine bind_of_error ?_
      rw [setPadSlot, bind_of_ok (get_apply _), if_pos hin]
      rfl
    · rw [if_neg ht]
      have hin : 0 ≤ l.targ ∧ l.targ < m.pad.size := by omega
      rw [bind_of_ok (setPadSlot_of_lt (m := { m with loops := ls }) hin l.saved), resetStack_zero]

theorem tandem_leaveLoop : Tandem (fun m m' => m'.offStack = m.offStack ∧ m.Level) leaveLoop fun _ m m' =>
    m'.offStack = m.offStack ∧ m.Level := by
  rintro m m' ⟨hoff, hl⟩
  obtain ⟨s, k, ms, t, rfl⟩ : ∃ s k ms t, m' = m.restack s k ms t := ⟨_, _, _, _, restack_of_offStack hoff⟩
  rw [leaveLoop_level hl, leaveLoop_level (m := m.restack s k ms t) hl]
  cases hloops : m.loops with
  | nil =>
    rw [show (m.restack s k ms t).loops = [] from hloops]
    exact ⟨rfl, rfl⟩
  | cons l ls =>
    rw [show (m.restack s k ms t).loops = l :: ls from hloops]
    change Agree _ (if l.targ < 0 ∨ (m.pad.size : Int) ≤ l.targ then _ else _)
      (if l.targ < 0 ∨ (m.pad.size : Int) ≤ l.targ then _ else _)
    by_cases ht : l.targ < 0 ∨ (m.pad.size : Int) ≤ l.targ
    · rw [if_pos ht, if_pos ht]
      exact ⟨rfl, rfl⟩
    · rw [if_neg ht, if_neg ht]
      exact ⟨rfl, rfl, fun k hk => hl k (by rw [hloops]; exact List.mem_cons_of_mem _ hk)⟩

theorem tandem_leaveLoops (k : Nat) : Tandem (fun m m' => m'.offStack = m.offStack ∧ m.Level) (leaveLoops k)
    fun _ m m' => m'.offStack = m.offStack ∧ m.Level := by
  induction k with
  | zero => exact tandem_pure fun _ _ h => h
  | succ k ih => exact tandem_leaveLoop.bind fun _ => ih

def Even (xs : List Item) (m m' : Machine) : Prop := ∃ ks ks', Abreast ⟨[], [], ks, ks'⟩ xs m m'

theorem tandem_resetStack_zero : Tandem (fun m m' => m'.offStack = m.offStack ∧ m.Level) (resetStack 0)
    fun _ m m' => Even [] m m' ∧ m.Level := by
  rintro m m' ⟨hoff, hl⟩
  rw [resetStack_zero, resetStack_zero]
  refine ⟨rfl, ⟨_, _, has_emptied _ _, has_emptied _ _, ?_⟩, hl⟩
  rw [restack_of_offStack hoff]
  rfl

theorem tandem_forM_push {ks ks' : List Nat} (xs ys : List Item) :
    Tandem (Abreast ⟨[], [], ks, ks'⟩ xs) (ys.forM push) fun _ => Abreast ⟨[], [], ks, ks'⟩ (xs ++ ys) := by
  induction ys generalizing xs with
  | nil => exact tandem_pure fun _ _ h => by rwa [List.append_nil]
  | cons y ys ih =>
    refine (tandem_push y).bind fun _ => ?_
    have hrest := ih (xs ++ [y])
    rwa [List.append_assoc] at hrest

variable {F : Floor} {ws xs : List Item} {root : RecId}

theorem spares_loops : Spares fun m n => n.loops = m.loops ∧ n.leave = m.leave where
  refl _ := ⟨rfl, rfl⟩
  trans h h' := ⟨h'.1.trans h.1, h'.2.trans h.2⟩
  stack _ _ _ _ _ := ⟨rfl, rfl⟩
  notes _ _ _ _ _ _ := ⟨rfl, rfl⟩
  heap _ _ _ := ⟨rfl, rfl⟩

theorem tandem_returns (k : Nat) : Tandem (fun m m' => (m'.offStack = m.offStack ∧ m.Level) ∧ m.leave = some root)
    (do
      leaveLoops k
      resetStack 0
      xs.forM push
      match (← get).leave with
      | some r => return some r
      | none =>
        leaveSub
        return none) fun r m m' => r = some root ∧ Even xs m m' ∧ m.Level := by
  have hleave : ∀ m n : Machine, n.leave = m.leave → m.leave = some root → n.leave = some root :=
    fun _ _ h h' => h.trans h'
  refine ((tandem_leaveLoops k).within ?_ hleave).bind fun _ => ?_
  · exact within_leaveLoops (admits_leave none).toSpares (admits_leave none).toNests k
  refine (tandem_resetStack_zero.within (within_resetStack (admits_leave none).toSpares 0) hleave).bind fun _ => ?_
  rintro m m' ⟨⟨⟨ks, ks', hm⟩, hl⟩, hlv⟩
  have hpushed : Tandem (Abreast ⟨[], [], ks, ks'⟩ []) (xs.forM push) fun _ => Abreast ⟨[], [], ks, ks'⟩ ([] ++ xs) :=
    tandem_forM_push [] xs
  have hpush := hpushed.within
    (within_forM spares_loops fun x => within_push spares_loops x) (S := fun n => n.Level ∧ n.leave = some root)
    fun m n h hs => ⟨fun l hl => hs.1 l (h.1 ▸ hl), h.2.trans hs.2⟩
  refine hpush.bind (fun _ => ?_) m m' ⟨hm, hl, hlv⟩
  rintro n n' ⟨hn, hln, hleaven⟩
  have hleaven' : n'.leave = some root := (congrArg Machine.leave hn.off :).trans hleaven
  rw [bind_of_ok (get_apply n), bind_of_ok (get_apply n'), hleaven, hleaven']
  exact ⟨rfl, rfl, ⟨ks, ks', hn⟩, hln⟩

/-- The items above the innermost mark are all that is left on the stack of a sub that returns. -/
theorem tandem_returnSub : Tandem
    (fun m m' => (Abreast (F.marked ws.length) (ws ++ xs) m m' ∧ m.Level) ∧ m.leave = some root) returnSub
    fun r m m' => r = some root ∧ Even xs m m' ∧ m.Level := by
  rintro m m' ⟨⟨hm, hl⟩, hleave⟩
  have htake : ∀ {ys : List Item} {ks : List Nat} {m : Machine},
      m.Has ⟨ys ++ (ws ++ xs), (ys.length + ws.length) :: ks⟩ → ∃ n, n.offStack = m.offStack ∧
        ∀ {β : Type} (f : List Item → Exec β), (popMark >>= fun mark => itemsFrom mark >>= f) m = f xs n := by
    intro ys ks m hhas
    rw [← List.append_assoc, ← List.length_append] at hhas
    obtain ⟨n, hmark, hoff, -, hn⟩ := popMark_has hhas
    have hle : (ys ++ ws).length ≤ (ys ++ ws ++ xs).length := (List.prefix_append (ys ++ ws) xs).length_le
    rw [Nat.min_eq_left hle] at hmark
    have hitems := itemsFrom_has hn hle
    rw [List.drop_left] at hitems
    refine ⟨n, hoff, fun f => ?_⟩
    rw [bind_of_ok hmark, bind_of_ok hitems]
  obtain ⟨n, hoff, htaken⟩ := htake hm.left
  obtain ⟨n', hoff', htaken'⟩ := htake hm.right
  have hloops : n.loops = m.loops := (congrArg Machine.loops hoff :)
  have hsame : n'.offStack = n.offStack := hoff'.trans (hm.off.trans hoff.symm)
  rw [returnSub, htaken, htaken', bind_of_ok (get_apply n), bind_of_ok (get_apply n'),
    show n'.loops = n.loops from (congrArg Machine.loops hsame :)]
  refine tandem_returns n.loops.length n n' ⟨⟨hsame, ?_⟩, ?_⟩
  · intro l hlm
    exact hl l (hloops ▸ hlm)
  · exact (congrArg Machine.leave hoff :).trans hleave

theorem aloof_resultOf (x : Item) : Aloof (resultOf x) := by
  unfold resultOf
  split
  · exact aloof_valueOf _
  · exact aloof_pure _

theorem tandem_leaveSub : Tandem (fun m m' => Even xs m m' ∧ m.Level) leaveSub fun _ m m' => m'.offStack = m.offStack := by
  rintro m m' ⟨⟨ks, ks', hm⟩, hl⟩
  have hl' : m'.Level := by
    rw [restack_of_offStack hm.off]
    exact hl
  have hitems := itemsFrom_has hm.left (Nat.zero_le _)
  have hitems' := itemsFrom_has hm.right (Nat.zero_le _)
  have hend : ∀ vs : List Value, Tandem (Abreast ⟨[], [], ks, ks'⟩ xs) (do
      modify fun m => { m with result := vs }
      resetStack 0) fun _ m m' => m'.offStack = m.offStack := by
    intro vs
    refine tandem_aloof_bind (aloof_modify fun _ _ _ _ _ => rfl) fun _ => ?_
    intro n n' hn
    rw [resetStack_zero, resetStack_zero]
    exact ⟨rfl, hn.off⟩
  rw [leaveSub, bind_of_ok (base_apply hl), bind_of_ok (base_apply hl'), bind_of_ok hitems, bind_of_ok hitems',
    bind_of_ok (get_apply m), bind_of_ok (get_apply m'), show m'.gimme = m.gimme from (congrArg Machine.gimme hm.off :)]
  dsimp only
  generalize m.gimme = w
  cases w with
  | void => exact hend _ m m' hm
  | scalar => exact tandem_aloof_bind (aloof_resultOf _) (fun v => hend [v]) m m' hm
  | list => exact tandem_aloof_bind (aloof_mapM aloof_resultOf _) (fun vs => hend vs) m m' hm
  | unknown => exact tandem_aloof_bind (aloof_mapM aloof_resultOf _) (fun vs => hend vs) m m' hm

theorem tandem_leaveLoop_ground : Tandem (fun m m' => Abreast .ground xs m m' ∧ m.Level) leaveLoop fun _ =>
    Abreast .ground [] := by
  rintro m m' ⟨hm, hl⟩
  have hend := tandem_leaveLoop m m' ⟨hm.off, hl⟩
  have hl' : m'.Level := by
    rw [restack_of_offStack hm.off]
    exact hl
  have hempty : ∀ {m n : Machine} {v : Unit}, m.Level → m.marks = [] → leaveLoop m = .ok v n → n.Has ⟨[], []⟩ := by
    intro m n v hl hmarks hok
    rw [leaveLoop_level hl] at hok
    cases hloops : m.loops with
    | nil =>
      rw [hloops] at hok
      cases hok
    | cons l ls =>
      rw [hloops] at hok
      dsimp only at hok
      split at hok
      · cases hok
      · cases hok
        rw [hmarks]
        exact ⟨Nat.zero_le _, by simp [stack_eq], rfl⟩
  revert hend
  cases hok : leaveLoop m with
  | error e n => cases leaveLoop m' <;> exact id
  | ok v n =>
    cases hok' : leaveLoop m' with
    | error e n' => exact id
    | ok v' n' => exact fun hend => ⟨hend.1, hempty hl hm.left.marks hok, hempty hl' hm.right.marks hok', hend.2.1⟩

end Leaving

section Steady

variable {names? : Option Pad} {m n : Machine} {o : Node} {root : RecId} {d : Nat}

theorem Steady.withHeap {h : Heap} (hs : m.Steady root d) (ha : m.heap.Advances h) :
    Machine.Steady root d { m with heap := h } := by
  refine ⟨hs.level, hs.depth, hs.leave, ?_, ?_⟩
  · rw [ha.readOnly _ (by rw [hs.yes])]
    exact hs.yes
  · rw [ha.readOnly _ (by rw [hs.no])]
    exact hs.no

theorem spares_steady (root : RecId) : Spares fun m n => ∀ d, m.Steady root d → n.Steady root d where
  refl _ _ hs := hs
  trans h h' d hs := h' d (h d hs)
  stack _ _ _ _ _ _ hs := ⟨hs.level, hs.depth, hs.leave, hs.yes, hs.no⟩
  notes _ _ _ _ _ _ _ hs := ⟨hs.level, hs.depth, hs.leave, hs.yes, hs.no⟩
  heap _ _ ha _ hs := Steady.withHeap hs ha

theorem assigns_steady (names? : Option Pad) (root : RecId) :
    Assigns names? fun m n => ∀ d, m.Steady root d → n.Steady root d where
  scalar _ _ _ _ _ hs := ⟨hs.level, hs.depth, hs.leave, hs.yes, hs.no⟩
  fresh m targ _ d hs := by
    have hgrown := Steady.withHeap hs (fresh_advances names? m.heap targ)
    exact ⟨hgrown.level, hgrown.depth, hgrown.leave, hgrown.yes, hgrown.no⟩
  advance m l rest cur hl d hs := by
    refine ⟨fun k hk => ?_, ?_, hs.leave, hs.yes, hs.no⟩
    · rcases List.mem_cons.mp hk with rfl | hk
      · exact hs.level l (by rw [hl]; exact List.mem_cons_self ..)
      · exact hs.level k (by rw [hl]; exact List.mem_cons_of_mem _ hk)
    · have hdepth := hs.depth
      rw [hl] at hdepth
      exact hdepth

theorem step_steady (ho : o.code ≠ .enteriter ∧ o.code ≠ .leaveloop ∧ o.code ≠ .ret) :
    Within (fun m n => ∀ d, m.Steady root d → n.Steady root d) (step names? o) :=
  within_step_of_flat (spares_steady root) (assigns_steady names? root) o ho

theorem enterLoop_steady {lo hi : Option CellId} {ks : List Nat} {v : Unit}
    (hs : m.Steady root d) (h : m.Has ⟨([] ++ [.scalar lo]) ++ [.scalar hi], ks⟩) (hok : enterLoop o m = .ok v n) :
    n.Steady root (d + 1) := by
  have hR := spares_steady root
  obtain ⟨m₁, hpop, -, hhas⟩ := popScalar_has h
  obtain ⟨m₂, hpop', -, hhas'⟩ := popScalar_has hhas
  have hs₂ := (within_popScalar hR).of_ok hpop' d ((within_popScalar hR).of_ok hpop d hs)
  rw [enterLoop, bind_of_ok hpop, bind_of_ok hpop'] at hok
  obtain ⟨cur, m₃, hcur, hok⟩ := bind_eq_ok.mp hok
  obtain ⟨last, m₄, hlast, hok⟩ := bind_eq_ok.mp hok
  obtain ⟨saved, m₅, hslot, hok⟩ := bind_eq_ok.mp hok
  have hs₅ := (within_padSlot hR _).of_ok hslot d ((within_toInt hR _ _).of_ok hlast d
    ((within_toInt hR _ _).of_ok hcur d hs₂))
  have hhas₅ := has_of_aloof (aloof_padSlot _) (has_of_aloof (aloof_toInt _ _)
    (has_of_aloof (aloof_toInt _ _) hhas' hcur) hlast) hslot
  cases hok
  refine ⟨fun l hl => ?_, congrArg (· + 1) hs₅.depth, hs₅.leave, hs₅.yes, hs₅.no⟩
  rcases List.mem_cons.mp hl with rfl | hl
  · exact hhas₅.length.symm
  · exact hs₅.level l hl

theorem leaveLoop_steady {v : Unit} (hs : m.Steady root (d + 1)) (hok : leaveLoop m = .ok v n) : n.Steady root d := by
  rw [leaveLoop_level hs.level] at hok
  cases hloops : m.loops with
  | nil =>
    rw [hloops] at hok
    cases hok
  | cons l ls =>
    have hdepth := hs.depth
    rw [hloops, List.length_cons] at hdepth
    rw [hloops] at hok
    dsimp only at hok
    split at hok
    · cases hok
    · cases hok
      refine ⟨fun k hk => hs.level k ?_, Nat.succ.inj hdepth, hs.leave, hs.yes, hs.no⟩
      rw [hloops]
      exact List.mem_cons_of_mem _ hk

end Steady

section Choices

variable {m : Machine} {o : Node} {xs : List Item} {ks : List Nat} {c : Option CellId}

/-- A short-circuit op leaves the scalar on top if it goes on, and drops it if it takes its branch. -/
theorem shortCircuit_has (keeps : Value → Bool) (h : m.Has ⟨xs ++ [.scalar c], ks⟩) : ∃ n,
    shortCircuit o keeps m = .ok (if keeps (m.value c) then o.next else o.other) n ∧ n.offStack = m.offStack ∧
      n.Has ⟨if keeps (m.value c) then xs ++ [.scalar c] else xs, ks⟩ := by
  obtain ⟨m₁, htop, hoff, hhas⟩ := top_has h
  have hval : m₁.value c = m.value c := value_of_offStack hoff c
  rw [shortCircuit, bind_of_ok htop, bind_of_ok (valueOf_apply ..), hval]
  by_cases hk : keeps (m.value c) = true
  · rw [if_pos hk, if_pos hk, if_pos hk]
    exact ⟨m₁, rfl, hoff, hhas⟩
  · rw [if_neg hk, if_neg hk, if_neg hk]
    obtain ⟨m₂, hpop, hoff', hhas'⟩ := pop_has hhas
    refine ⟨m₂, ?_, hoff'.trans hoff, hhas'⟩
    change (do let _ ← pop; return o.other : Exec (Option RecId)) m₁ = _
    rw [bind_of_ok hpop]
    rfl

theorem condition_has (h : m.Has ⟨xs ++ [.scalar c], ks⟩) : ∃ n,
    condition o m = .ok (if (m.value c).truth then o.other else o.next) n ∧ n.offStack = m.offStack ∧
      n.Has ⟨xs, ks⟩ := by
  obtain ⟨n, hpop, hoff, hhas⟩ := popScalar_has h
  have hval : n.value c = m.value c := value_of_offStack hoff c
  refine ⟨n, ?_, hoff, hhas⟩
  rw [condition, bind_of_ok hpop, bind_of_ok (valueOf_apply ..), hval]
  split <;> rfl

theorem logicalNot_has (h : m.Has ⟨xs ++ [.scalar c], ks⟩) : ∃ n,
    logicalNot m = .ok () n ∧ n.offStack = m.offStack ∧
      n.Has ⟨xs ++ [.scalar (some (ofBool !(m.value c).truth))], ks⟩ := by
  obtain ⟨m₁, hpop, hoff, hhas⟩ := popScalar_has h
  have hval : m₁.value c = m.value c := value_of_offStack hoff c
  obtain ⟨m₂, hpush, hoff', hhas'⟩ := push_has (.scalar (some (ofBool !(m.value c).truth))) hhas
  refine ⟨m₂, ?_, hoff'.trans hoff, hhas'⟩
  rw [logicalNot, bind_of_ok hpop, bind_of_ok (valueOf_apply ..), hval]
  exact hpush

theorem forM_push_has (ys : List Item) (h : m.Has ⟨xs, ks⟩) :
    ∃ n, ys.forM push m = .ok () n ∧ n.offStack = m.offStack ∧ n.Has ⟨xs ++ ys, ks⟩ := by
  induction ys generalizing m xs with
  | nil => exact ⟨m, rfl, rfl, by rwa [List.append_nil]⟩
  | cons y ys ih =>
    obtain ⟨m₁, hpush, hoff, hhas⟩ := push_has y h
    obtain ⟨n, hrest, hoff', hhas'⟩ := ih hhas
    rw [List.append_assoc] at hhas'
    exact ⟨n, (bind_of_ok hpush).trans hrest, hoff'.trans hoff, hhas'⟩

/-- A return with nothing open and nothing else on the stack only goes to the end of the sub. -/
theorem returnSub_flat {root : RecId} (h : m.Has ⟨xs, [0]⟩) (hl : m.loops = []) (hr : m.leave = some root) :
    ∃ n, returnSub m = .ok (some root) n ∧ n.offStack = m.offStack ∧ n.Has ⟨xs, []⟩ := by
  obtain ⟨m₁, hmark, hoff, -, hhas⟩ := popMark_has h
  rw [Nat.zero_min] at hmark
  have hitems := itemsFrom_has hhas (Nat.zero_le _)
  have hloops : m₁.loops = [] := (congrArg Machine.loops hoff :).trans hl
  have hempty : leaveLoops m₁.loops.length m₁ = .ok () m₁ := by
    rw [hloops]
    rfl
  obtain ⟨m₂, hpush, hoff', hhas'⟩ := forM_push_has xs (has_emptied m₁ [])
  have hmarks : m₁.marks.dropWhile (0 < ·) = [] := by
    rw [show m₁.marks = [] from hhas.marks]
    rfl
  have hleave : m₂.leave = some root := ((congrArg Machine.leave hoff' :).trans (congrArg Machine.leave hoff :)).trans hr
  refine ⟨m₂, ?_, hoff'.trans hoff, hhas'⟩
  rw [returnSub, bind_of_ok hmark, bind_of_ok hitems, bind_of_ok (get_apply m₁), bind_of_ok hempty,
    bind_of_ok (resetStack_zero m₁), hmarks, List.drop_zero, bind_of_ok hpush, bind_of_ok (get_apply m₂), hleave]
  rfl

end Choices

end Exec

end OpTree
