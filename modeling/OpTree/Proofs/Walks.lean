import OpTree.Proofs.Splicing
import OpTree.Peephole.Walk
import Mathlib.Data.List.Count

/-!
# The walk of the optimizer

What one visit keeps, the whole walk keeps, and a walk never runs out of fuel: every visit marks an
op that was not marked before, and every branch that waits belongs to one of these.
-/

namespace OpTree

set_option autoImplicit false

namespace Peep

variable {α β : Type} {E : Failure → Prop} {ps : PeepState} {a : Arena}

/-- The computation ends with `Q`, or in a failure that `E` allows. -/
def Gives (E : Failure → Prop) (x : Peep α) (ps : PeepState) (a : Arena)
    (Q : α → PeepState → Arena → Prop) : Prop :=
  match x ps a with
  | .ok (v, ps') b => Q v ps' b
  | .error e _ => E e

theorem gives_pure {v : α} {Q : α → PeepState → Arena → Prop} (h : Q v ps a) :
    Gives E (pure v) ps a Q := h

theorem peep_bind (x : Peep α) (f : α → Peep β) (ps : PeepState) (a : Arena) :
    (x >>= f) ps a = match x ps a with
      | .ok (v, ps') b => f v ps' b
      | .error e b => .error e b := by
  change EStateM.bind (x ps) (fun p => f p.1 p.2) a = _
  unfold EStateM.bind
  split <;> simp_all

theorem Gives.bind {x : Peep α} {f : α → Peep β} {P : α → PeepState → Arena → Prop}
    {Q : β → PeepState → Arena → Prop} (hx : Gives E x ps a P)
    (hf : ∀ v ps' b, P v ps' b → Gives E (f v) ps' b Q) : Gives E (x >>= f) ps a Q := by
  unfold Gives at hx ⊢
  rw [peep_bind]
  cases h : x ps a with
  | error e b =>
    rw [h] at hx
    exact hx
  | ok p b =>
    rw [h] at hx
    exact hf p.1 p.2 b hx

theorem Gives.mono {x : Peep α} {P Q : α → PeepState → Arena → Prop} (hx : Gives E x ps a P)
    (h : ∀ v ps' b, P v ps' b → Q v ps' b) : Gives E x ps a Q := by
  unfold Gives at hx ⊢
  cases hr : x ps a with
  | error e b =>
    rw [hr] at hx
    exact hx
  | ok p b =>
    rw [hr] at hx
    exact h _ _ _ hx

theorem Gives.and {x : Peep α} {P Q : α → PeepState → Arena → Prop} (h : Gives E x ps a P) (h' : Gives E x ps a Q) :
    Gives E x ps a fun v ps' b => P v ps' b ∧ Q v ps' b := by
  unfold Gives at h h' ⊢
  cases hr : x ps a with
  | error e b =>
    rw [hr] at h
    exact h
  | ok p b =>
    rw [hr] at h h'
    exact ⟨h, h'⟩

theorem Gives.of_ok {x : Peep α} {Q : α → PeepState → Arena → Prop} {v : α} {ps' : PeepState} {b : Arena}
    (hx : Gives E x ps a Q) (h : x ps a = .ok (v, ps') b) : Q v ps' b := by
  rw [Gives, h] at hx
  exact hx

theorem gives_get_bind {f : PeepState → Peep β} {Q : β → PeepState → Arena → Prop}
    (h : Gives E (f ps) ps a Q) : Gives E (get >>= f) ps a Q := h

theorem gives_modify {f : PeepState → PeepState} {Q : Unit → PeepState → Arena → Prop}
    (h : Q () (f ps) a) : Gives E (modify f : Peep Unit) ps a Q := h

theorem gives_modify_bind {g : PeepState → PeepState} {f : Unit → Peep β}
    {Q : β → PeepState → Arena → Prop} (h : Gives E (f ()) (g ps) a Q) :
    Gives E (modify g >>= f) ps a Q := h

theorem gives_lift {x : TreeM α} {v : α} {b : Arena} {Q : α → PeepState → Arena → Prop}
    (hx : x a = .ok v b) (h : Q v ps b) : Gives E (liftM x : Peep α) ps a Q := by
  have hlift : (liftM x : Peep α) ps a = .ok (v, ps) b := by
    change EStateM.bind x (fun u => pure (u, ps)) a = _
    unfold EStateM.bind
    rw [hx]
    rfl
  rw [Gives, hlift]
  exact h

theorem gives_lift_bind {x : TreeM α} {f : α → Peep β} {v : α} {b : Arena}
    {Q : β → PeepState → Arena → Prop} (hx : x a = .ok v b) (h : Gives E (f v) ps b Q) :
    Gives E (liftM x >>= f) ps a Q := by
  refine .bind (gives_lift (Q := fun v' ps' b' => v' = v ∧ ps' = ps ∧ b' = b) hx ⟨rfl, rfl, rfl⟩) ?_
  intro v' ps' b' h'
  rw [h'.1, h'.2.1, h'.2.2]
  exact h

theorem gives_fatal {Q : α → PeepState → Arena → Prop} (h : E (.fatal none)) :
    Gives E (liftM (TreeM.fatal : TreeM α) : Peep α) ps a Q := h

theorem gives_ite {p : Prop} [Decidable p] {x y : Peep α} {Q : α → PeepState → Arena → Prop}
    (hx : p → Gives E x ps a Q) (hy : ¬p → Gives E y ps a Q) : Gives E (if p then x else y) ps a Q := by
  split
  · exact hx ‹_›
  · exact hy ‹_›

def headOf (ps : PeepState) (a : Arena) : PeepSlot → Option RecId
  | .start => ps.start
  | .other r => (a.node r).other

theorem gives_readSlot_bind {s : PeepSlot} {f : Option RecId → Peep β}
    {Q : β → PeepState → Arena → Prop} (h : Gives E (f (headOf ps a s)) ps a Q) :
    Gives E (readSlot s >>= f) ps a Q := by
  cases s with
  | start => exact h
  | other r => exact h

end Peep

namespace Arena

def todo (a : Arena) : Nat := (List.range a.recs.size).countP fun r => !(a.node r).processed

theorem todo_le {a b : Arena} (hs : b.recs.size = a.recs.size)
    (h : ∀ r, (a.node r).processed = true → (b.node r).processed = true) : b.todo ≤ a.todo := by
  unfold todo
  rw [hs]
  refine List.countP_mono_left fun r _ hr => ?_
  simp only [Bool.not_eq_true'] at hr ⊢
  by_contra hb
  rw [h r (by simpa using hb)] at hr
  cases hr

def mark (a : Arena) (r : RecId) : Arena := a.update r fun n => { n with processed := true }

theorem processed_mark {a : Arena} {o r : RecId} (hr : (a.node r).processed = true) :
    ((a.mark o).node r).processed = true := by
  rcases node_update_cases (a := a) (r := o) (f := fun n => { n with processed := true }) r with he | ⟨-, he⟩
  · rw [mark, he]
    exact hr
  · rw [mark, he]

theorem todo_mark_lt {a : Arena} {r : RecId} (hr : r < a.recs.size) (hp : (a.node r).processed = false) :
    (a.mark r).todo < a.todo := by
  unfold todo mark
  rw [size_update]
  obtain ⟨l, l', hsplit⟩ := List.append_of_mem (List.mem_range.mpr hr)
  have hle : ∀ ks : List RecId,
      (ks.countP fun q => !((a.update r fun n => { n with processed := true }).node q).processed) ≤
        ks.countP fun q => !(a.node q).processed := by
    intro ks
    refine List.countP_mono_left fun q _ hq => ?_
    by_cases hqr : q = r
    · rw [hqr, node_update_self hr] at hq
      simp at hq
    · rwa [node_update_of_ne hqr] at hq
  have hl := hle l
  have hl' := hle l'
  rw [hsplit]
  simp only [List.countP_append, List.countP_cons, node_update_self hr, hp, Bool.not_true,
    Bool.not_false, Bool.false_eq_true, if_false, if_true]
  omega

end Arena

namespace Peep

variable {E : Failure → Prop} {Inv : PeepState → Arena → Prop} {Slot : Arena → PeepSlot → Prop}
  {Lead : Arena → Option RecId → PeepSlot → RecId → Prop}

/-- What was known of slots is still known, and no mark was lost. -/
structure Later (Slot : Arena → PeepSlot → Prop) (a b : Arena) : Prop where
  slot : ∀ s, Slot a s → Slot b s
  size : b.recs.size = a.recs.size
  marks : ∀ r, (a.node r).processed = true → (b.node r).processed = true

theorem Later.refl (a : Arena) : Later Slot a a := ⟨fun _ h => h, rfl, fun _ h => h⟩

theorem Later.trans {a b c : Arena} (h : Later Slot a b) (h' : Later Slot b c) : Later Slot a c :=
  ⟨fun s hs => h'.slot s (h.slot s hs), h'.size.trans h.size, fun r hr => h'.marks r (h.marks r hr)⟩

theorem Later.todo {a b : Arena} (h : Later Slot a b) : b.todo ≤ a.todo := Arena.todo_le h.size h.marks

theorem Later.of_mark {a b : Arena} {o : RecId} (h : Later Slot (a.mark o) b) (hs : ∀ s, Slot a s → Slot b s) :
    Later Slot a b :=
  ⟨hs, h.size.trans (Arena.size_update ..), fun r hr => h.marks r (Arena.processed_mark hr)⟩

/-- What has to be shown of one visit. `Slot` says that a branch may wait there, and `Lead` that the
op before, or the slot if there is none, leads to an op. -/
structure Rule (E : Failure → Prop) (Inv : PeepState → Arena → Prop) (Slot : Arena → PeepSlot → Prop)
    (Lead : Arena → Option RecId → PeepSlot → RecId → Prop) : Prop where
  memory : ∀ {ps a}, Inv ps a → E (.fatal none) ∨ Memory.holds 8 a.tune.deferQueue = true
  stats : ∀ {ps ps' a}, Inv ps a → ps'.start = ps.start → ps'.failure? = ps.failure? →
    ps'.statement? = ps.statement? → Inv ps' a
  head : ∀ {ps a s o}, Inv ps a → Slot a s → headOf ps a s = some o → (a.node o).processed = false →
    Lead a none s o
  next : ∀ {ps a o s z}, Inv ps a → Slot a (.other o) → (a.node o).next = some z → Lead a (some o) s z
  lt : ∀ {ps a prev s o}, Inv ps a → Lead a prev s o → o < a.recs.size
  skip : ∀ {ps a s}, Inv ps a → Slot a s →
    Gives E (skipNulls s) ps a fun _ ps' b => Inv ps' b ∧ Later Slot a b
  visit : ∀ {ps a prev s o}, Inv ps a → Slot a s → Lead a prev s o → (a.node o).processed = false →
    ps.failure? = none → Gives E (visit o prev s) ps (a.mark o) fun v ps' b =>
      Inv ps' b ∧ Later Slot (a.mark o) b ∧ (∀ s, Slot a s → Slot b s) ∧
      match v with
      | .goOn next keep => ∀ z, next = some z → Lead b (if keep then some o else prev) s z
      | .branch => Slot b (.other o)

def Enough (E : Failure → Prop) (fuel n : Nat) : Prop := E (.fatal none) ∨ n ≤ fuel

theorem Enough.mono {fuel fuel' n n' : Nat} (h : Enough E fuel n) (hn : n ≤ fuel → n' ≤ fuel') :
    Enough E fuel' n' := h.imp_right hn

def Kept (Inv : PeepState → Arena → Prop) (Slot : Arena → PeepSlot → Prop) (a : Arena) (ps' : PeepState)
    (b : Arena) : Prop := Inv ps' b ∧ Later Slot a b

/-- What a walk along a chain keeps: the branches that wait are known, and there are at most as many
new ones as there are new marks. -/
def KeptQueue (Inv : PeepState → Arena → Prop) (Slot : Arena → PeepSlot → Prop) (a : Arena) (n : Nat)
    (q : List PeepSlot) (ps' : PeepState) (b : Arena) : Prop :=
  Inv ps' b ∧ Later Slot a b ∧ (∀ s ∈ q, Slot b s) ∧ q.length + b.todo ≤ n + a.todo

theorem walk_rule (R : Rule E Inv Slot Lead) (fuel : Nat) :
    (∀ {ps a s}, Inv ps a → Slot a s → Enough E fuel (6 * a.todo + 3) →
      Gives E (walk fuel s) ps a fun _ => Kept Inv Slot a) ∧
    (∀ {ps a q}, Inv ps a → (∀ s ∈ q, Slot a s) → Enough E fuel (6 * a.todo + 3 * q.length) →
      Gives E (drain fuel q) ps a fun _ => Kept Inv Slot a) ∧
    (∀ {ps a s q}, Inv ps a → Slot a s → (∀ s ∈ q, Slot a s) → Enough E fuel (6 * a.todo + 2) →
      Gives E (chain fuel s q) ps a (KeptQueue Inv Slot a q.length)) ∧
    (∀ {ps a s prev o? q}, Inv ps a → Slot a s → (∀ s ∈ q, Slot a s) →
      (∀ o, o? = some o → (a.node o).processed = false → Lead a prev s o) → Enough E fuel (6 * a.todo + 1) →
      Gives E (follow fuel s prev o? q) ps a (KeptQueue Inv Slot a q.length)) ∧
    (∀ {ps a s q}, Inv ps a → Slot a s → (∀ s ∈ q, Slot a s) → Enough E fuel (6 * a.todo + 4) →
      Gives E (setAside fuel s q) ps a (KeptQueue Inv Slot a (q.length + 1))) := by
  induction fuel with
  | zero =>
    have hfatal : ∀ n, Enough E 0 (n + 1) → E (.fatal none) := fun n h =>
      h.resolve_right (Nat.not_succ_le_zero n)
    refine ⟨?_, ?_, ?_, ?_, ?_⟩
    · intro ps a s _ _ hf
      exact gives_fatal (hfatal _ hf)
    · intro ps a q hi _ hf
      cases q with
      | nil => exact gives_pure ⟨hi, .refl a⟩
      | cons s q => exact gives_fatal (hfatal _ hf)
    · intro ps a s q _ _ _ hf
      exact gives_fatal (hfatal _ hf)
    · intro ps a s prev o? q hi hs hq _ hf
      cases o? with
      | none => exact gives_pure ⟨hi, .refl a, hq, Nat.le_refl _⟩
      | some o => exact gives_fatal (hfatal _ hf)
    · intro ps a s q _ _ _ hf
      exact gives_fatal (hfatal _ hf)
  | succ fuel ih =>
    obtain ⟨ihwalk, ihdrain, ihchain, ihfollow, ihaside⟩ := ih
    refine ⟨?_, ?_, ?_, ?_, ?_⟩
    · -- a frame: the chain on its slot, and then the branches that were set aside
      intro ps a s hi hs hf
      have hframe : ∀ f : PeepState → PeepState, (∀ p, (f p).start = p.start ∧
          (f p).failure? = p.failure? ∧ (f p).statement? = p.statement?) →
          Gives E (do
            modify f
            let q ← chain fuel s []
            drain fuel q
            modify fun p => { p with depth := p.depth - 1 }) ps a fun _ => Kept Inv Slot a := by
        intro f hstats
        have hps := hstats ps
        have hi' := R.stats hi hps.1 hps.2.1 hps.2.2
        refine gives_modify_bind (.bind (ihchain hi' hs (by simp) (hf.mono (by omega))) ?_)
        rintro q ps'' b ⟨hi'', hlater, hq, hlen⟩
        refine .bind (ihdrain hi'' hq (hf.mono fun h => ?_)) ?_
        · simp only [List.length_nil] at hlen
          omega
        · rintro _ ps₃ c ⟨hi₃, hlater'⟩
          exact gives_modify ⟨R.stats hi₃ rfl rfl rfl, hlater.trans hlater'⟩
      simp only [walk]
      refine gives_lift_bind (TreeM.get_apply a) ?_
      refine gives_ite (fun hm => ?_) fun _ => hframe _ fun p => ⟨rfl, rfl, rfl⟩
      refine .bind (gives_fatal (Q := fun _ _ _ => False) ?_) fun _ _ _ h => h.elim
      exact (R.memory hi).resolve_right (by simpa using hm)
    · -- the branches of a queue
      intro ps a q hi hq hf
      cases q with
      | nil => exact gives_pure ⟨hi, .refl a⟩
      | cons s q =>
        simp only [drain]
        refine gives_get_bind ?_
        refine gives_ite (fun _ => gives_pure ⟨hi, .refl a⟩) fun _ => ?_
        simp only [List.length_cons] at hf
        refine .bind (ihchain hi (hq s (by simp)) (fun s hs => hq s (by simp [hs]))
          (hf.mono (by omega))) ?_
        rintro q' ps' b ⟨hi', hlater, hq', hlen⟩
        have htodo := hlater.todo
        refine (ihdrain hi' hq' (hf.mono (by omega))).mono ?_
        rintro _ ps'' c ⟨hi'', hlater'⟩
        exact ⟨hi'', hlater.trans hlater'⟩
    · -- one path, after which the slot is moved past transparent ops
      intro ps a s q hi hs hq hf
      simp only [chain]
      refine gives_readSlot_bind ?_
      refine .bind (ihfollow hi hs hq (fun o ho => R.head hi hs ho) (hf.mono (by omega))) ?_
      rintro q' ps' b ⟨hi', hlater, hq', hlen⟩
      refine .bind (R.skip hi' (hlater.slot s hs)) ?_
      rintro _ ps'' c ⟨hi'', hlater'⟩
      have htodo := hlater'.todo
      exact gives_pure ⟨hi'', hlater.trans hlater', fun s hs => hlater'.slot s (hq' s hs), by omega⟩
    · -- one op: it is marked and visited
      intro ps a s prev o? q hi hs hq hlead hf
      cases o? with
      | none => exact gives_pure ⟨hi, .refl a, hq, Nat.le_refl _⟩
      | some o =>
        simp only [follow]
        refine gives_lift_bind (TreeM.node_apply o a) ?_
        refine gives_get_bind ?_
        refine gives_ite (fun _ => gives_pure ⟨hi, .refl a, hq, Nat.le_refl _⟩) fun hno => ?_
        simp only [Bool.or_eq_true, not_or, Bool.not_eq_true, Option.isSome_eq_false_iff,
          Option.isNone_iff_eq_none] at hno
        have hlo := hlead o rfl hno.1
        have hlt := Arena.todo_mark_lt (R.lt hi hlo) hno.1
        refine gives_lift_bind (TreeM.update_apply _ _ a) (gives_modify_bind ?_)
        refine .bind (R.visit (R.stats hi rfl rfl rfl) hs hlo hno.1 hno.2) ?_
        rintro v ps'' b ⟨hi'', hlater, hslots, hv⟩
        have htodo := hlater.todo
        have hab : Later Slot a b := hlater.of_mark hslots
        have hqb : ∀ s ∈ q, Slot b s := fun s hs => hslots s (hq s hs)
        cases v with
        | goOn next keep =>
          refine (ihfollow hi'' (hslots s hs) hqb (fun z hz _ => hv z hz) (hf.mono (by omega))).mono ?_
          rintro q' ps₃ c ⟨hi₃, hlater', hq', hlen⟩
          exact ⟨hi₃, hab.trans hlater', hq', by omega⟩
        | branch =>
          refine .bind (ihaside hi'' hv hqb (hf.mono (by omega))) ?_
          rintro q' ps₃ c ⟨hi₃, hlater', hq', hlen⟩
          have htodo' := hlater'.todo
          have hslot := hlater'.slot _ hv
          refine gives_lift_bind (TreeM.node_apply o c) ?_
          refine (ihfollow hi₃ ((hab.trans hlater').slot s hs) hq'
            (fun z hz _ => R.next hi₃ hslot hz) (hf.mono (by omega))).mono ?_
          rintro q'' ps₄ d ⟨hi₄, hlater'', hq'', hlen'⟩
          exact ⟨hi₄, (hab.trans hlater').trans hlater'', hq'', by omega⟩
    · -- a branch is set aside, and the oldest one is walked if there are too many
      intro ps a s q hi hs hq hf
      simp only [setAside]
      refine gives_readSlot_bind ?_
      refine gives_ite (fun _ => gives_pure ⟨hi, .refl a, hq, by omega⟩) fun _ => ?_
      refine gives_modify_bind ?_
      have hsnoc : ∀ (q : List PeepSlot) (b : Arena), (∀ s ∈ q, Slot b s) → Slot b s →
          ∀ s' ∈ q ++ [s], Slot b s' := by
        intro q b hq hs s' hs'
        rcases List.mem_append.mp hs' with h | h
        · exact hq s' h
        · rw [List.mem_singleton.mp h]
          exact hs
      cases q with
      | nil => exact gives_pure ⟨R.stats hi rfl rfl rfl, .refl a, by simpa using hs, by simp⟩
      | cons old rest =>
        refine gives_lift_bind (TreeM.get_apply a) ?_
        refine gives_ite (fun _ => ?_) fun _ => ?_
        · refine .bind (ihwalk (R.stats hi rfl rfl rfl) (hq old (by simp)) (hf.mono (by omega))) ?_
          rintro _ ps'' b ⟨hi'', hlater⟩
          have htodo := hlater.todo
          refine gives_pure ⟨hi'', hlater, ?_, ?_⟩
          · exact hsnoc rest b (fun s hs => hlater.slot s (hq s (by simp [hs]))) (hlater.slot s hs)
          · simp only [List.length_append, List.length_cons, List.length_nil]
            omega
        · refine gives_pure ⟨R.stats hi rfl rfl rfl, .refl a, hsnoc _ a hq hs, ?_⟩
          simp

end Peep

namespace TreeM

variable {E : Failure → Prop} {Inv : PeepState → Arena → Prop} {Slot : Arena → PeepSlot → Prop}
  {Lead : Arena → Option RecId → PeepSlot → RecId → Prop}

theorem optimize_eq (start : Option RecId) (a : Arena) :
    optimize start a = match Peep.walk (8 * a.bound + 8) .start { start := start } a with
      | .ok (_, p) b => .ok ⟨p.start, p.stats, p.failure?⟩ b
      | .error e b => .error e b := by
  change EStateM.bind (Peep.walk (8 * a.bound + 8) .start { start := start }) _ a = _
  unfold EStateM.bind
  split <;> simp_all

theorem optimize_rule (R : Peep.Rule E Inv Slot Lead) {start : Option RecId} {a : Arena}
    (hi : Inv { start := start } a) (hs : Slot a .start) :
    match optimize start a with
    | .ok opt b => ∃ ps, opt = ⟨ps.start, ps.stats, ps.failure?⟩ ∧ Inv ps b ∧ ∀ s, Slot a s → Slot b s
    | .error e _ => E e := by
  have htodo : a.todo ≤ a.recs.size := by
    have hle := (List.range a.recs.size).countP_le_length (p := fun r => !(a.node r).processed)
    rwa [List.length_range] at hle
  have hfuel : Peep.Enough E (8 * a.bound + 8) (6 * a.todo + 3) := by
    refine Or.inr ?_
    rw [Arena.bound]
    omega
  have hwalk := (Peep.walk_rule R (8 * a.bound + 8)).1 hi hs hfuel
  have hopt := optimize_eq start a
  unfold Peep.Gives at hwalk
  rw [hopt]
  cases h : Peep.walk (8 * a.bound + 8) .start { start := start } a with
  | error e b =>
    rw [h] at hwalk
    exact hwalk
  | ok p b =>
    rw [h] at hwalk
    exact ⟨p.2, rfl, hwalk.1, hwalk.2.slot⟩

end TreeM

end OpTree
