import OpTree.Proofs.Quiet
import OpTree.Proofs.Rings

/-!
# The log of a walk

The walk of the optimizer once more, with the rings that hold the branches of each frame and with a log of what
happens. The log changes nothing: the walk does what it does without one. It shows that an op is visited once,
that no branch is lost from its place in a ring, and that a branch that waits is walked once.
-/

namespace OpTree

set_option autoImplicit false

namespace Peep

inductive Event where
  /-- An op is visited. -/
  | visit (o : RecId)
  /-- A branch is left for later. -/
  | wait (s : PeepSlot)
  /-- A branch is put into a ring, in the place of `lost?`. -/
  | put (s : PeepSlot) (lost? : Option PeepSlot)
  /-- The chain on a slot is walked. -/
  | walk (s : PeepSlot)
  deriving DecidableEq

abbrev Logged := StateT (List Event) Peep

def note (e : Event) : Logged Unit := modify fun log => log ++ [e]

namespace Logged

mutual

def walk : Nat → PeepSlot → Logged Unit
  | 0, _ => (TreeM.fatal : TreeM Unit)
  | fuel + 1, slot => do
    let a ← (get : TreeM Arena)
    if !Memory.holds 8 a.tune.deferQueue then (TreeM.fatal : TreeM Unit)
    (modify fun p =>
      { p with depth := p.depth + 1,
               stats := { p.stats with maxDepth := max p.stats.maxDepth (p.depth + 1) } } : Peep Unit)
    let q ← chain fuel slot (Ring.make (queueSize a.tune))
    drain fuel q
    (modify fun p => { p with depth := p.depth - 1 } : Peep Unit)

def drain : Nat → Ring PeepSlot → Logged Unit
  | 0, q => if q.held = 0 then pure () else (TreeM.fatal : TreeM Unit)
  | fuel + 1, q => do
    if q.held = 0 then return
    if (← (get : Peep PeepState)).failure?.isSome then return
    match q.pop with
    | (q, some slot) => drain fuel (← chain fuel slot q)
    | (_, none) => (TreeM.fatal : TreeM Unit)

def chain : Nat → PeepSlot → Ring PeepSlot → Logged (Ring PeepSlot)
  | 0, _, _ => (TreeM.fatal : TreeM (Ring PeepSlot))
  | fuel + 1, slot, q => do
    note (.walk slot)
    let q ← follow fuel slot none (← (readSlot slot : Peep (Option RecId))) q
    (skipNulls slot : Peep Unit)
    return q

def follow : Nat → PeepSlot → Option RecId → Option RecId → Ring PeepSlot → Logged (Ring PeepSlot)
  | _, _, _, none, q => return q
  | 0, _, _, some _, _ => (TreeM.fatal : TreeM (Ring PeepSlot))
  | fuel + 1, slot, prev, some o, q => do
    if (← (TreeM.node o : TreeM Node)).processed || (← (get : Peep PeepState)).failure?.isSome then return q
    TreeM.update o fun n => { n with processed := true }
    (modify fun p => { p with stats := { p.stats with visited := p.stats.visited + 1 } } : Peep Unit)
    note (.visit o)
    match ← (visit o prev slot : Peep Visit) with
    | .goOn next keep => follow fuel slot (if keep then some o else prev) next q
    | .branch =>
      let q ← setAside fuel (.other o) q
      follow fuel slot (some o) (← (TreeM.node o : TreeM Node)).next q

def setAside : Nat → PeepSlot → Ring PeepSlot → Logged (Ring PeepSlot)
  | 0, _, _ => (TreeM.fatal : TreeM (Ring PeepSlot))
  | fuel + 1, slot, q => do
    if (← (readSlot slot : Peep (Option RecId))).isNone then return q
    (modify fun p => { p with stats := { p.stats with deferred := p.stats.deferred + 1 } } : Peep Unit)
    note (.wait slot)
    if q.held = q.places.length then
      match q.pop with
      | (q, some old) =>
        walk fuel old
        note (.put slot (q.push slot).2)
        return (q.push slot).1
      | (_, none) => (TreeM.fatal : TreeM (Ring PeepSlot))
    else
      note (.put slot (q.push slot).2)
      return (q.push slot).1

end

end Logged

variable {α β γ : Type} {log log' : List Event} {ps ps' : PeepState} {a b : Arena}

/-- A computation with a log runs as the one without, and if that succeeds `Q` holds at the end. -/
def Tells (x : Logged α) (y : Peep β) (log : List Event) (ps : PeepState) (a : Arena)
    (Q : α → List Event → β → PeepState → Arena → Prop) : Prop :=
  match y ps a with
  | .ok (v, ps') b => ∃ u log', x log ps a = .ok ((u, log'), ps') b ∧ Q u log' v ps' b
  | .error e b => x log ps a = .error e b

theorem logged_bind (x : Logged α) (f : α → Logged γ) (log : List Event) (ps : PeepState) (a : Arena) :
    (x >>= f) log ps a = match x log ps a with
      | .ok ((u, log'), ps') b => f u log' ps' b
      | .error e b => .error e b := by
  refine (peep_bind (x log) (fun p => f p.1 p.2) ps a).trans ?_
  cases x log ps a <;> rfl

theorem tells_pure {u : α} {v : β} {Q : α → List Event → β → PeepState → Arena → Prop} (h : Q u log v ps a) :
    Tells (pure u) (pure v) log ps a Q := ⟨u, log, rfl, h⟩

theorem Tells.mono {x : Logged α} {y : Peep β} {P Q : α → List Event → β → PeepState → Arena → Prop}
    (h : Tells x y log ps a P) (hpq : ∀ u log' v ps' b, P u log' v ps' b → Q u log' v ps' b) :
    Tells x y log ps a Q := by
  unfold Tells at h ⊢
  split at h
  · obtain ⟨u, log', hx, hp⟩ := h
    exact ⟨u, log', hx, hpq _ _ _ _ _ hp⟩
  · exact h

theorem Tells.and {E : Failure → Prop} {x : Logged α} {y : Peep β}
    {Q : α → List Event → β → PeepState → Arena → Prop} {P : β → PeepState → Arena → Prop}
    (h : Tells x y log ps a Q) (hy : Gives E y ps a P) :
    Tells x y log ps a fun u log' v ps' b => Q u log' v ps' b ∧ P v ps' b := by
  unfold Tells at h ⊢
  unfold Gives at hy
  split at h
  · obtain ⟨u, log', hx, hq⟩ := h
    rw [‹y ps a = _›] at hy
    exact ⟨u, log', hx, hq, hy⟩
  · exact h

theorem Tells.bind {δ : Type} {x : Logged α} {y : Peep β} {f : α → Logged γ} {g : β → Peep δ}
    {P : α → List Event → β → PeepState → Arena → Prop} {Q : γ → List Event → δ → PeepState → Arena → Prop}
    (h : Tells x y log ps a P)
    (hf : ∀ u log' v ps' b, P u log' v ps' b → Tells (f u) (g v) log' ps' b Q) :
    Tells (x >>= f) (y >>= g) log ps a Q := by
  unfold Tells at h
  rw [Tells, peep_bind, logged_bind]
  cases hy : y ps a with
  | error e b =>
    rw [hy] at h
    rw [show x log ps a = .error e b from h]
  | ok p b =>
    rw [hy] at h
    obtain ⟨u, log', hx, hp⟩ := h
    rw [hx]
    exact hf u log' p.1 p.2 b hp

theorem tells_lift {E : Failure → Prop} {y : Peep α} {P : α → PeepState → Arena → Prop} (hy : Gives E y ps a P) :
    Tells (liftM y) y log ps a fun u log' v ps' b => u = v ∧ log' = log ∧ P v ps' b := by
  have hlift : (liftM y : Logged α) log ps a = match y ps a with
      | .ok (v, ps') b => .ok ((v, log), ps') b
      | .error e b => .error e b := peep_bind y (fun v => pure (v, log)) ps a
  unfold Gives at hy
  rw [Tells, hlift]
  cases h : y ps a with
  | error e b => rfl
  | ok p b =>
    rw [h] at hy
    exact ⟨p.1, log, rfl, rfl, rfl, hy⟩

theorem tells_lift_bind {δ : Type} {E : Failure → Prop} {y : Peep α} {f : α → Logged γ} {g : α → Peep δ}
    {P : α → PeepState → Arena → Prop} {Q : γ → List Event → δ → PeepState → Arena → Prop}
    (hy : Gives E y ps a P) (h : ∀ v ps' b, P v ps' b → Tells (f v) (g v) log ps' b Q) :
    Tells (liftM y >>= f) (y >>= g) log ps a Q := by
  refine (tells_lift hy).bind ?_
  rintro u log' v ps' b ⟨rfl, rfl, hp⟩
  exact h u ps' b hp

theorem tells_step_bind {δ : Type} {y : Peep α} {v : α} {f : α → Logged γ} {g : α → Peep δ}
    {Q : γ → List Event → δ → PeepState → Arena → Prop} (hy : y ps a = .ok (v, ps') b)
    (h : Tells (f v) (g v) log ps' b Q) : Tells (liftM y >>= f) (y >>= g) log ps a Q := by
  have hgives : Gives (fun _ => True) y ps a fun w qs c => w = v ∧ qs = ps' ∧ c = b := by
    rw [Gives, hy]
    exact ⟨rfl, rfl, rfl⟩
  refine tells_lift_bind hgives ?_
  rintro _ _ _ ⟨rfl, rfl, rfl⟩
  exact h

theorem tells_look {δ : Type} {x : Logged α} {y : Peep δ} {v : δ} {g : δ → Peep β}
    {Q : α → List Event → β → PeepState → Arena → Prop} (hy : y ps a = .ok (v, ps) a)
    (h : Tells x (g v) log ps a Q) : Tells x (y >>= g) log ps a Q := by
  rw [Tells, peep_bind, hy]
  exact h

theorem readSlot_apply (s : PeepSlot) : readSlot s ps a = .ok (headOf ps a s, ps) a := by
  cases s <;> rfl

theorem tells_note_bind {e : Event} {f : Unit → Logged α} {y : Peep β}
    {Q : α → List Event → β → PeepState → Arena → Prop} (h : Tells (f ()) y (log ++ [e]) ps a Q) :
    Tells (note e >>= f) y log ps a Q := h

theorem tells_fatal {Q : α → List Event → β → PeepState → Arena → Prop} :
    Tells (liftM (TreeM.fatal : TreeM α)) (liftM (TreeM.fatal : TreeM β)) log ps a Q := rfl

theorem tells_ite {p : Prop} [Decidable p] {x x' : Logged α} {y y' : Peep β}
    {Q : α → List Event → β → PeepState → Arena → Prop} (h : p → Tells x y log ps a Q)
    (h' : ¬p → Tells x' y' log ps a Q) : Tells (if p then x else x') (if p then y else y') log ps a Q := by
  split
  · exact h ‹_›
  · exact h' ‹_›

def visits (log : List Event) : List RecId :=
  log.filterMap fun
    | .visit o => some o
    | _ => none

def waits (log : List Event) : List PeepSlot :=
  log.filterMap fun
    | .wait s => some s
    | _ => none

def walks (log : List Event) : List PeepSlot :=
  log.filterMap fun
    | .walk s => some s
    | _ => none

/-- A log that fits the state of a walk: it tells every visit, ops have been visited once, and nothing was lost. -/
structure Faithful (ops : List RecId) (log : List Event) (ps : PeepState) (a : Arena) : Prop where
  nodup : (visits log).Nodup
  marked : ∀ r ∈ visits log, (a.node r).processed = true
  inside : visits log ⊆ ops
  visited : ps.stats.visited = (visits log).length
  deferred : ps.stats.deferred = (waits log).length
  /-- A branch waits only once, as its op is visited once. -/
  branches : (waits log).Sublist ((visits log).map .other)
  kept : ∀ s lost?, .put s lost? ∈ log → lost? = none

/-- All that was left for later, and the main chain, is either walked or still waits in `w`. -/
def Owes (log : List Event) (w : List PeepSlot) : Prop := (walks log ++ w).Perm (.start :: waits log)

/-- If nothing fails, `before` was waiting and `after` is, whatever waits elsewhere. -/
def Settles (log : List Event) (ps : PeepState) (before : List PeepSlot) (log' : List Event) (ps' : PeepState)
    (after : List PeepSlot) : Prop :=
  ps'.failure? = none → ps.failure? = none ∧ ∀ w, Owes log (before ++ w) → Owes log' (after ++ w)

theorem Settles.refl {w : List PeepSlot} : Settles log ps w log ps w := fun h => ⟨h, fun _ ho => ho⟩

theorem Settles.trans {log'' : List Event} {ps'' : PeepState} {u v w : List PeepSlot}
    (h : Settles log ps u log' ps' v) (h' : Settles log' ps' v log'' ps'' w) : Settles log ps u log'' ps'' w := by
  intro hf
  obtain ⟨hf', hw⟩ := h' hf
  obtain ⟨hf'', hv⟩ := h hf'
  exact ⟨hf'', fun x ho => hw x (hv x ho)⟩

theorem Faithful.later {ops : List RecId} {still : Prop} {Slot : Arena → PeepSlot → Prop}
    (h : Faithful ops log ps a) (hq : Quiet still ps ps') (hl : Later Slot a b) : Faithful ops log ps' b where
  nodup := h.nodup
  marked r hr := hl.marks r (h.marked r hr)
  inside := h.inside
  visited := hq.visited.trans h.visited
  deferred := hq.deferred.trans h.deferred
  branches := h.branches
  kept := h.kept

section Steps

variable {ops : List RecId}

theorem Faithful.visit {o : RecId} (h : Faithful ops log ps a) (ho : o ∈ ops) (hlt : o < a.recs.size)
    (hp : (a.node o).processed = false) :
    Faithful ops (log ++ [.visit o]) { ps with stats := { ps.stats with visited := ps.stats.visited + 1 } }
        (a.mark o) ∧
      (waits (log ++ [Event.visit o]) ++ [PeepSlot.other o]).Sublist
        ((visits (log ++ [Event.visit o])).map .other) := by
  have hvisits : visits (log ++ [.visit o]) = visits log ++ [o] := by simp [visits]
  have hwaits : waits (log ++ [.visit o]) = waits log := by simp [waits]
  have hnew : o ∉ visits log := fun hm => by
    rw [h.marked o hm] at hp
    cases hp
  refine ⟨⟨?_, fun r hr => ?_, ?_, ?_, ?_, ?_, fun s lost? hm => ?_⟩, ?_⟩
  · rw [hvisits]
    exact h.nodup.append (List.nodup_singleton o) (by simpa using hnew)
  · rw [hvisits, List.mem_append, List.mem_singleton] at hr
    rcases hr with hr | rfl
    · exact Arena.processed_mark (h.marked r hr)
    · rw [Arena.mark, Arena.node_update_self hlt]
  · rw [hvisits]
    exact List.append_subset.mpr ⟨h.inside, by simpa using ho⟩
  · rw [hvisits, List.length_append, h.visited]
    rfl
  · rw [hwaits]
    exact h.deferred
  · rw [hwaits, hvisits, List.map_append]
    exact h.branches.trans (List.sublist_append_left _ _)
  · exact h.kept s lost? (by simpa using hm)
  · rw [hwaits, hvisits, List.map_append]
    exact h.branches.append (List.Sublist.refl _)

theorem Faithful.wait {s : PeepSlot} (h : Faithful ops log ps a)
    (hs : (waits log ++ [s]).Sublist ((visits log).map .other)) :
    Faithful ops (log ++ [.wait s]) { ps with stats := { ps.stats with deferred := ps.stats.deferred + 1 } } a := by
  have hvisits : visits (log ++ [.wait s]) = visits log := by simp [visits]
  have hwaits : waits (log ++ [.wait s]) = waits log ++ [s] := by simp [waits]
  refine ⟨by rw [hvisits]; exact h.nodup, by rw [hvisits]; exact h.marked, by rw [hvisits]; exact h.inside,
    by rw [hvisits]; exact h.visited, ?_, by rw [hvisits, hwaits]; exact hs, fun s lost? hm => ?_⟩
  · rw [hwaits, List.length_append, h.deferred]
    rfl
  · exact h.kept s lost? (by simpa using hm)

theorem Faithful.event {e : Event} (h : Faithful ops log ps a) (hvisit : ∀ o, e ≠ .visit o)
    (hwait : ∀ s, e ≠ .wait s) (hput : ∀ s lost?, e = .put s lost? → lost? = none) :
    Faithful ops (log ++ [e]) ps a := by
  have hvisits : visits (log ++ [e]) = visits log := by
    cases e <;> simp_all [visits]
  have hwaits : waits (log ++ [e]) = waits log := by
    cases e <;> simp_all [waits]
  refine ⟨by rw [hvisits]; exact h.nodup, by rw [hvisits]; exact h.marked, by rw [hvisits]; exact h.inside,
    by rw [hvisits]; exact h.visited, by rw [hwaits]; exact h.deferred, by rw [hvisits, hwaits]; exact h.branches,
    fun s lost? hm => ?_⟩
  rcases List.mem_append.mp hm with hm | hm
  · exact h.kept s lost? hm
  · exact hput s lost? (List.mem_singleton.mp hm).symm

theorem Faithful.walk {s : PeepSlot} (h : Faithful ops log ps a) : Faithful ops (log ++ [.walk s]) ps a :=
  h.event nofun nofun nofun

theorem Faithful.put {s : PeepSlot} (h : Faithful ops log ps a) : Faithful ops (log ++ [.put s none]) ps a := by
  refine h.event nofun nofun ?_
  rintro _ _ ⟨⟩
  rfl

theorem Faithful.stats {ps' : PeepState} (h : Faithful ops log ps a) (hv : ps'.stats.visited = ps.stats.visited)
    (hd : ps'.stats.deferred = ps.stats.deferred) : Faithful ops log ps' a :=
  ⟨h.nodup, h.marked, h.inside, hv.trans h.visited, hd.trans h.deferred, h.branches, h.kept⟩

theorem Owes.walk {s : PeepSlot} {w : List PeepSlot} (h : Owes log (s :: w)) : Owes (log ++ [.walk s]) w := by
  simpa [Owes, walks, waits] using h

theorem Owes.wait {s : PeepSlot} {u w : List PeepSlot} (h : Owes log (u ++ w)) :
    Owes (log ++ [.wait s]) (u ++ s :: w) := by
  have hwalks : walks (log ++ [.wait s]) = walks log := by simp [walks]
  have hwaits : waits (log ++ [.wait s]) = waits log ++ [s] := by simp [waits]
  rw [Owes, hwalks, hwaits]
  calc walks log ++ (u ++ s :: w)
      _ = (walks log ++ u) ++ s :: w := (List.append_assoc ..).symm
      _ |>.Perm (s :: ((walks log ++ u) ++ w)) := List.perm_middle
      _ |>.Perm (s :: (.start :: waits log)) := by
        rw [List.append_assoc]
        exact List.Perm.cons s h
      _ |>.Perm (.start :: (waits log ++ [s])) :=
        (List.Perm.swap ..).trans (List.Perm.cons _ (List.perm_append_singleton ..).symm)

theorem Owes.put {s : PeepSlot} {lost? : Option PeepSlot} {w : List PeepSlot} (h : Owes log w) :
    Owes (log ++ [.put s lost?]) w := by
  simpa [Owes, walks, waits] using h

end Steps

structure Tale (ops : List RecId) (log : List Event) (ps : PeepState) (before : List PeepSlot) (log' : List Event)
    (ps' : PeepState) (b : Arena) (after : List PeepSlot) : Prop where
  faithful : Faithful ops log' ps' b
  settles : Settles log ps before log' ps' after

section Rule

variable {Inv : PeepState → Arena → Prop} {Slot : Arena → PeepSlot → Prop}
  {Lead : Arena → Option RecId → PeepSlot → RecId → Prop} {ops : List RecId} {T : Tuning} {fuel : Nat}

/-- The walks with and without a log agree, and the log is faithful. A queue of the one is the ring of the other. -/
structure Told (Inv : PeepState → Arena → Prop) (Slot : Arena → PeepSlot → Prop)
    (Lead : Arena → Option RecId → PeepSlot → RecId → Prop) (ops : List RecId) (T : Tuning) (fuel : Nat) : Prop where
  walk : ∀ {log ps a s}, Inv ps a → Slot a s → Faithful ops log ps a →
    Tells (Logged.walk fuel s) (walk fuel s) log ps a fun _ log' _ ps' b => Tale ops log ps [s] log' ps' b []
  drain : ∀ {log ps a r q}, Inv ps a → (∀ s ∈ q, Slot a s) → Ring.Keeps r (queueSize T) q →
    Faithful ops log ps a →
    Tells (Logged.drain fuel r) (drain fuel q) log ps a fun _ log' _ ps' b => Tale ops log ps q log' ps' b []
  chain : ∀ {log ps a s r q}, Inv ps a → Slot a s → (∀ s ∈ q, Slot a s) → Ring.Keeps r (queueSize T) q →
    Faithful ops log ps a → Tells (Logged.chain fuel s r) (chain fuel s q) log ps a fun r' log' q' ps' b =>
      r'.Keeps (queueSize T) q' ∧ Tale ops log ps (s :: q) log' ps' b q'
  follow : ∀ {log ps a s prev o? r q}, Inv ps a → Slot a s → (∀ s ∈ q, Slot a s) →
    (∀ o, o? = some o → (a.node o).processed = false → Lead a prev s o) → Ring.Keeps r (queueSize T) q →
    Faithful ops log ps a → Tells (Logged.follow fuel s prev o? r) (follow fuel s prev o? q) log ps a
      fun r' log' q' ps' b => r'.Keeps (queueSize T) q' ∧ Tale ops log ps q log' ps' b q'
  setAside : ∀ {log ps a s r q}, Inv ps a → (∀ s ∈ q, Slot a s) → Ring.Keeps r (queueSize T) q →
    Faithful ops log ps a → (waits log ++ [s]).Sublist ((visits log).map .other) →
    Tells (Logged.setAside fuel s r) (setAside fuel s q) log ps a fun r' log' q' ps' b =>
      r'.Keeps (queueSize T) q' ∧ Tale ops log ps q log' ps' b q'

theorem queueSize_pos (T : Tuning) : 0 < queueSize T := by
  rw [queueSize]
  omega

section Step

variable (R : Rule (fun _ => True) Inv Slot Lead) (htune : ∀ {ps a}, Inv ps a → a.tune = T)
  (hops : ∀ {ps a prev s o}, Inv ps a → Lead a prev s o → o ∈ ops) (h : Told Inv Slot Lead ops T fuel)

include R htune h in
/-- The oldest branch is walked if the ring is full, and the new one takes a free place. -/
theorem told_setAside {s : PeepSlot} {r : Ring PeepSlot} {q : List PeepSlot} (hi : Inv ps a)
    (hq : ∀ s ∈ q, Slot a s) (hr : r.Keeps (queueSize T) q) (hlog : Faithful ops log ps a)
    (hs : (waits log ++ [s]).Sublist ((visits log).map .other)) :
    Tells (Logged.setAside (fuel + 1) s r) (setAside (fuel + 1) s q) log ps a fun r' log' q' ps' b =>
      r'.Keeps (queueSize T) q' ∧ Tale ops log ps q log' ps' b q' := by
  simp only [Logged.setAside, Peep.setAside]
  refine tells_step_bind (readSlot_apply s) (tells_ite (fun _ => tells_pure ⟨hr, hlog, .refl⟩) fun _ => ?_)
  refine tells_step_bind (y := modify _) rfl (tells_note_bind ?_)
  have hwait := hlog.wait hs
  have hi' : Inv { ps with stats := { ps.stats with deferred := ps.stats.deferred + 1 } } a := R.stats hi rfl rfl rfl
  have hpush : q.length < queueSize T →
      Tells (do
        note (.put s (r.push s).2)
        return (r.push s).1) (pure (q ++ [s])) (log ++ [.wait s])
        { ps with stats := { ps.stats with deferred := ps.stats.deferred + 1 } } a fun r' log' q' ps' b =>
        r'.Keeps (queueSize T) q' ∧ Tale ops log ps q log' ps' b q' := by
    intro hlt
    obtain ⟨hfree, hkeeps⟩ := hr.push hlt s
    rw [hfree]
    refine tells_note_bind (tells_pure ⟨hkeeps, hwait.put, fun hf => ⟨hf, fun w ho => ?_⟩⟩)
    simpa using (ho.wait (s := s)).put
  cases q with
  | nil =>
    have hfree : r.held ≠ r.places.length := by
      rw [hr.held, hr.size]
      exact Nat.ne_of_lt (queueSize_pos T)
    rw [if_neg hfree]
    exact hpush (queueSize_pos T)
  | cons old rest =>
    refine tells_look (y := liftM (get : TreeM Arena)) (v := a) rfl ?_
    rw [htune hi]
    by_cases hfull : queueSize T ≤ (old :: rest).length
    · have hheld : r.held = r.places.length := by
        rw [hr.held, hr.size]
        exact Nat.le_antisymm hr.fits hfull
      obtain ⟨hold, hkeeps⟩ := hr.pop
      rw [if_pos hfull, if_pos hheld]
      generalize r.pop = p at hold hkeeps
      obtain ⟨r₁, old?⟩ := p
      obtain rfl : old? = some old := hold
      refine (h.walk hi' (hq old (List.mem_cons_self ..)) hwait).bind ?_
      rintro _ log₂ _ ps₂ b ⟨hlog₂, hsettles⟩
      obtain ⟨hfree, hkeeps'⟩ := hkeeps.push (Nat.lt_of_succ_le (by simpa using hr.fits)) s
      rw [hfree]
      refine tells_note_bind (tells_pure ⟨hkeeps', hlog₂.put, fun hf => ?_⟩)
      obtain ⟨hf₁, hw⟩ := hsettles hf
      refine ⟨hf₁, fun w ho => ?_⟩
      have hrest := hw (rest ++ s :: w) (by simpa using ho.wait (s := s))
      simpa using hrest.put
    · have hheld : r.held ≠ r.places.length := by
        rw [hr.held, hr.size]
        omega
      rw [if_neg hfull, if_neg hheld]
      exact hpush (Nat.lt_of_not_le hfull)

include R hops h in
theorem told_follow {s : PeepSlot} {prev o? : Option RecId} {r : Ring PeepSlot} {q : List PeepSlot}
    (hi : Inv ps a) (hs : Slot a s) (hq : ∀ s ∈ q, Slot a s)
    (hlead : ∀ o, o? = some o → (a.node o).processed = false → Lead a prev s o) (hr : r.Keeps (queueSize T) q)
    (hlog : Faithful ops log ps a) :
    Tells (Logged.follow (fuel + 1) s prev o? r) (follow (fuel + 1) s prev o? q) log ps a
      fun r' log' q' ps' b => r'.Keeps (queueSize T) q' ∧ Tale ops log ps q log' ps' b q' := by
  cases o? with
  | none =>
    simp only [Logged.follow, Peep.follow]
    exact tells_pure ⟨hr, hlog, .refl⟩
  | some o =>
    simp only [Logged.follow, Peep.follow]
    refine tells_step_bind (y := liftM (TreeM.node o : TreeM Node)) rfl (tells_step_bind (y := get) rfl ?_)
    refine tells_ite (fun _ => tells_pure ⟨hr, hlog, .refl⟩) fun hno => ?_
    simp only [Bool.or_eq_true, not_or, Bool.not_eq_true, Option.isSome_eq_false_iff,
      Option.isNone_iff_eq_none] at hno
    obtain ⟨hp, hf⟩ := hno
    have hlo := hlead o rfl hp
    obtain ⟨hvisit, hbranch⟩ := hlog.visit (hops hi hlo) (R.lt hi hlo) hp
    refine tells_step_bind (y := liftM (TreeM.update o _ : TreeM Unit)) rfl ?_
    refine tells_step_bind (y := modify _) rfl (tells_note_bind ?_)
    have hi' : Inv { ps with stats := { ps.stats with visited := ps.stats.visited + 1 } } a :=
      R.stats hi rfl rfl rfl
    refine tells_lift_bind ((R.visit hi' hs hlo hp hf).and (@quietly_visit False o prev s (fun hn => hn.elim) _ _)) ?_
    rintro v ps₁ b ⟨⟨hi₁, hlater, hslots, hv⟩, hquiet⟩
    have hqb : ∀ s ∈ q, Slot b s := fun s hs => hslots s (hq s hs)
    have hlog₁ := hvisit.later hquiet hlater
    have hstep : Settles log ps q (log ++ [.visit o]) ps₁ q := fun _ =>
      ⟨hf, fun w ho => by simpa [Owes, walks, waits] using ho⟩
    cases v with
    | goOn next keep =>
      refine (h.follow hi₁ (hslots s hs) hqb (fun z hz _ => hv z hz) hr hlog₁).mono ?_
      rintro r' log' q' ps' c ⟨hr', htale⟩
      exact ⟨hr', htale.faithful, hstep.trans htale.settles⟩
    | branch =>
      refine ((h.setAside hi₁ hqb hr hlog₁ hbranch).and ((walk_rule R fuel).2.2.2.2 hi₁ hv hqb (Or.inl trivial))).bind ?_
      rintro r₂ log₂ q₂ ps₂ c ⟨⟨hr₂, htale⟩, hi₂, hlater₂, hq₂, -⟩
      refine tells_step_bind (y := liftM (TreeM.node o : TreeM Node)) rfl ?_
      refine (h.follow hi₂ (hlater₂.slot s (hslots s hs)) hq₂
        (fun z hz _ => R.next hi₂ (hlater₂.slot _ hv) hz) hr₂ htale.faithful).mono ?_
      rintro r' log' q' ps' d ⟨hr', htale'⟩
      exact ⟨hr', htale'.faithful, (hstep.trans htale.settles).trans htale'.settles⟩

include R h in
theorem told_chain {s : PeepSlot} {r : Ring PeepSlot} {q : List PeepSlot} (hi : Inv ps a) (hs : Slot a s)
    (hq : ∀ s ∈ q, Slot a s) (hr : r.Keeps (queueSize T) q) (hlog : Faithful ops log ps a) :
    Tells (Logged.chain (fuel + 1) s r) (chain (fuel + 1) s q) log ps a fun r' log' q' ps' b =>
      r'.Keeps (queueSize T) q' ∧ Tale ops log ps (s :: q) log' ps' b q' := by
  simp only [Logged.chain, Peep.chain]
  refine tells_note_bind (tells_step_bind (readSlot_apply s) ?_)
  have hhead := fun o (ho : headOf ps a s = some o) => R.head hi hs ho
  refine ((h.follow hi hs hq hhead hr hlog.walk).and
    ((walk_rule R fuel).2.2.2.1 hi hs hq hhead (Or.inl trivial))).bind ?_
  rintro r₁ log₁ q₁ ps₁ b ⟨⟨hr₁, htale⟩, hi₁, hlater, -⟩
  refine tells_lift_bind ((R.skip hi₁ (hlater.slot s hs)).and
    (@quietly_skipNulls False s (fun hn => hn.elim) _ _)) ?_
  rintro _ ps₂ c ⟨⟨-, hlater₁⟩, hquiet⟩
  refine tells_pure ⟨hr₁, htale.faithful.later hquiet hlater₁, fun hf => ?_⟩
  obtain ⟨hf₁, hw⟩ := htale.settles (hquiet.failure hf)
  exact ⟨hf₁, fun w ho => hw w (Owes.walk ho)⟩

include R h in
theorem told_drain {r : Ring PeepSlot} {q : List PeepSlot} (hi : Inv ps a) (hq : ∀ s ∈ q, Slot a s)
    (hr : r.Keeps (queueSize T) q) (hlog : Faithful ops log ps a) :
    Tells (Logged.drain (fuel + 1) r) (drain (fuel + 1) q) log ps a fun _ log' _ ps' b =>
      Tale ops log ps q log' ps' b [] := by
  cases q with
  | nil =>
    simp only [Logged.drain, Peep.drain]
    rw [if_pos (by simpa using hr.held)]
    exact tells_pure ⟨hlog, .refl⟩
  | cons s q =>
    simp only [Logged.drain, Peep.drain]
    rw [if_neg (by rw [hr.held]; exact Nat.succ_ne_zero _)]
    refine tells_step_bind (y := get) rfl (tells_ite (fun hf => tells_pure ⟨hlog, fun hf' => ?_⟩) fun _ => ?_)
    · rw [hf'] at hf
      cases hf
    · obtain ⟨hold, hkeeps⟩ := hr.pop
      generalize r.pop = p at hold hkeeps
      obtain ⟨r₁, old?⟩ := p
      obtain rfl : old? = some s := hold
      have hs := hq s (List.mem_cons_self ..)
      have hq' : ∀ s ∈ q, Slot a s := fun s hs => hq s (List.mem_cons_of_mem _ hs)
      refine ((h.chain hi hs hq' hkeeps hlog).and ((walk_rule R fuel).2.2.1 hi hs hq' (Or.inl trivial))).bind ?_
      rintro r₂ log₂ q₂ ps₂ b ⟨⟨hr₂, htale⟩, hi₂, -, hq₂, -⟩
      refine (h.drain hi₂ hq₂ hr₂ htale.faithful).mono ?_
      rintro _ log' _ ps' c htale'
      exact ⟨htale'.faithful, htale.settles.trans htale'.settles⟩

include R htune h in
theorem told_walk {s : PeepSlot} (hi : Inv ps a) (hs : Slot a s) (hlog : Faithful ops log ps a) :
    Tells (Logged.walk (fuel + 1) s) (walk (fuel + 1) s) log ps a fun _ log' _ ps' b =>
      Tale ops log ps [s] log' ps' b [] := by
  have hframe : ∀ f : PeepState → PeepState, (∀ p, (f p).start = p.start ∧ (f p).failure? = p.failure? ∧
      (f p).statement? = p.statement? ∧ (f p).stats.visited = p.stats.visited ∧
      (f p).stats.deferred = p.stats.deferred) →
      Tells (do
        (modify f : Peep Unit)
        let r ← Logged.chain fuel s (Ring.make (queueSize T))
        Logged.drain fuel r
        (modify fun p => { p with depth := p.depth - 1 } : Peep Unit)) (do
        modify f
        let q ← chain fuel s []
        drain fuel q
        modify fun p => { p with depth := p.depth - 1 }) log ps a fun _ log' _ ps' b =>
        Tale ops log ps [s] log' ps' b [] := by
    intro f hf
    obtain ⟨hstart, hfail, hstate, hvisited, hdeferred⟩ := hf ps
    have hi' := R.stats hi hstart hfail hstate
    refine tells_step_bind (y := modify f) rfl ?_
    refine ((h.chain hi' hs (by simp) (Ring.keeps_make (queueSize_pos T)) (hlog.stats hvisited hdeferred)).and
      ((walk_rule R fuel).2.2.1 hi' hs (by simp) (Or.inl trivial))).bind ?_
    rintro r₁ log₁ q₁ ps₁ b ⟨⟨hr₁, htale⟩, hi₁, -, hq₁, -⟩
    refine (h.drain hi₁ hq₁ hr₁ htale.faithful).bind ?_
    rintro _ log₂ _ ps₂ c htale'
    have hsettles := htale.settles.trans htale'.settles
    refine tells_step_bind (y := modify _) (v := ()) (f := pure) (g := pure) rfl ?_
    refine tells_pure ⟨htale'.faithful.stats rfl rfl, fun hf' => ?_⟩
    obtain ⟨hf₁, hw⟩ := hsettles hf'
    exact ⟨hfail ▸ hf₁, hw⟩
  simp only [Logged.walk, Peep.walk]
  refine tells_step_bind (y := liftM (get : TreeM Arena)) rfl ?_
  rw [htune hi]
  refine tells_ite (fun _ => ?_) fun _ => hframe _ fun p => ⟨rfl, rfl, rfl, rfl, rfl⟩
  exact tells_fatal

end Step

theorem told_rule (R : Rule (fun _ => True) Inv Slot Lead) (htune : ∀ {ps a}, Inv ps a → a.tune = T)
    (hops : ∀ {ps a prev s o}, Inv ps a → Lead a prev s o → o ∈ ops) (fuel : Nat) : Told Inv Slot Lead ops T fuel := by
  induction fuel with
  | zero =>
    refine ⟨fun _ _ _ => tells_fatal, fun {log ps a r q} _ _ hr hlog => ?_, fun _ _ _ _ _ => tells_fatal,
      fun {log ps a s prev o? r q} _ _ _ _ hr hlog => ?_, fun _ _ _ _ _ => tells_fatal⟩
    · cases q with
      | nil =>
        simp only [Logged.drain, Peep.drain]
        rw [if_pos (by simpa using hr.held)]
        exact tells_pure ⟨hlog, .refl⟩
      | cons s q =>
        simp only [Logged.drain, Peep.drain]
        rw [if_neg (by rw [hr.held]; exact Nat.succ_ne_zero _)]
        exact tells_fatal
    · cases o? with
      | none => exact tells_pure ⟨hr, hlog, .refl⟩
      | some o => exact tells_fatal
  | succ fuel ih =>
    exact ⟨told_walk R htune ih, told_drain R ih, told_chain R ih, told_follow R hops ih, told_setAside R htune ih⟩

end Rule

end Peep

end OpTree
