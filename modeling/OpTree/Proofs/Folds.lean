import OpTree.Proofs.Trials
import OpTree.Proofs.Proper

/-!
# Folding

Where an op is replaced by a constant, the chain of the op would have pushed the value of the constant
and done nothing else, on every machine that treats warnings as the unit does. A chain of safe ops
chooses nowhere, so the trial has run all of the tree, and what it has left is what any run leaves.
-/

namespace OpTree

set_option autoImplicit false

namespace Tree

/-- In a proper tree of safe ops every list but the root has a context of its own: no op was
neutralized, and those that may be folded wait for operands of a known context. -/
theorem Proper.known_of_safe {t : Tree} (h : t.Proper) (hex : t.op.isEx = false)
    (hs : ∀ u ∈ t.subtrees, u.op.code.foldSafe = true) {u : Tree} (hu : u ∈ t.subtrees) :
    u = t ∨ (u.op.code = .list → u.op.want ≠ .unknown) := by
  induction t using Tree.induct with
  | h r o ks ih =>
    rcases mem_subtrees_mk.mp hu with rfl | ⟨k, hk, hu⟩
    · exact Or.inl rfl
    · refine Or.inr ?_
      have hsafe : o.code.foldSafe = true := hs _ (self_mem_subtrees _)
      have hmem : k.op ∈ ks.map Tree.op := List.mem_map_of_mem hk
      have hkex : k.op.isEx = false := by
        by_contra hkex
        rcases h.op.user _ hmem (by simpa using hkex) with hc | hc <;> rw [op_mk] at hc <;>
          simp [hc, Opcode.foldSafe, Opcode.foldable] at hsafe
      rcases ih k hk (h.kid hk) hkex (fun v hv => hs v (mem_subtrees_mk.mpr (Or.inr ⟨k, hk, hv⟩))) hu
        with rfl | hknown
      · exact h.op.known hsafe hex _ hmem
      · exact hknown

/-- No length in the tree may be reduced to a truth where nothing is asked of it. -/
def Definite (t : Tree) : Prop :=
  ∀ u ∈ t.subtrees, u.op.code = .length → u.op.priv.has Priv.maybeTrueBool = false

end Tree

namespace Arena

open OpTree.Tree

variable {a : Arena} {o : RecId}

/-- Nothing chooses in a tree: its ops are safe, and each leads to another one or out to `q`. -/
structure Straight (a : Arena) (t : Tree) (q : Option RecId) : Prop where
  safe : ∀ u ∈ t.subtrees, u.op.code.foldSafe = true
  link : ∀ r ∈ t.recs, ∀ z, (a.node r).next = some z → z ∈ t.recs ∨ q = some z

/-- A chain that is safe up to `o` and has not come there is safe from the next op on. -/
theorem chainSafe_next {fuel : Nat} {r : RecId} (h : a.chainSafe o fuel (some r) = true) (hr : r ≠ o) :
    (a.node r).code.foldSafe = true ∧ ∃ n, a.chainSafe o n (a.node r).next = true := by
  cases fuel with
  | zero => cases h
  | succ n =>
    simp only [chainSafe, Bool.or_eq_true, beq_iff_eq, hr, false_or, Bool.and_eq_true] at h
    exact ⟨h.1, n, h.2⟩

/-- A list of trees, each of which is run through by a safe chain, is run through by one. -/
theorem straight_kids {ks : List Tree} {r : RecId} {fuel : Nat}
    (hks : ∀ p ∈ follow ks r, ∀ n, a.chainSafe o n (some p.1.start) = true →
      a.Straight p.1 (some p.2) ∧ ∃ n', a.chainSafe o n' (some p.2) = true)
    (hs : a.chainSafe o fuel (some (startAll ks r)) = true) :
    (∀ k ∈ ks, ∀ u ∈ k.subtrees, u.op.code.foldSafe = true) ∧
      (∀ e ∈ ks.flatMap Tree.recs, ∀ z, (a.node e).next = some z → z ∈ ks.flatMap Tree.recs ∨ z = r) ∧
      ∃ n, a.chainSafe o n (some r) = true := by
  induction ks generalizing fuel with
  | nil => exact ⟨by simp, by simp, fuel, hs⟩
  | cons k ks ih =>
    cases ks with
    | nil =>
      obtain ⟨hk, hr⟩ := hks (k, r) (List.mem_singleton_self _) fuel hs
      refine ⟨by simpa using hk.safe, fun e he z hz => ?_, hr⟩
      simp only [List.flatMap_cons, List.flatMap_nil, List.append_nil] at he ⊢
      exact (hk.link e he z hz).imp_right fun h => (Option.some.inj h).symm
    | cons j js =>
      obtain ⟨hk, n, hj⟩ := hks (k, j.start) (List.mem_cons_self ..) fuel hs
      obtain ⟨hsafe, hlink, hr⟩ := ih (fun p hp => hks p (List.mem_cons_of_mem _ hp)) hj
      refine ⟨List.forall_mem_cons.mpr ⟨hk.safe, hsafe⟩, fun e he z hz => ?_, hr⟩
      rw [List.flatMap_cons] at he ⊢
      rcases List.mem_append.mp he with he | he
      · rcases hk.link e he z hz with h | h
        · exact Or.inl (List.mem_append_left _ h)
        · obtain rfl := Option.some.inj h
          have hstart : j.start ∈ (j :: js).flatMap Tree.recs :=
            List.mem_append_left _ j.start_mem_recs
          exact Or.inl (List.mem_append_right _ hstart)
      · exact (hlink e he z hz).imp_left (List.mem_append_right _)

/-- A tree whose kids are run through by safe chains, and that does not choose itself. -/
theorem straight_mk {r : RecId} {op : Node} {ks : List Tree} {q : Option RecId}
    (hsafe : op.code.foldSafe = true) (hq : (a.node r).next = q)
    (hks : ∀ k ∈ ks, ∀ u ∈ k.subtrees, u.op.code.foldSafe = true)
    (hlink : ∀ e ∈ ks.flatMap Tree.recs, ∀ z, (a.node e).next = some z →
      z ∈ ks.flatMap Tree.recs ∨ z = r) : a.Straight (.mk r op ks) q where
  safe u hu := by
    rcases mem_subtrees_mk.mp hu with rfl | ⟨k, hk, hu⟩
    · exact hsafe
    · exact hks k hk u hu
  link e he z hz := by
    rw [recs_mk] at he ⊢
    rcases List.mem_cons.mp he with rfl | he
    · exact Or.inr (hq.symm.trans hz)
    · rcases hlink e he z hz with h | rfl
      · exact Or.inl (List.mem_cons_of_mem _ h)
      · exact Or.inl (List.mem_cons_self ..)

/-- A safe chain that enters a tree comes out of it and has been through all of it, for an op that
chooses is not safe. -/
theorem Flow.straight {t : Tree} {q : Option RecId} {fuel : Nat} (h : a.Flow t q) (hh : a.Holds t)
    (ho : o ∉ t.recs) (hs : a.chainSafe o fuel (some t.start) = true) :
    a.Straight t q ∧ ∃ n, a.chainSafe o n q = true := by
  have hchoice : ∀ {u : Tree} {n : Nat}, a.Holds u → u.op.code.branches = true → o ≠ u.root →
      a.chainSafe o n (some u.root) = true → False := by
    intro u n hu hb hne hn
    have hsafe := (chainSafe_next hn hne.symm).1
    rw [← Node.plain_code, hu.fits.op] at hsafe
    revert hb hsafe
    cases u.op.code <;> simp [Opcode.branches, Opcode.foldSafe, Opcode.foldable]
  induction h generalizing fuel with
  | @op r op ks q hb hl hks hq ih =>
    have hmem : ∀ p ∈ follow ks r, p.1 ∈ ks := fun p hp => mem_of_mem_follow hp
    have hout : ∀ k ∈ ks, o ∉ k.recs := fun k hk hm => ho (kid_recs_subset hk hm)
    rw [start_mk] at hs
    obtain ⟨hsafe, hlink, n, hr⟩ := straight_kids (fun p hp n hn =>
      ih p hp (hh.kid (hmem p hp)) (hout _ (hmem p hp)) hn) hs
    obtain ⟨hcode, hnext⟩ := chainSafe_next hr fun h => ho (by simp [h])
    rw [← Node.plain_code, show (a.node r).plain = op from hh.fits.op] at hcode
    rw [hq] at hnext
    exact ⟨straight_mk hcode hq hsafe hlink, hnext⟩
  | @logop l op x y q hb hx _ _ _ ihx =>
    rw [start_mk] at hs
    obtain ⟨-, n, hl⟩ := ihx (hh.kid (by simp)) (fun hm => ho (by simp [hm])) hs
    exact (hchoice hh hb (fun h => ho (by simp [h])) hl).elim
  | @cond l op x y z q hb hx _ _ _ _ ihx =>
    rw [start_mk] at hs
    obtain ⟨-, n, hl⟩ := ihx (hh.kid (by simp)) (fun hm => ho (by simp [hm])) hs
    exact (hchoice hh hb (fun h => ho (by simp [h])) hl).elim
  | @loop r w l s op wo lo so ent iter body q hloop hw hb hent hiter hne _ _ _ _ _ ihent ihiter =>
    rw [start_mk] at hs
    have hl := ((hh.kid (k := .mk w wo [.mk l lo [iter, .mk s so body]]) (by simp)).kid
      (k := .mk l lo [iter, .mk s so body]) (by simp))
    obtain ⟨-, n, hi⟩ := ihent (hh.kid (by simp)) (fun hm => ho (by simp [hm])) hs
    obtain ⟨-, n, hn⟩ := ihiter (hl.kid (by simp)) (fun hm => ho (by simp [hm])) hi
    exact (hchoice hl hb (fun h => ho (by simp [h])) hn).elim

theorem Flow.straight_root {t : Tree} {q : Option RecId} {fuel : Nat} (h : a.Flow t q) (hh : a.Holds t)
    (hn : t.recs.Nodup) (hc : t.op.code.foldSafe = true)
    (hs : a.chainSafe t.root fuel (some t.start) = true) : a.Straight t q := by
  obtain ⟨r, op, ks⟩ := t
  have hb : op.code.branches = false := by
    revert hc
    rw [op_mk]
    cases op.code <;> simp [Opcode.branches, Opcode.foldSafe, Opcode.foldable]
  have hl : isLoop op ks = false := by
    refine Build.isLoop_of_code_ne (fun hloop => ?_) ks
    simp [hloop, Opcode.foldSafe, Opcode.foldable] at hc
  obtain ⟨hks, hq⟩ := h.op_inv hb hl
  have hmem : ∀ p ∈ follow ks r, p.1 ∈ ks := fun p hp => mem_of_mem_follow hp
  rw [start_mk] at hs
  obtain ⟨hsafe, hlink, -⟩ := straight_kids (fun p hp n hn' => (hks p hp).straight (hh.kid (hmem p hp))
    (fun hm => root_notMem_kids hn (List.mem_flatMap.mpr ⟨p.1, hmem p hp, hm⟩)) hn') hs
  exact straight_mk hc hq hsafe hlink

end Arena

theorem Machine.bare_orderly : Machine.bare.Orderly :=
  ⟨Nat.le_refl 0, ⟨Nat.le_refl 2, rfl, rfl⟩, by simp [Machine.bare]⟩

namespace Exec

open Arena OpTree.Tree Machine

variable {a : Arena}

theorem tracks_start {m : Machine} (hm : m.Orderly) (hw : m.noWarn = !a.tune.warnings) :
    Tracks m a.trying.trialMachine m := by
  have hvoid : a.trying.trialMachine.gimme ≠ .void := by
    intro hvoid
    cases hvoid
  refine ⟨[], [], [], ⟨Nat.le_refl 0, rfl, rfl⟩, ⟨hm.room, by simp, by simp⟩, .nil, ⟨rfl, hw, hvoid, rfl⟩, ?_, hm,
    .refl _, rfl⟩
  exact ⟨Nat.le_refl 2, rfl, rfl⟩

/-- A machine that has followed a trial to its one scalar has pushed a scalar of that value. -/
theorem tracks_end {b m n : Machine} {v : Value} (h : Tracks b m n) (hv : m.onlyScalar? = some v) :
    ∃ d, n.stack = b.stack ++ [.scalar (some d)] ∧ (n.heap.cell d).value = v ∧ n.marks = b.marks := by
  obtain ⟨xs, ys, ks, h⟩ := h
  unfold onlyScalar? at hv
  split at hv
  · rename_i honly
    simp only [Bool.and_eq_true, decide_eq_true_eq, List.isEmpty_iff] at honly
    obtain rfl : ks = [] := h.left.marks.symm.trans honly.2
    obtain ⟨x, rfl⟩ := List.length_eq_one_iff.mp (h.left.length.trans honly.1)
    obtain ⟨y, rfl⟩ := List.length_eq_one_iff.mp h.alike.length_eq.symm
    obtain ⟨c, d, rfl, rfl, -, -, hval⟩ := (List.forall₂_cons.mp h.alike).1
    have hslot : m.slots.getD 0 .vacant = .scalar (some c) := by
      have hstack := h.left.stack
      rw [stack_eq, honly.1, List.take_one] at hstack
      rw [Array.getD_eq_getD_getElem?, ← Array.getElem?_toList, ← List.head?_eq_getElem?]
      cases hhead : m.slots.toList.head? with
      | none => simp [hhead] at hstack
      | some x =>
        rw [hhead] at hstack
        simpa using hstack
    rw [hslot] at hv
    obtain rfl := Option.some.inj hv
    exact ⟨d, h.right.stack, hval, h.right.marks⟩
  · cases hv

end Exec

namespace TreeM

open Arena Build OpTree.Tree

/-- What may be folded: an op that a constructor has just made, and one that is built already. -/
inductive Foldee : List RecId → TreeM RecId → Prop where
  | unop (t : Opcode) (k? : Option RecId) (p : Priv) : Foldee k?.toList (rawUnop t k? p)
  | binop (t : Opcode) (x y : RecId) : Foldee [x, y] (rawBinop t x y)
  | listop (t : Opcode) (ks : List RecId) : Foldee ks (rawListop t ks)
  | built (r : RecId) : Foldee [r] (pure r)

variable {a b c : Arena} {ks rs : List RecId} {x : TreeM RecId} {o k : RecId}

/-- A tree that is about to be folded is proper and stands ready for the linearizer. -/
theorem Foldee.site (hx : Foldee ks x) (h : Built a (ks ++ rs)) (hok : x a = .ok o b) :
    ∃ t ts, t.root = o ∧ t.Finished ∧ b.Site (t :: ts) := by
  obtain ⟨us, hus, hmade, hs⟩ := h.made
  obtain ⟨js, ts, rfl, hjs, -⟩ := List.map_eq_append_iff.mp hus
  have hks : ∀ k ∈ js, k.Finished := fun k hk => (hmade k (by simp [hk])).finished
  have hent : ∀ k ∈ js, k.op.code ≠ .enteriter := fun k hk => (hmade k (by simp [hk])).code_ne_enteriter
  cases hx with
  | unop t k? p =>
    cases k? with
    | none =>
      obtain rfl : js = [] := by simpa using hjs
      obtain ⟨ht, hb⟩ := rawUnop_none_ok hs hok
      exact ⟨_, _, rfl, (Makes.unopNone _ _ _ ht (Or.inl rfl)).finished hent hks, hb⟩
    | some k =>
      obtain ⟨k, rfl, rfl⟩ := List.map_eq_singleton_iff.mp hjs
      obtain ⟨ht, hb⟩ := rawUnop_ok hs hok
      exact ⟨_, _, rfl, (Makes.unop _ _ _ _ ht (Or.inl rfl)).finished hent hks, hb⟩
  | binop t x y =>
    obtain ⟨k, j, rfl, rfl, rfl⟩ := roots_two hjs
    obtain ⟨ht, hb⟩ := rawBinop_ok hs (hent k (by simp)) hok
    exact ⟨_, _, rfl, (Makes.binop _ _ _ _ ht (Or.inl rfl)).finished hent hks, hb⟩
  | listop t qs =>
    subst hjs
    obtain ⟨ht, m, hb⟩ := rawListop_ok hs hok
    exact ⟨_, _, root_snocAll _ _, (Makes.listop _ _ _ _ _ ht (Or.inl rfl)).finished hent hks, hb⟩
  | built r =>
    obtain ⟨k, rfl, rfl⟩ := List.map_eq_singleton_iff.mp hjs
    obtain ⟨rfl, rfl⟩ := pure_eq_ok.mp hok
    exact ⟨k, ts, rfl, hks k (by simp), hs⟩

theorem run_of_trial {start : Option RecId} {v : Value} (h : trial o start a = .ok (some v) b) :
    ∃ m, Exec.run ⟨b.recs, none⟩ b.bound start b.trying.trialMachine = .ok () m ∧ m.onlyScalar? = some v := by
  rw [trial_apply start (trial_ok h)] at h
  split at h
  · rename_i m hrun
    exact ⟨m, hrun, (EStateM.Result.ok.inj h).1⟩
  · split at h <;> cases h

/-- The ops of a tree that was tried may be folded, and their chain does not leave the tree. -/
theorem Tried.ops_foldable {t : Tree} {ts : List Tree} {v : Value} {m : Machine} (h : Tried b c t ts v)
    (hh : b.Holds t) (hn : t.recs.Nodup) (hfin : t.Finished) (hdef : m.gimme = .void → t.Definite)
    (hkeeps : ∀ u ∈ t.subtrees, m.Keeps u.op) :
    ∀ r ∈ t.recs, Exec.Foldable m ((c.update t.root fun n => { n with next := none, real := true }).node r) ∧
      ∀ q, ((c.update t.root fun n => { n with next := none, real := true }).node r).next = some q → q ∈ t.recs := by
  have hc := h.site.holds t (by simp)
  have hstraight := h.linked.straight_root hc hn (Opcode.foldSafe_of_foldable h.foldable) h.safe
  have hthread : Rethreaded c (c.update t.root fun n => { n with next := none, real := true }) [t.root] :=
    .of_update (List.mem_singleton_self _)
  intro r hr
  obtain ⟨u, hu, rfl⟩ := List.mem_map.mp hr
  have hop := ((hthread.holds hc).subtree hu).fits.op
  have hcode := congrArg Node.code hop
  rw [Node.plain_code] at hcode
  constructor
  · refine ⟨hcode ▸ hstraight.safe u hu, fun hlist => ?_, fun hlength hvoid => ?_, fun hconst k hk => ?_⟩
    · rw [hcode] at hlist
      rw [← Node.want_plain, hop]
      rcases hfin.proper.known_of_safe hfin.isEx hstraight.safe hu with rfl | hknown
      · have hcan := h.foldable
        simp [hlist, Opcode.foldable] at hcan
      · exact hknown hlist
    · rw [hcode] at hlength
      exact (congrArg (fun n : Node => n.priv.has Priv.maybeTrueBool) hop).trans (hdef hvoid u hu hlength)
    · rw [hcode] at hconst
      have hid : Node.id _ = u.op.id := congrArg Node.id hop
      have hval : Node.val _ = u.op.val := congrArg Node.val hop
      obtain ⟨hlt, hvalue⟩ := hkeeps u hu hconst k (hid ▸ hk)
      exact ⟨hlt, hvalue.trans (congrArg Payload.value hval).symm⟩
  · intro q hq
    by_cases hroot : u.root = t.root
    · rw [hroot, node_update_self (hc.lt t.root_mem_recs)] at hq
      cases hq
    · rw [node_update_of_ne hroot] at hq
      rcases hstraight.link u.root hr q hq with hq | hq
      · exact hq
      · obtain rfl := Option.some.inj hq
        exact t.start_mem_recs

/-- Where an op is replaced by a constant, the chain of the op runs well on every machine that treats
warnings as the unit does and keeps no other cells for const ops than such with their values. It pushes one
scalar, which has the value of the constant, and leaves the rest of the machine as it is, but for new cells.
In void context no length may be reduced to a truth. -/
theorem fold_run (h : Built a (ks ++ rs)) (hx : Foldee ks x) (hok : x a = .ok o b)
    (hfold : fold o b = .ok k c) (hk : k ≠ o) :
    (c.node k).code = .const ∧ ∃ start d, chain o b = .ok start d ∧
      ∀ names? (m : Machine), m.Orderly → m.noWarn = !b.tune.warnings → (m.gimme = .void → (b.tree o).Definite) →
        (∀ u ∈ (b.tree o).subtrees, m.Keeps u.op) →
        ∃ m' cell, Exec.run (d.code names?) d.bound start m = .ok () m' ∧
          m'.stack = m.stack ++ [.scalar (some cell)] ∧
          (m'.heap.cell cell).value = (c.node k).val.value ∧ m'.marks = m.marks ∧
          m.heap.Grown m'.heap ∧ m'.offStack = { m.offStack with heap := m'.heap } := by
  obtain ⟨t, ts, rfl, hfin, hsite⟩ := hx.site h hok
  have hh := hsite.holds t (by simp)
  have hn := hsite.toStand.nodup_head
  rw [hh.tree_eq hn]
  rcases fold_cases hsite hfold with ⟨rfl, -⟩ | ⟨-, e, v, line, id, htried, hc⟩
  · exact absurd rfl hk
  have hplain : (c.node k).plain = _ := (hc.holds _ (List.mem_cons_self ..)).fits.op
  have hcode : (c.node k).code = .const := by rw [← Node.plain_code, hplain, op_mk]
  have hval : (c.node k).val.value = v := by
    rw [show (c.node k).val = (c.node k).plain.val from rfl, hplain]
    rfl
  obtain ⟨d, htrial⟩ := htried.trial
  have hd := trial_ok htrial
  obtain ⟨n, hrun, hscalar⟩ := run_of_trial htrial
  have hchain : chain t.root b = .ok (some t.start) d := by
    rw [chain, bind_of_ok htried.linearize, bind_of_ok (setNext_apply _ _ _), ← hd]
    rfl
  refine ⟨hcode, _, d, hchain, ?_⟩
  intro names? m hm hw hdef hkeeps
  have hfoldable := htried.ops_foldable hh hn hfin hdef hkeeps
  rw [← hd] at hfoldable
  have hwarn : m.noWarn = !d.tune.warnings := by
    rw [hw, hd, htried.rest]
    rfl
  have htracks := Exec.tracks_start hm hwarn
  have hstart : ∀ r, some t.start = some r → r ∈ t.recs := by
    rintro _ ⟨⟩
    exact t.start_mem_recs
  obtain ⟨⟨⟩, m', hrun', hend⟩ := @Exec.follows_run m d.recs _ hfoldable names? d.bound _ hstart _ _ htracks _ _ hrun
  obtain ⟨cell, hstack, hcell, hmarks⟩ := Exec.tracks_end hend hscalar
  obtain ⟨_, _, _, hend⟩ := hend
  exact ⟨m', cell, hrun', hstack, hcell.trans hval.symm, hmarks, hend.grown, hend.rest⟩

/-- The sum of two constants is folded. -/
theorem fold_run_sum : ∃ a x y b o k c, Built a ([x, y] ++ []) ∧ Foldee [x, y] (rawBinop .add x y) ∧
    rawBinop .add x y a = .ok o b ∧ fold o b = .ok k c ∧ k ≠ o ∧ Machine.bare.Orderly ∧
    (Machine.bare.noWarn = !b.tune.warnings) ∧ Machine.bare.gimme = .void ∧ (b.tree o).Definite ∧
    (∀ u ∈ (b.tree o).subtrees, Machine.bare.Keeps u.op) ∧ (c.node k).code = .const ∧
    ∃ start d m cell, chain o b = .ok start d ∧
      Exec.run (d.code none) d.bound start Machine.bare = .ok () m ∧
      m.stack = Machine.bare.stack ++ [.scalar (some cell)] ∧ (m.heap.cell cell).value = (c.node k).val.value := by
  have hall : yields (Build.const (.int 2)) {} (fun y a => yields (Build.const (.int 1)) a fun x a =>
      yields (rawBinop .add x y) a fun o b => yields (fold o) b fun k _ =>
        decide (k ≠ o) && b.tune.warnings && (b.tree o).subtrees.all fun u => u.op.code != .length) = true := by
    decide +kernel
  obtain ⟨y, a₁, hy, hall⟩ := ok_of_yields hall
  obtain ⟨x, a, hx, hall⟩ := ok_of_yields hall
  obtain ⟨o, b, ho, hall⟩ := ok_of_yields hall
  obtain ⟨k, c, hk, hall⟩ := ok_of_yields hall
  simp only [Bool.and_eq_true, decide_eq_true_eq, List.all_eq_true, bne_iff_ne] at hall
  obtain ⟨⟨hne, hwarn⟩, hlength⟩ := hall
  have hb₁ : Built a₁ ([] ++ [y]) := (show Built {} ([] ++ []) from .start rfl (by simp)).call (.const _) hy
  have hb : Built a ([x, y] ++ []) := hb₁.call (.const _) hx
  have hraw : Foldee [x, y] (rawBinop .add x y) := .binop .add x y
  have hsame : Machine.bare.noWarn = !b.tune.warnings := by rw [hwarn]; rfl
  have hdef : (b.tree o).Definite := fun u hu he => absurd he (hlength u hu)
  have hkeeps : ∀ u ∈ (b.tree o).subtrees, Machine.bare.Keeps u.op := by
    intro u _ _ k hk
    cases hk
  obtain ⟨hconst, start, d, hchain, hrun⟩ := fold_run hb hraw ho hk hne
  obtain ⟨m, cell, hm, hstack, hvalue, -⟩ := hrun none Machine.bare Machine.bare_orderly hsame (fun _ => hdef) hkeeps
  exact ⟨a, x, y, b, o, k, c, hb, hraw, ho, hk, hne, Machine.bare_orderly, hsame, rfl, hdef, hkeeps, hconst, start, d,
    m, cell, hchain, hm, hstack, hvalue⟩

def apart : Value → Value → Bool
  | .bool _, .int _ => true
  | _, _ => false

theorem ne_of_apart {v w : Value} (h : apart v w = true) : v ≠ w := by
  rintro rfl
  cases v <;> cases h

/-- A length that is no more than a truth where nothing is asked of it is folded to the number: in void
context its chain pushes the truth. -/
theorem not_fold_run_length : ∃ a s b o k c start d m, Built a ([s] ++ []) ∧
    Foldee [s] (rawUnop .length (some s) Priv.maybeTrueBool) ∧
    rawUnop .length (some s) Priv.maybeTrueBool a = .ok o b ∧ fold o b = .ok k c ∧ k ≠ o ∧
    chain o b = .ok start d ∧ Machine.bare.Orderly ∧ (Machine.bare.noWarn = !b.tune.warnings) ∧
    Exec.run (d.code none) d.bound start Machine.bare = .ok () m ∧
    ∀ cell, m.stack = Machine.bare.stack ++ [.scalar (some cell)] →
      (m.heap.cell cell).value ≠ (c.node k).val.value := by
  have hall : yields (Build.const (.str [97, 98, 99])) {} (fun s a =>
      yields (rawUnop .length (some s) Priv.maybeTrueBool) a fun o b => yields (fold o) b fun k c =>
        yields (chain o) b fun start d => decide (k ≠ o) && b.tune.warnings &&
          yields (Exec.run (d.code none) d.bound start) Machine.bare fun _ m =>
            decide (m.stack = [.scalar (some Machine.yes)]) &&
              apart (m.heap.cell Machine.yes).value (c.node k).val.value) = true := by
    decide +kernel
  obtain ⟨s, a, hs, hall⟩ := ok_of_yields hall
  obtain ⟨o, b, ho, hall⟩ := ok_of_yields hall
  obtain ⟨k, c, hk, hall⟩ := ok_of_yields hall
  obtain ⟨start, d, hd, hall⟩ := ok_of_yields hall
  simp only [Bool.and_eq_true, decide_eq_true_eq] at hall
  obtain ⟨⟨hne, hwarn⟩, hrun⟩ := hall
  obtain ⟨⟨⟩, m, hm, hrun⟩ := ok_of_yields hrun
  simp only [Bool.and_eq_true, decide_eq_true_eq] at hrun
  have hb : Built a ([s] ++ []) := (show Built {} ([] ++ []) from .start rfl (by simp)).call (.const _) hs
  refine ⟨a, s, b, o, k, c, start, d, m, hb, .unop .length (some s) _, ho, hk, hne, hd, Machine.bare_orderly,
    by rw [hwarn]; rfl, hm, fun cell hcell => ?_⟩
  rw [hrun.1] at hcell
  obtain rfl : Machine.yes = cell := by simpa [Machine.bare, Machine.stack] using hcell
  exact ne_of_apart hrun.2

end TreeM

end OpTree
