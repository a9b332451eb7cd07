import OpTree.Proofs.Blocks

/-!
# Linearized units

Whatever is built out of the constructors is linked right: a run along the links of a linearized
unit is the evaluation of its tree by recursion.
-/

namespace OpTree

set_option autoImplicit false

namespace Build

open Arena OpTree.Tree TreeM

/-- A call of a constructor that takes the finished trees at some records. -/
inductive Call : List RecId → TreeM RecId → Prop where
  | const (v : Value) : Call [] (const v)
  | pad (t : Opcode) (targ : Int) (p : Priv) : Call [] (pad t targ p)
  | my (name : Bytes) (shape : Int) : Call [] (my name shape)
  | gv (name : Bytes) : Call [] (gv name)
  | stub : Call [] stub
  | rv2 (t : Opcode) (k : RecId) : Call [k] (rv2 t k)
  | scalar (k : RecId) : Call [k] (scalar k)
  | unop (t : Opcode) (k? : Option RecId) (p : Priv) : Call k?.toList (unop t k? p)
  | binop (t : Opcode) (x y : RecId) : Call [x, y] (binop t x y)
  | listop (t : Opcode) (ks : List RecId) : Call ks (listop t ks)
  | aelem (c k : RecId) : Call [c, k] (aelem c k)
  | helem (c k : RecId) : Call [c, k] (helem c k)
  | existsElem (e : RecId) : Call [e] (existsElem e)
  | deleteElem (e : RecId) : Call [e] (deleteElem e)
  | arylen (av : RecId) : Call [av] (arylen av)
  | sassign (src dst : RecId) : Call [src, dst] (sassign src dst)
  | logop (t : Opcode) (x y : RecId) : Call [x, y] (logop t x y)
  | cond (x y z : RecId) : Call [x, y, z] (cond x y z)
  | foreach (targ : Int) (lo hi : RecId) (body : List Stmt) :
      Call (lo :: hi :: body.filterMap Stmt.expr?) (foreach targ lo hi body)

/-- The arenas that calls of constructors lead to, with the roots of the trees that have no parent
yet. -/
inductive Built : Arena → List RecId → Prop where
  | start {a : Arena} (h : a.recs = #[]) (hg : ∀ g, a.group? = some g → g.free = none) : Built a []
  | perm {a : Arena} {rs qs : List RecId} (h : Built a rs) (hp : rs.Perm qs) : Built a qs
  | addPad {a b : Arena} {rs : List RecId} {name : Bytes} {shape : Int} {i : Nat} (h : Built a rs)
      (hok : addPad name shape a = .ok i b) : Built b rs
  | call {a b : Arena} {ks rs : List RecId} {x : TreeM RecId} {r : RecId} (h : Built a (ks ++ rs))
      (hx : Call ks x) (hok : x a = .ok r b) : Built b (r :: rs)

variable {a b : Arena}

theorem code_of_folded {t t' : Tree} {c : Opcode} (hc : .const ≠ c) (h : Folded t t') (ht : t.op.code ≠ c) :
    t'.op.code ≠ c := by
  rcases h with rfl | ⟨-, r, v, line, id, rfl⟩
  · exact ht
  · exact hc

theorem roots_two {ks : List Tree} {x y : RecId} (h : ks.map Tree.root = [x, y]) :
    ∃ k j, ks = [k, j] ∧ k.root = x ∧ j.root = y := by
  match ks, h with
  | [k, j], h =>
    simp only [List.map_cons, List.map_nil, List.cons.injEq, and_true] at h
    exact ⟨k, j, rfl, h⟩

theorem roots_three {ks : List Tree} {x y z : RecId} (h : ks.map Tree.root = [x, y, z]) :
    ∃ k j i, ks = [k, j, i] ∧ k.root = x ∧ j.root = y ∧ i.root = z := by
  match ks, h with
  | [k, j, i], h =>
    simp only [List.map_cons, List.map_nil, List.cons.injEq, and_true] at h
    exact ⟨k, j, i, rfl, h⟩

theorem ne_of_class {t : Opcode} {c : OpClass} (h : t.opClass = c) (hc : c ≠ .loop) : t ≠ .enteriter := by
  rintro rfl
  exact hc h.symm

theorem Call.site {ks ts : List Tree} {x : TreeM RecId} {r : RecId} (hx : Call (ks.map Tree.root) x)
    (h : a.Site (ks ++ ts)) (hks : ∀ k ∈ ks, k.op.code ≠ .enteriter) (hok : x a = .ok r b) :
    ∃ t, t.root = r ∧ t.op.code ≠ .enteriter ∧ b.Site (t :: ts) := by
  generalize hrs : ks.map Tree.root = rs at hx
  cases hx with
  | const v =>
    obtain rfl : ks = [] := by simpa using hrs
    exact ⟨_, rfl, by simp, const_ok h hok⟩
  | pad t targ p =>
    obtain rfl : ks = [] := by simpa using hrs
    obtain ⟨ht, -, hb⟩ := pad_ok h hok
    exact ⟨_, rfl, by rcases ht with rfl | rfl | rfl <;> simp, hb⟩
  | my name shape =>
    obtain rfl : ks = [] := by simpa using hrs
    obtain ⟨t, targ, ht, -, -, hb⟩ := my_ok h hok
    exact ⟨_, rfl, by rcases ht with rfl | rfl | rfl <;> simp, hb⟩
  | gv name =>
    obtain rfl : ks = [] := by simpa using hrs
    exact ⟨_, rfl, by simp, gv_ok h hok⟩
  | stub =>
    obtain rfl : ks = [] := by simpa using hrs
    exact ⟨_, rfl, by simp, stub_ok h hok⟩
  | rv2 t k =>
    obtain ⟨k, rfl, rfl⟩ := List.map_eq_singleton_iff.mp hrs
    obtain ⟨ht, hb⟩ := rv2_ok h hok
    exact ⟨_, rfl, by rcases ht with rfl | rfl | rfl <;> simp, hb⟩
  | scalar k =>
    obtain ⟨k, rfl, rfl⟩ := List.map_eq_singleton_iff.mp hrs
    exact ⟨_, rfl, by simp, scalar_ok h hok⟩
  | unop t k? p =>
    cases k? with
    | none =>
      obtain rfl : ks = [] := by simpa using hrs
      obtain ⟨ht, o, t', hr, hfold, hb⟩ := unop_none_ok h hok
      exact ⟨t', hr, code_of_folded (by simp) hfold (ne_of_class ht (by simp)), hb⟩
    | some k =>
      obtain ⟨k, rfl, rfl⟩ := List.map_eq_singleton_iff.mp hrs
      obtain ⟨ht, o, t', hr, hfold, hb⟩ := unop_ok h hok
      exact ⟨t', hr, code_of_folded (by simp) hfold (by simpa using ne_of_class ht (by simp)), hb⟩
  | binop t x y =>
    obtain ⟨k, j, rfl, rfl, rfl⟩ := roots_two hrs
    obtain ⟨ht, o, t', hr, hfold, hb⟩ := binop_ok h (hks k (by simp)) hok
    exact ⟨t', hr, code_of_folded (by simp) hfold (by simpa using ne_of_class ht (by simp)), hb⟩
  | listop t qs =>
    subst hrs
    obtain ⟨ht, o, m, t', hr, hfold, hb⟩ := listop_ok h hok
    refine ⟨t', hr, code_of_folded (by simp) hfold ?_, hb⟩
    rw [code_snocAll]
    simpa using ne_of_class ht (by simp)
  | aelem c k =>
    obtain ⟨c, k, rfl, rfl, rfl⟩ := roots_two hrs
    exact ⟨_, rfl, by simp, aelem_ok h hok⟩
  | helem c k =>
    obtain ⟨c, k, rfl, rfl, rfl⟩ := roots_two hrs
    exact ⟨_, rfl, by simp, helem_ok h hok⟩
  | existsElem e =>
    obtain ⟨e, rfl, rfl⟩ := List.map_eq_singleton_iff.mp hrs
    exact ⟨_, rfl, by simp, (elemop_ok h (Or.inl rfl) hok).2⟩
  | deleteElem e =>
    obtain ⟨e, rfl, rfl⟩ := List.map_eq_singleton_iff.mp hrs
    exact ⟨_, rfl, by simp, (elemop_ok h (Or.inr rfl) hok).2⟩
  | arylen av =>
    obtain ⟨av, rfl, rfl⟩ := List.map_eq_singleton_iff.mp hrs
    exact ⟨_, rfl, by simp, arylen_ok h hok⟩
  | sassign src dst =>
    obtain ⟨src, dst, rfl, rfl, rfl⟩ := roots_two hrs
    exact ⟨_, rfl, by simp, sassign_ok h hok⟩
  | logop t x y =>
    obtain ⟨k, j, rfl, rfl, rfl⟩ := roots_two hrs
    obtain ⟨-, l, i, i', hb⟩ := logop_ok h hok
    exact ⟨_, rfl, by simp, hb⟩
  | cond x y z =>
    obtain ⟨c, k, j, rfl, rfl, rfl, rfl⟩ := roots_three hrs
    obtain ⟨l, i, i', hb⟩ := cond_ok h hok
    exact ⟨_, rfl, by simp, hb⟩
  | foreach targ lo hi body =>
    obtain ⟨lo, ks, rfl, rfl, hrest⟩ := List.map_eq_cons_iff.mp hrs
    obtain ⟨hi, es, rfl, rfl, hes⟩ := List.map_eq_cons_iff.mp hrest
    obtain ⟨ks, ent, s, u, t, l, w, i₁, i₂, i₃, i₄, i₅, i₆, i₇, -, hb⟩ := foreach_ok h hes hok
    exact ⟨_, rfl, by simp [loopTree], hb⟩

theorem Built.site {rs : List RecId} (h : Built a rs) :
    ∃ ts, ts.map Tree.root = rs ∧ (∀ t ∈ ts, t.op.code ≠ .enteriter) ∧ a.Site ts := by
  induction h with
  | @start a h hg =>
    refine ⟨[], rfl, by simp, ⟨⟨by simp, by simp, [], ?_⟩, by simp⟩, by simp⟩
    exact ⟨hg, List.nodup_nil, by simp, by simp⟩
  | @perm a rs qs h hp ih =>
    obtain ⟨ts, rfl, hts, hs⟩ := ih
    have hcomp := congrFun (congrFun (List.eq_map_comp_perm Tree.root) qs) ts
    obtain ⟨us, rfl, hus⟩ := hcomp.mpr hp.symm
    exact ⟨us, rfl, fun t ht => hts t (hus.mem_iff.mp ht), hs.perm hus.symm⟩
  | addPad h hok ih =>
    obtain ⟨ts, rfl, hts, hs⟩ := ih
    exact ⟨ts, rfl, hts, addPad_ok hs hok⟩
  | call h hx hok ih =>
    obtain ⟨us, hus, hcode, hs⟩ := ih
    obtain ⟨ks, ts, rfl, rfl, rfl⟩ := List.map_eq_append_iff.mp hus
    obtain ⟨t, rfl, ht, hb⟩ := hx.site hs (fun k hk => hcode k (by simp [hk])) hok
    refine ⟨t :: ts, rfl, fun u hu => ?_, hb⟩
    rcases List.mem_cons.mp hu with rfl | hu
    · exact ht
    · exact hcode u (by simp [hu])

end Build

namespace Arena

open OpTree.Tree Exec

variable {a : Arena} {names? : Option Pad}

theorem bind_congr_left {α β : Type} {x y : Exec α} {m : Machine} (h : x m = y m) (f : α → Exec β) :
    (x >>= f) m = (y >>= f) m := by
  cases hx : y m with
  | ok v m' => rw [bind_of_ok (h.trans hx), bind_of_ok hx]
  | error e m' => rw [bind_of_error (h.trans hx), bind_of_error hx]

theorem run_none (code : Code) (n : Nat) : run code n none = pure () := by cases n <;> rfl

/-- A unit whose root ends the run is evaluated up to its root, by way of a return or not, and then
its root is. -/
theorem run_unit (names? : Option Pad) {r : RecId} {o : Node} {ks : List Tree} (hh : a.Holds (.mk r o ks))
    (hb : o.code.branches = false) (hr : o.code ≠ .ret)
    (hks : ∀ p ∈ follow ks r, a.Flow p.1 (some p.2)) (hn : (a.node r).next = none) {n : Nat}
    {m : Machine} (hm : m.leave = some r) :
    run (a.code names?) n (some (Tree.mk r o ks).start) m =
      (do
        let p ← evalAll names? ks n
        let _ ← Eval.single names? o p.2) m := by
  have hall : Runs (a.code names?) (some (startAll ks r)) (evalAll names? ks) (some r) :=
    runs_evalAll fun p hp => (hks p hp).runs (hh.kid (mem_of_mem_follow hp))
  have hroot : Runs (a.code names?) (some r) (Eval.single names? o) none :=
    Runs.single hh.fits.op hb hn
  have hend : ∀ k, run (a.code names?) k (some r) = (do let _ ← Eval.single names? o k) := fun k => by
    rw [hroot k, Eval.single, if_neg hr, Eval.bind_apply, bind_assoc, bind_assoc]
    congr 1
    funext p
    exact run_none _ p.2
  rw [start_mk, hall n]
  cases h : evalAll names? ks n m with
  | error e m' => rw [bind_of_error h, bind_of_error h]
  | ok p m' =>
    obtain ⟨x, k⟩ := p
    have hthrifty : (evalAll names? ks).Thrifty :=
      thrifty_evalAll_of fun k _ => thrifty_eval names? k k (self_mem_subtrees k)
    have hleave := (hthrifty _ _ _ _ _ h).2.trans hm
    rw [bind_of_ok h, bind_of_ok h]
    cases x with
    | done => exact congrFun (hend k) m'
    | left =>
      have hresume : resume (a.code names?) (some r) (.left, k) m' =
          run (a.code names?) k m'.leave m' := rfl
      rw [hresume, hleave]
      exact congrFun (hend k) m'

theorem runSub_unit {t : Tree} (hh : a.Holds t) (ht : t.op.code = .leavesub) (hflow : a.Flow t none)
    (fuel : Nat) (gimme : Want) (m : Machine) :
    runSub (a.code names?) fuel (some t.start) (some t.root) gimme m =
      Eval.sub names? fuel t gimme m := by
  obtain ⟨r, o, ks⟩ := t
  have hcode : o.code = .leavesub := ht
  obtain ⟨hks, hn⟩ := hflow.op_inv (by rw [hcode]; rfl) (Build.isLoop_of_code_ne (by simp [hcode]) _)
  have hrun := run_unit names? (n := fuel)
    (m := { m with gimme := gimme, leave := some r, result := [] }) hh (by rw [hcode]; rfl)
    (by simp [hcode]) hks hn rfl
  have hleft : runSub (a.code names?) fuel (some (Tree.mk r o ks).start) (some r) gimme m =
      (do
        run (a.code names?) fuel (some (Tree.mk r o ks).start)
        return (← get).result) { m with gimme := gimme, leave := some r, result := [] } := rfl
  have hright : Eval.sub names? fuel (.mk r o ks) gimme m =
      (do
        (do
          let p ← evalAll names? ks fuel
          let _ ← Eval.single names? o p.2)
        return (← get).result) { m with gimme := gimme, leave := some r, result := [] } := by
    simp only [bind_assoc, pure_bind]
    rfl
  rw [root_mk, hleft, hright]
  generalize { m with gimme := gimme, leave := some r, result := [] } = m' at hrun ⊢
  exact bind_congr_left hrun _

end Arena

namespace TreeM

open Arena Build OpTree.Tree

variable {a b : Arena}

/-- Threads a unit: the run of its chain ends with its root. -/
def chain (root : RecId) : TreeM (Option RecId) := do
  let start ← linearize root
  setNext root none
  return start

/-- A run along the links of a unit that is built out of constructors is the evaluation of its tree
by recursion, from any machine, in any context and with any number of ops to execute. -/
theorem runSub_chain {stmts : List Stmt} {rs : List RecId} {root : RecId}
    (h : Built a (stmts.filterMap Stmt.expr? ++ rs)) (hok : Build.sub stmts a = .ok root b) :
    ∃ start c, chain root b = .ok start c ∧ ∀ names? fuel gimme m,
      Exec.runSub (c.code names?) fuel start (some root) gimme m =
        Eval.sub names? fuel (b.tree root) gimme m := by
  obtain ⟨us, hus, -, hsite⟩ := h.site
  obtain ⟨es, ts, rfl, hes, -⟩ := List.map_eq_append_iff.mp hus
  obtain ⟨ks, s, i, j, -, hb⟩ := sub_ok hsite hes hok
  have hh := hb.holds _ (List.mem_cons_self ..)
  have hn := hb.toStand.nodup_head
  have htree : b.tree root = _ := hh.tree_eq hn
  rw [htree]
  clear htree
  generalize grown (.mk s { code := .lineseq, id := j } []) ks = t at *
  obtain ⟨o, ho⟩ : ∃ o : Node, o = { code := .leavesub, flags := 0 ||| Flags.kids, refs := 1, id := i } :=
    ⟨_, rfl⟩
  rw [← ho] at hb hh hn ⊢
  have hcode : o.code = .leavesub := by rw [ho]
  obtain ⟨c, hlin, hbc, hl⟩ := linearize_ok (hb.ready _ (List.mem_cons_self ..)) hh hn
  have hchain : chain root b = .ok (some (Tree.mk root o [t]).start) (c.update root fun n =>
      { n with next := none, real := true }) := by
    rw [root_mk] at hlin
    rw [chain, bind_of_ok hlin, bind_of_ok (setNext_apply _ _ _)]
    rfl
  have hflow := hl.lead (hbc.holds hh) hn (by rw [op_mk, hcode]; rfl) none true
  have hrelinked : Relinked c (c.update root fun n => { n with next := none, real := true }) [root] :=
    Relinked.of_next
  have hholds := hrelinked.holds (hbc.holds hh)
  exact ⟨_, _, hchain, fun names? fuel gimme m => runSub_unit hholds hcode hflow fuel gimme m⟩

def succeeds {α : Type} (x : TreeM α) (a : Arena) : Bool :=
  match x a with
  | .ok _ _ => true
  | .error _ _ => false

theorem ok_of_succeeds {α : Type} {x : TreeM α} (h : succeeds x a = true) : ∃ v b, x a = .ok v b := by
  unfold succeeds at h
  split at h
  · exact ⟨_, _, ‹_›⟩
  · cases h

/-- A sub that reads the variable of a loop from 1 to 3. -/
theorem runSub_chain_loop : ∃ a l root b, Built a [l] ∧ Build.sub [{ expr? := some l }] a = .ok root b ∧
    ∃ start c, chain root b = .ok start c ∧ ∀ names? fuel gimme m,
      Exec.runSub (c.code names?) fuel start (some root) gimme m =
        Eval.sub names? fuel (b.tree root) gimme m := by
  have hall : succeeds (do
      let lo ← Build.const (.int 1)
      let hi ← Build.const (.int 3)
      let x ← Build.pad .padsv 1 0
      let l ← Build.foreach 1 lo hi [{ expr? := some x }]
      Build.sub [{ expr? := some l }]) {} = true := by decide +kernel
  obtain ⟨root, b, hok⟩ := ok_of_succeeds hall
  obtain ⟨lo, a₁, h₁, hok⟩ := bind_eq_ok.mp hok
  obtain ⟨hi, a₂, h₂, hok⟩ := bind_eq_ok.mp hok
  obtain ⟨x, a₃, h₃, hok⟩ := bind_eq_ok.mp hok
  obtain ⟨l, a₄, h₄, hok⟩ := bind_eq_ok.mp hok
  have hnil : Built {} ([] ++ []) := .start rfl (by simp)
  have hlo : Built a₁ [lo] := hnil.call (.const _) h₁
  have hhi : Built a₂ [hi, lo] := Built.call (show Built a₁ ([] ++ [lo]) from hlo) (.const _) h₂
  have hx : Built a₃ [x, hi, lo] := Built.call (show Built a₂ ([] ++ [hi, lo]) from hhi) (.pad ..) h₃
  have hargs : Built a₃ ([lo, hi, x] ++ []) := hx.perm (List.reverse_perm [lo, hi, x])
  have hl : Built a₄ [l] := hargs.call (.foreach 1 lo hi [{ expr? := some x }]) h₄
  have hstmts : Built a₄ ([{ expr? := some l }].filterMap Stmt.expr? ++ []) := hl
  exact ⟨a₄, l, root, b, hl, hok, runSub_chain hstmts hok⟩

end TreeM

end OpTree
