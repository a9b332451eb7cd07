import OpTree.Proofs.Variables

/-!
# Made trees

Which tree a constructor makes of the finished trees it takes, apart from the arena. What holds of
every tree that is built is shown by induction over these rules.
-/

namespace OpTree

set_option autoImplicit false

namespace Build

open Arena OpTree.Tree TreeM

/-- The tree that one call of a constructor makes of finished trees. -/
inductive Makes : List Tree → Tree → Prop where
  | const (r : RecId) (v : Value) (id : Nat) :
      Makes [] (.mk r { code := .const, val := .scalar v, id := id } [])
  | pad (r : RecId) {t : Opcode} (targ : Int) (p : Priv) (id : Nat)
      (ht : t = .padsv ∨ t = .padav ∨ t = .padhv) :
      Makes [] (.mk r { code := t, targ := targ, priv := p, id := id } [])
  | gv (r : RecId) (name : Bytes) (id : Nat) :
      Makes [] (.mk r { code := .gv, name := name, id := id } [])
  | stub (r : RecId) (id : Nat) : Makes [] (.mk r { code := .stub, id := id } [])
  | rv2 (r : RecId) {t : Opcode} (k : Tree) (id : Nat) (ht : t = .rv2sv ∨ t = .rv2av ∨ t = .rv2hv) :
      Makes [k] ((Tree.mk r { code := t, id := id } []).snoc k.wantScalar)
  | scalar (r : RecId) (k : Tree) (id : Nat) :
      Makes [k] ((Tree.mk r { code := .scalar, flags := Want.toBits .scalar, id := id } []).snoc
        k.wantScalar)
  | unop (o : RecId) {t : Opcode} (k : Tree) (p : Priv) (id : Nat) {t' : Tree} (ht : t.opClass = .unop)
      (hf : Folded ((Tree.mk o { code := t, priv := p, id := id } []).snoc k.wantScalar) t') :
      Makes [k] t'
  | unopNone (o : RecId) {t : Opcode} (p : Priv) (id : Nat) {t' : Tree} (ht : t.opClass = .unop)
      (hf : Folded (.mk o { code := t, priv := p, id := id } []) t') : Makes [] t'
  | binop (o : RecId) {t : Opcode} (x y : Tree) (id : Nat) {t' : Tree} (ht : t.opClass = .binop)
      (hf : Folded (((Tree.mk o { code := t, id := id } []).snoc x.wantScalar).snoc y.wantScalar) t') :
      Makes [x, y] t'
  | listop (o m : RecId) {t : Opcode} (ks : List Tree) (i j : Nat) {t' : Tree} (ht : t.opClass = .listop)
      (hf : Folded (snocAll ((Tree.mk o { code := t, id := i } []).snoc
        (.mk m { code := .pushmark, id := j } [])) ks) t') : Makes ks t'
  | elem (r : RecId) {t : Opcode} (c key : Tree) (deref : Priv) (id : Nat)
      (ht : t = .aelem ∨ t = .helem) :
      Makes [c, key] (((Tree.mk r { code := t, id := id } []).snoc
        (derefKid (c.withFlag Flags.ref) deref)).snoc key.wantScalar)
  | elemop (r : RecId) {t : Opcode} (e : Tree) (id : Nat) (ht : t = .existsElem ∨ t = .deleteElem)
      (he : e.op.code = .aelem ∨ e.op.code = .helem) :
      Makes [e] ((Tree.mk r { code := t, id := id } []).snoc (nulled e))
  | arylen (r : RecId) (av : Tree) (id : Nat) :
      Makes [av] ((Tree.mk r { code := .av2arylen, id := id } []).snoc (av.withFlag Flags.ref))
  | sassign (r : RecId) (src dst : Tree) (id : Nat) :
      Makes [src, dst] (((Tree.mk r { code := .sassign, id := id } []).snoc src.wantScalar).snoc
        (dst.withFlag Flags.mod).wantScalar)
  | logop (r l : RecId) {t : Opcode} (x y : Tree) (i j : Nat) (ht : t = .and ∨ t = .or ∨ t = .dor) :
      Makes [x, y] ((Tree.mk r { code := .null, id := j } []).snoc (logTree t l i x.wantScalar y))
  | cond (r l : RecId) (x y z : Tree) (i j : Nat) :
      Makes [x, y, z] ((Tree.mk r { code := .null, id := j } []).snoc (condTree l i x.wantScalar y z))
  | foreach (r ent s u t l w : RecId) (targ : Int) (lo hi : Tree) {body : List Stmt} {es ks : List Tree}
      (i₁ i₂ i₃ i₄ i₅ i₆ i₇ : Nat) (hks : Items false body es ks) :
      Makes (lo :: hi :: es) (loopTree r i₁ (enterTree ent targ i₂ lo hi)
        ((Tree.mk w { code := .null, id := i₃ } []).snoc
          (logTree .and l i₄ (Tree.mk t { code := .iter, id := i₅ } []).wantScalar
            (bodyTree s u i₆ i₇ ks))))

variable {a b : Arena}

/-- A call that takes no part in loops. A unary op has its operand. -/
inductive Lays : List RecId → TreeM RecId → Prop where
  | const (v : Value) : Lays [] (const v)
  | my (name : Bytes) (shape : Int) : Lays [] (my name shape)
  | gv (name : Bytes) : Lays [] (gv name)
  | stub : Lays [] stub
  | rv2 (t : Opcode) (k : RecId) : Lays [k] (rv2 t k)
  | scalar (k : RecId) : Lays [k] (scalar k)
  | unop (t : Opcode) (k : RecId) (p : Priv) : Lays [k] (unop t (some k) p)
  | binop (t : Opcode) (x y : RecId) (ht : t ≠ .leaveloop) : Lays [x, y] (binop t x y)
  | listop (t : Opcode) (ks : List RecId) : Lays ks (listop t ks)
  | aelem (c k : RecId) : Lays [c, k] (aelem c k)
  | helem (c k : RecId) : Lays [c, k] (helem c k)
  | existsElem (e : RecId) : Lays [e] (existsElem e)
  | deleteElem (e : RecId) : Lays [e] (deleteElem e)
  | arylen (av : RecId) : Lays [av] (arylen av)
  | sassign (src dst : RecId) : Lays [src, dst] (sassign src dst)
  | logop (t : Opcode) (x y : RecId) : Lays [x, y] (logop t x y)
  | cond (x y z : RecId) : Lays [x, y, z] (cond x y z)

theorem code_of_foldedClass {t : Opcode} {c : OpClass} {u u' : Tree} (ht : t.opClass = c) (hf : Folded u u')
    (hu : u.op.code = t) (hc : c ≠ .binop) : u'.op.code ≠ .leaveloop := by
  refine code_of_folded (by simp) hf ?_
  rw [hu]
  rintro rfl
  exact hc ht.symm

/-- What such a call makes of finished trees. It ends neither a loop nor, out of nothing, a sub, and of variables it
names only those of the pad. -/
theorem Lays.makes {ks ts : List Tree} {x : TreeM RecId} {r : RecId} (hx : Lays (ks.map Tree.root) x)
    (h : a.Site (ks ++ ts)) (hks : ∀ k ∈ ks, k.op.code ≠ .enteriter) (hok : x a = .ok r b) :
    ∃ t, t.root = r ∧ Makes ks t ∧ t.op.code ≠ .leaveloop ∧ (ks = [] → t.op.code ≠ .leavesub) ∧
      (0 < a.pad.size → t.op.Slotted b.pad) ∧ b.Site (t :: ts) := by
  have hplain : ∀ {o : Node}, o.code ∉ [Opcode.padsv, .padav, .padhv] → 0 < a.pad.size → o.Slotted b.pad :=
    fun ho _ => Node.slotted_of_code ho
  generalize hrs : ks.map Tree.root = rs at hx
  cases hx with
  | const v =>
    obtain rfl : ks = [] := by simpa using hrs
    exact ⟨_, rfl, .const .., by simp, by simp, hplain (by simp), const_ok h hok⟩
  | my name shape =>
    obtain rfl : ks = [] := by simpa using hrs
    obtain ⟨t, targ, ht, htarg, hsize, hb⟩ := my_ok h hok
    refine ⟨_, rfl, .pad _ _ _ _ ht, ?_, fun _ => ?_, fun hpad _ => ?_, hb⟩
    · rcases ht with rfl | rfl | rfl <;> simp
    · rcases ht with rfl | rfl | rfl <;> simp
    · have hslot : 0 < targ ∧ targ < b.pad.size := by omega
      exact hslot
  | gv name =>
    obtain rfl : ks = [] := by simpa using hrs
    exact ⟨_, rfl, .gv .., by simp, by simp, hplain (by simp), gv_ok h hok⟩
  | stub =>
    obtain rfl : ks = [] := by simpa using hrs
    exact ⟨_, rfl, .stub .., by simp, by simp, hplain (by simp), stub_ok h hok⟩
  | rv2 t k =>
    obtain ⟨k, rfl, rfl⟩ := List.map_eq_singleton_iff.mp hrs
    obtain ⟨ht, hb⟩ := rv2_ok h hok
    refine ⟨_, rfl, .rv2 _ _ _ ht, ?_, nofun, hplain ?_, hb⟩ <;> rcases ht with rfl | rfl | rfl <;> simp
  | scalar k =>
    obtain ⟨k, rfl, rfl⟩ := List.map_eq_singleton_iff.mp hrs
    exact ⟨_, rfl, .scalar .., by simp, nofun, hplain (by simp), scalar_ok h hok⟩
  | unop t k p =>
    obtain ⟨k, rfl, rfl⟩ := List.map_eq_singleton_iff.mp hrs
    obtain ⟨ht, o, t', hr, hfold, hb⟩ := unop_ok h hok
    exact ⟨t', hr, .unop _ _ _ _ ht hfold, code_of_foldedClass ht hfold (by simp) (by simp), nofun,
      fun _ => slotted_of_folded hfold (by simpa using Node.notMem_of_class ht (by decide)), hb⟩
  | binop t x y hne =>
    obtain ⟨k, j, rfl, rfl, rfl⟩ := roots_two hrs
    obtain ⟨ht, o, t', hr, hfold, hb⟩ := binop_ok h (hks k (by simp)) hok
    exact ⟨t', hr, .binop _ _ _ _ ht hfold, code_of_folded (by simp) hfold (by simpa using hne), nofun,
      fun _ => slotted_of_folded hfold (by simpa using Node.notMem_of_class ht (by decide)), hb⟩
  | listop t qs =>
    subst hrs
    obtain ⟨ht, o, m, t', hr, hfold, hb⟩ := listop_ok h hok
    refine ⟨t', hr, .listop _ _ _ _ _ ht hfold, ?_, fun _ => ?_, fun _ => slotted_of_folded hfold ?_, hb⟩
    · exact code_of_foldedClass ht hfold (by rw [code_snocAll, code_snoc, op_mk]) (by simp)
    · refine code_of_folded (by simp) hfold ?_
      rw [code_snocAll, code_snoc, op_mk]
      rintro rfl
      cases ht
    · rw [code_snocAll, code_snoc, op_mk]
      exact Node.notMem_of_class ht (by decide)
  | aelem c k =>
    obtain ⟨c, k, rfl, rfl, rfl⟩ := roots_two hrs
    exact ⟨_, rfl, .elem _ _ _ _ _ (Or.inl rfl), by simp, nofun, hplain (by simp), aelem_ok h hok⟩
  | helem c k =>
    obtain ⟨c, k, rfl, rfl, rfl⟩ := roots_two hrs
    exact ⟨_, rfl, .elem _ _ _ _ _ (Or.inr rfl), by simp, nofun, hplain (by simp), helem_ok h hok⟩
  | existsElem e =>
    obtain ⟨e, rfl, rfl⟩ := List.map_eq_singleton_iff.mp hrs
    obtain ⟨he, hb⟩ := elemop_ok h (Or.inl rfl) hok
    exact ⟨_, rfl, .elemop _ _ _ (Or.inl rfl) he, by simp, nofun, hplain (by simp), hb⟩
  | deleteElem e =>
    obtain ⟨e, rfl, rfl⟩ := List.map_eq_singleton_iff.mp hrs
    obtain ⟨he, hb⟩ := elemop_ok h (Or.inr rfl) hok
    exact ⟨_, rfl, .elemop _ _ _ (Or.inr rfl) he, by simp, nofun, hplain (by simp), hb⟩
  | arylen av =>
    obtain ⟨av, rfl, rfl⟩ := List.map_eq_singleton_iff.mp hrs
    exact ⟨_, rfl, .arylen .., by simp, nofun, hplain (by simp), arylen_ok h hok⟩
  | sassign src dst =>
    obtain ⟨src, dst, rfl, rfl, rfl⟩ := roots_two hrs
    exact ⟨_, rfl, .sassign .., by simp, nofun, hplain (by simp), sassign_ok h hok⟩
  | logop t x y =>
    obtain ⟨k, j, rfl, rfl, rfl⟩ := roots_two hrs
    obtain ⟨ht, l, i, i', hb⟩ := logop_ok h hok
    exact ⟨_, rfl, .logop _ _ _ _ _ _ ht, by simp, nofun, hplain (by simp), hb⟩
  | cond x y z =>
    obtain ⟨c, k, j, rfl, rfl, rfl, rfl⟩ := roots_three hrs
    obtain ⟨l, i, i', hb⟩ := cond_ok h hok
    exact ⟨_, rfl, .cond .., by simp, nofun, hplain (by simp), hb⟩

theorem Call.makes {ks ts : List Tree} {x : TreeM RecId} {r : RecId} (hx : Call (ks.map Tree.root) x)
    (h : a.Site (ks ++ ts)) (hks : ∀ k ∈ ks, k.op.code ≠ .enteriter) (hok : x a = .ok r b) :
    ∃ t, t.root = r ∧ Makes ks t ∧ b.Site (t :: ts) := by
  have hlays : Lays (ks.map Tree.root) x → ∃ t, t.root = r ∧ Makes ks t ∧ b.Site (t :: ts) := fun hl => by
    obtain ⟨t, hr, ht, -, -, -, hb⟩ := hl.makes h hks hok
    exact ⟨t, hr, ht, hb⟩
  generalize hrs : ks.map Tree.root = rs at hx hlays
  cases hx with
  | const v => exact hlays (.const v)
  | pad t targ p =>
    obtain rfl : ks = [] := by simpa using hrs
    obtain ⟨ht, -, hb⟩ := pad_ok h hok
    exact ⟨_, rfl, .pad _ _ _ _ ht, hb⟩
  | my name shape => exact hlays (.my name shape)
  | gv name => exact hlays (.gv name)
  | stub => exact hlays .stub
  | rv2 t k => exact hlays (.rv2 t k)
  | scalar k => exact hlays (.scalar k)
  | unop t k? p =>
    cases k? with
    | none =>
      obtain rfl : ks = [] := by simpa using hrs
      obtain ⟨ht, o, t', hr, hfold, hb⟩ := unop_none_ok h hok
      exact ⟨t', hr, .unopNone _ _ _ ht hfold, hb⟩
    | some k => exact hlays (.unop t k p)
  | binop t x y =>
    obtain ⟨k, j, rfl, rfl, rfl⟩ := roots_two hrs
    obtain ⟨ht, o, t', hr, hfold, hb⟩ := binop_ok h (hks k (by simp)) hok
    exact ⟨t', hr, .binop _ _ _ _ ht hfold, hb⟩
  | listop t => exact hlays (.listop t _)
  | aelem c k => exact hlays (.aelem c k)
  | helem c k => exact hlays (.helem c k)
  | existsElem e => exact hlays (.existsElem e)
  | deleteElem e => exact hlays (.deleteElem e)
  | arylen av => exact hlays (.arylen av)
  | sassign src dst => exact hlays (.sassign src dst)
  | logop t x y => exact hlays (.logop t x y)
  | cond x y z => exact hlays (.cond x y z)
  | foreach targ lo hi body =>
    obtain ⟨lo, ks, rfl, rfl, hrest⟩ := List.map_eq_cons_iff.mp hrs
    obtain ⟨hi, es, rfl, rfl, hes⟩ := List.map_eq_cons_iff.mp hrest
    obtain ⟨ks, ent, s, u, t, l, w, i₁, i₂, i₃, i₄, i₅, i₆, i₇, hit, hb⟩ := foreach_ok h hes hok
    exact ⟨_, rfl, .foreach _ _ _ _ _ _ _ _ _ _ _ _ _ _ _ _ _ hit, hb⟩

inductive Made : Tree → Prop where
  | call {ks : List Tree} {t : Tree} (hks : ∀ k ∈ ks, Made k) (h : Makes ks t) : Made t

theorem Makes.code_ne_enteriter {ks : List Tree} {t : Tree} (h : Makes ks t) :
    t.op.code ≠ .enteriter := by
  cases h with
  | pad _ _ _ _ ht => rcases ht with rfl | rfl | rfl <;> simp
  | rv2 _ _ _ ht => rcases ht with rfl | rfl | rfl <;> simp
  | unop _ _ _ _ ht hf => exact code_of_folded (by simp) hf (by simpa using ne_of_class ht (by simp))
  | unopNone _ _ _ ht hf => exact code_of_folded (by simp) hf (ne_of_class ht (by simp))
  | binop _ _ _ _ ht hf => exact code_of_folded (by simp) hf (by simpa using ne_of_class ht (by simp))
  | listop _ _ _ _ _ ht hf =>
    exact code_of_folded (by simp) hf (by rw [code_snocAll]; simpa using ne_of_class ht (by simp))
  | elem _ _ _ _ _ ht => rcases ht with rfl | rfl <;> simp
  | elemop _ _ _ ht _ => rcases ht with rfl | rfl <;> simp
  | foreach => simp [loopTree]
  | _ => simp

theorem Made.code_ne_enteriter {t : Tree} (h : Made t) : t.op.code ≠ .enteriter := by
  cases h with
  | call _ h => exact h.code_ne_enteriter

/-- What constructors make of such trees is one of them. Only the variable of a leaf has to be known. -/
theorem Makes.listed {p : Pad} {ks : List Tree} {t : Tree} (h : Makes ks t) (hks : ∀ k ∈ ks, k.Listed p) (hop : t.op.Slotted p) : t.Listed p := by
  cases h with
  | const | gv | stub => exact listed_leaf (by simp)
  | pad _ _ _ _ ht =>
    refine listed_mk.mpr ⟨⟨?_, hop⟩, nofun⟩
    rcases ht with rfl | rfl | rfl <;> simp
  | rv2 _ k _ ht =>
    refine (listed_leaf ?_).snoc (hks k (by simp)).wantScalar
    rcases ht with rfl | rfl | rfl <;> simp
  | scalar _ k => exact (listed_leaf (by simp)).snoc (hks k (by simp)).wantScalar
  | unop _ k _ _ ht hf =>
    exact listed_of_folded hf ((listed_leaf (Node.notMem_of_class ht (by decide))).snoc (hks k (by simp)).wantScalar)
  | unopNone _ _ _ ht hf => exact listed_of_folded hf (listed_leaf (Node.notMem_of_class ht (by decide)))
  | binop _ x y _ ht hf =>
    exact listed_of_folded hf (((listed_leaf (Node.notMem_of_class ht (by decide))).snoc (hks x (by simp)).wantScalar).snoc
      (hks y (by simp)).wantScalar)
  | listop _ _ _ _ _ ht hf =>
    exact listed_of_folded hf (((listed_leaf (Node.notMem_of_class ht (by decide))).snoc (listed_leaf (by simp))).snocAll hks)
  | elem _ c key _ _ ht =>
    refine ((listed_leaf ?_).snoc (((hks c (by simp)).withFlag _).derefKid _)).snoc (hks key (by simp)).wantScalar
    rcases ht with rfl | rfl <;> simp
  | elemop _ e _ ht _ =>
    refine (listed_leaf ?_).snoc (hks e (by simp)).nulled
    rcases ht with rfl | rfl <;> simp
  | arylen _ av => exact (listed_leaf (by simp)).snoc ((hks av (by simp)).withFlag _)
  | sassign _ x y =>
    exact ((listed_leaf (by simp)).snoc (hks x (by simp)).wantScalar).snoc
      ((hks y (by simp)).withFlag _).wantScalar
  | logop _ _ x y _ _ ht =>
    exact (listed_leaf (by simp)).snoc (listed_logTree ht (hks x (by simp)).wantScalar (hks y (by simp)))
  | cond _ _ x y z =>
    exact (listed_leaf (by simp)).snoc ((((listed_leaf (by simp)).snoc (hks x (by simp)).wantScalar).snoc
      (hks y (by simp))).snoc (hks z (by simp)))
  | foreach _ _ _ _ _ _ _ _ lo hi _ _ _ _ _ _ _ hit =>
    have hbody := hit.listed_grown (fun e he => hks e (by simp [he]))
    have henter : ∀ r targ i, (enterTree r targ i lo hi).Listed p := fun r targ i =>
      ((listed_leaf (by simp)).snoc (hks lo (by simp)).wantScalar).snoc (hks hi (by simp)).wantScalar
    exact ((listed_leaf (by simp)).snoc (henter _ _ _)).snoc ((listed_leaf (by simp)).snoc
      (listed_logTree (Or.inl rfl) (listed_leaf (by simp)).wantScalar ((hbody _ _).snoc (listed_leaf (by simp)))))

theorem Built.made {rs : List RecId} (h : Built a rs) :
    ∃ ts, ts.map Tree.root = rs ∧ (∀ t ∈ ts, Made t) ∧ a.Site ts := by
  induction h with
  | @start a h hg =>
    refine ⟨[], rfl, by simp, ⟨⟨by simp, by simp, [], ?_⟩, by simp⟩, by simp⟩
    exact ⟨hg, List.nodup_nil, by simp, by simp⟩
  | @perm a rs qs h hp ih =>
    obtain ⟨ts, rfl, hts, hs⟩ := ih
    have hcomp := congrFun (congrFun (List.eq_map_comp_perm Tree.root) qs) ts
    obtain ⟨us, rfl, hus⟩ := hcomp.mpr hp.symm
    exact ⟨us, rfl, fun t ht => hts t (hus.mem_iff.mp ht), hs.perm hus.symm⟩
  | addPad h hok ih =>
    obtain ⟨ts, rfl, hts, hs⟩ := ih
    exact ⟨ts, rfl, hts, addPad_ok hs hok⟩
  | call h hx hok ih =>
    obtain ⟨us, hus, hmade, hs⟩ := ih
    obtain ⟨ks, ts, rfl, rfl, rfl⟩ := List.map_eq_append_iff.mp hus
    have hks : ∀ k ∈ ks, Made k := fun k hk => hmade k (by simp [hk])
    obtain ⟨t, rfl, ht, hb⟩ := hx.makes hs (fun k hk => (hks k hk).code_ne_enteriter) hok
    refine ⟨t :: ts, rfl, fun u hu => ?_, hb⟩
    rcases List.mem_cons.mp hu with rfl | hu
    · exact .call hks ht
    · exact hmade u (by simp [hu])

end Build

end OpTree
