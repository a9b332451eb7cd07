import OpTree.Proofs.Contexts

/-!
# Constructors

The tree that each constructor makes of finished ones. All of them leave a site in order, so
whatever is built out of them can be threaded.
-/

namespace OpTree

set_option autoImplicit false

namespace Tree

def wantScalar (t : Tree) : Tree :=
  mk t.root (if t.op.want = .unknown then t.op.withWant .scalar else t.op).plain t.kids

def wantList (t : Tree) : Tree :=
  mk t.root (if t.op.want = .unknown then t.op.withWant .list else t.op).plain t.kids

def withFlag (t : Tree) (f : Flags) : Tree :=
  mk t.root { t.op with flags := t.op.flags ||| f }.plain t.kids

@[simp] theorem root_wantScalar (t : Tree) : t.wantScalar.root = t.root := rfl
@[simp] theorem root_wantList (t : Tree) : t.wantList.root = t.root := rfl
@[simp] theorem root_withFlag (t : Tree) (f : Flags) : (t.withFlag f).root = t.root := rfl

@[simp] theorem code_wantScalar (t : Tree) : t.wantScalar.op.code = t.op.code := by
  simp only [wantScalar, op_mk, Node.plain_code]
  split <;> rfl

@[simp] theorem code_wantList (t : Tree) : t.wantList.op.code = t.op.code := by
  simp only [wantList, op_mk, Node.plain_code]
  split <;> rfl

@[simp] theorem code_withFlag (t : Tree) (f : Flags) : (t.withFlag f).op.code = t.op.code := rfl

end Tree

namespace Build

open Arena OpTree.Tree TreeM

variable {a b : Arena} {ts : List Tree}

theorem dataEdit_flags (g : Flags → Flags) : DataEdit fun n => { n with flags := g n.flags } := by
  constructor <;> intros <;> first | rfl | assumption

theorem operand_eq (w : Want) :
    (fun n : Node => if n.want = .unknown then n.withWant w else n) =
      fun n => { n with
        flags := if Want.ofBits n.flags = .unknown then n.flags.withWant w else n.flags } := by
  funext n
  by_cases h : Want.ofBits n.flags = .unknown
  · rw [if_pos h, Node.want, if_pos h]
    rfl
  · rw [if_neg h, Node.want, if_neg h]

theorem dataEdit_operand (w : Want) :
    DataEdit fun n => if n.want = .unknown then n.withWant w else n := by
  rw [operand_eq]
  exact dataEdit_flags fun f => if Want.ofBits f = .unknown then f.withWant w else f

theorem sameShape_operand (w : Want) (n : Node) :
    n.SameShape (if n.want = .unknown then n.withWant w else n) := by
  split <;> exact .of_code_eq rfl

theorem appendScalar_ok {t u : Tree} (h : a.Open t (u :: ts))
    (hok : appendScalar t.root u.root a = .ok () b) : b.Open (t.snoc u.wantScalar) ts := by
  obtain ⟨c, hc, hopen⟩ := h.adopt (dataEdit_operand .scalar) (sameShape_operand .scalar)
  obtain rfl : c = b := by simpa using hc.symm.trans hok
  exact hopen

theorem append_ok {t u : Tree} (h : a.Open t (u :: ts))
    (hok : append t.root (some u.root) a = .ok () b) : b.Open (t.snoc u) ts := by
  obtain ⟨c, hc, hopen⟩ := h.append
  obtain rfl : c = b := by simpa using hc.symm.trans hok
  exact hopen

theorem const_ok {v : Value} {r : RecId} (h : a.Site ts) (hok : const v a = .ok r b) :
    b.Site (.mk r { code := .const, val := .scalar v, id := a.seq + 1 } [] :: ts) := by
  obtain ⟨o, c, hnew, hok⟩ := bind_eq_ok.mp hok
  rw [bind_of_ok (update_apply _ _ _)] at hok
  obtain ⟨rfl, rfl⟩ := pure_eq_ok.mp hok
  exact ((open_of_new h (by simp) hnew).1.edit
    (by constructor <;> intros <;> first | rfl | assumption)).site rfl rfl

theorem pad_ok {t : Opcode} {targ : Int} {p : Priv} {r : RecId} (h : a.Site ts)
    (hok : pad t targ p a = .ok r b) :
    (t = .padsv ∨ t = .padav ∨ t = .padhv) ∧ b.pad = a.pad ∧
      b.Site (.mk r { code := t, targ := targ, priv := p, id := a.seq + 1 } [] :: ts) := by
  have hread : ∀ t, t ≠ .freed → t.branches = false →
      (do
        let o ← new t 0
        update o fun n => { n with targ := targ, priv := p }
        return o) a = .ok r b →
      b.pad = a.pad ∧ b.Site (.mk r { code := t, targ := targ, priv := p, id := a.seq + 1 } [] :: ts) := by
    intro t hf hb hok
    obtain ⟨o, c, hnew, hok⟩ := bind_eq_ok.mp hok
    rw [bind_of_ok (update_apply _ _ _)] at hok
    obtain ⟨rfl, rfl⟩ := pure_eq_ok.mp hok
    obtain ⟨-, -, -, -, hrest⟩ := new_ok h.toForest hf hnew
    refine ⟨by rw [hrest]; rfl, ((open_of_new h hf hnew).1.edit
      (by constructor <;> intros <;> first | rfl | assumption)).site hb ?_⟩
    simp [isLoop]
  cases t with
  | padsv => exact ⟨by simp, hread .padsv (by simp) rfl hok⟩
  | padav => exact ⟨by simp, hread .padav (by simp) rfl hok⟩
  | padhv => exact ⟨by simp, hread .padhv (by simp) rfl hok⟩
  | _ => exact absurd hok throw_ne_ok

theorem addPad_ok {name : Bytes} {shape : Int} {i : Nat} (h : a.Site ts)
    (hok : addPad name shape a = .ok i b) : b.Site ts := by
  cases hok
  exact h.congr rfl rfl

theorem my_ok {name : Bytes} {shape : Int} {r : RecId} (h : a.Site ts)
    (hok : my name shape a = .ok r b) :
    ∃ (t : Opcode) (targ : Int), (t = .padsv ∨ t = .padav ∨ t = .padhv) ∧ targ = a.pad.size ∧
      b.pad.size = a.pad.size + 1 ∧
      b.Site (.mk r { code := t, targ := targ, priv := Priv.intro, id := a.seq + 1 } [] :: ts) := by
  unfold my at hok
  cases hn : name.head? with
  | none =>
    rw [hn] at hok
    exact absurd hok throw_ne_ok
  | some sigil =>
    rw [hn] at hok
    obtain ⟨i, c, hadd, hok⟩ := bind_eq_ok.mp hok
    have hc := addPad_ok h hadd
    have hnew : c.seq = a.seq ∧ i = a.pad.size ∧ c.pad.size = a.pad.size + 1 := by
      cases hadd
      exact ⟨rfl, rfl, by simp [Pad.size]⟩
    obtain ⟨ht, hpad, hb⟩ := pad_ok hc hok
    rw [hnew.1] at hb
    exact ⟨_, _, ht, by rw [hnew.2.1], by rw [hpad, hnew.2.2], hb⟩

theorem gv_ok {name : Bytes} {r : RecId} (h : a.Site ts) (hok : gv name a = .ok r b) :
    b.Site (.mk r { code := .gv, name := name, id := a.seq + 1 } [] :: ts) := by
  obtain ⟨o, c, hnew, hok⟩ := bind_eq_ok.mp hok
  rw [bind_of_ok (update_apply _ _ _)] at hok
  obtain ⟨rfl, rfl⟩ := pure_eq_ok.mp hok
  exact ((open_of_new h (by simp) hnew).1.edit
    (by constructor <;> intros <;> first | rfl | assumption)).site rfl rfl

theorem stub_ok {r : RecId} (h : a.Site ts) (hok : stub a = .ok r b) :
    b.Site (.mk r { code := .stub, id := a.seq + 1 } [] :: ts) :=
  (open_of_new h (by simp) hok).1.site rfl rfl

theorem isLoop_of_code_ne {o : Node} (h : o.code ≠ .leaveloop) (ks : List Tree) :
    isLoop o ks = false := by simp [isLoop, h]

theorem checkRv2_bind {α : Type} {t : Opcode} {x : TreeM α} {v : α}
    (h : (do checkRv2 t; x) a = .ok v b) : (t = .rv2sv ∨ t = .rv2av ∨ t = .rv2hv) ∧ x a = .ok v b := by
  cases t with
  | rv2sv | rv2av | rv2hv => exact ⟨by simp, h⟩
  | _ => exact absurd h throw_ne_ok

theorem rv2_ok {t : Opcode} {k : Tree} {r : RecId} (h : a.Site (k :: ts))
    (hok : rv2 t k.root a = .ok r b) :
    (t = .rv2sv ∨ t = .rv2av ∨ t = .rv2hv) ∧
      b.Site ((Tree.mk r { code := t, id := a.seq + 1 } []).snoc k.wantScalar :: ts) := by
  obtain ⟨ht, hok⟩ := checkRv2_bind hok
  obtain ⟨o, d, hnew, hok⟩ := bind_eq_ok.mp hok
  obtain ⟨_, e, happ, hok⟩ := bind_eq_ok.mp hok
  obtain ⟨rfl, rfl⟩ := pure_eq_ok.mp hok
  have hfreed : t ≠ .freed := by
    rcases ht with rfl | rfl | rfl <;> simp
  have hopen := appendScalar_ok (open_of_new h hfreed hnew).1 happ
  refine ⟨ht, hopen.site ?_ (isLoop_of_code_ne ?_ _)⟩
  · rcases ht with rfl | rfl | rfl <;> rfl
  · rcases ht with rfl | rfl | rfl <;> simp

theorem scalar_ok {k : Tree} {r : RecId} (h : a.Site (k :: ts)) (hok : scalar k.root a = .ok r b) :
    b.Site ((Tree.mk r { code := .scalar, flags := Want.toBits .scalar, id := a.seq + 1 } []).snoc
      k.wantScalar :: ts) := by
  obtain ⟨o, c, hnew, hok⟩ := bind_eq_ok.mp hok
  obtain ⟨_, d, happ, hok⟩ := bind_eq_ok.mp hok
  obtain ⟨rfl, rfl⟩ := pure_eq_ok.mp hok
  exact (appendScalar_ok (open_of_new h (by simp) hnew).1 happ).site rfl (isLoop_of_code_ne (by simp) _)

theorem checkClass_bind {α : Type} {c : OpClass} {what : String} {t : Opcode} {x : TreeM α} {v : α}
    (h : (do checkClass c what t; x) a = .ok v b) : t.opClass = c ∧ x a = .ok v b := by
  unfold checkClass at h
  split at h
  · exact ⟨‹_›, h⟩
  · exact absurd h throw_ne_ok

/-- What the class of a constructor says about its opcode. -/
structure Plain (t : Opcode) : Prop where
  live : t ≠ .freed
  branches : t.branches = false

theorem plain_of_class {t : Opcode} (h : t.opClass = .unop ∨ t.opClass = .binop ∨ t.opClass = .listop) :
    Plain t := by
  cases t <;> simp [Opcode.opClass] at h <;> exact ⟨by simp, rfl⟩

def rawUnop (t : Opcode) (kid? : Option RecId) (p : Priv) : TreeM RecId := do
  checkClass .unop "unop" t
  let o ← new t 0
  update o fun n => { n with priv := p }
  match kid? with
  | some k => appendScalar o k
  | none => pure ()
  return o

theorem unop_eq (t : Opcode) (kid? : Option RecId) (p : Priv) : unop t kid? p = rawUnop t kid? p >>= fold := by
  cases kid? <;> simp [rawUnop, unop, bind_assoc]

def rawBinop (t : Opcode) (l r : RecId) : TreeM RecId := do
  checkClass .binop "binop" t
  let o ← new t 0
  appendScalar o l
  appendScalar o r
  return o

theorem binop_eq (t : Opcode) (l r : RecId) : binop t l r = rawBinop t l r >>= fold := by
  simp [rawBinop, binop, bind_assoc]

def rawListop (t : Opcode) (kids : List RecId) : TreeM RecId := do
  checkClass .listop "listop" t
  let o ← new t 0
  append o (some (← new .pushmark 0))
  kids.forM fun k => do
    listOperand k
    append o (some k)
  return o

theorem listop_eq (t : Opcode) (kids : List RecId) : listop t kids = rawListop t kids >>= fold := by
  simp [rawListop, listop, bind_assoc]

theorem rawUnop_ok {t : Opcode} {k : Tree} {p : Priv} {o : RecId} (h : a.Site (k :: ts))
    (hok : rawUnop t (some k.root) p a = .ok o b) :
    t.opClass = .unop ∧
      b.Site ((Tree.mk o { code := t, priv := p, id := a.seq + 1 } []).snoc k.wantScalar :: ts) := by
  obtain ⟨ht, hok⟩ := checkClass_bind hok
  obtain ⟨o, d, hnew, hok⟩ := bind_eq_ok.mp hok
  rw [bind_of_ok (update_apply _ _ _)] at hok
  obtain ⟨_, e, happ, hok⟩ := bind_eq_ok.mp hok
  obtain ⟨rfl, rfl⟩ := pure_eq_ok.mp hok
  have hplain := plain_of_class (Or.inl ht)
  have hloop : t ≠ .leaveloop := by
    rintro rfl
    simp [Opcode.opClass] at ht
  have hopen := appendScalar_ok ((open_of_new h hplain.live hnew).1.edit
    (f := fun n => { n with priv := p })
    (by constructor <;> intros <;> first | rfl | assumption)) happ
  exact ⟨ht, hopen.site (by simpa using hplain.branches) (isLoop_of_code_ne (by simpa using hloop) _)⟩

theorem unop_ok {t : Opcode} {k : Tree} {p : Priv} {r : RecId} (h : a.Site (k :: ts))
    (hok : unop t (some k.root) p a = .ok r b) :
    t.opClass = .unop ∧ ∃ o t', t'.root = r ∧
      Folded ((Tree.mk o { code := t, priv := p, id := a.seq + 1 } []).snoc k.wantScalar) t' ∧
      b.Site (t' :: ts) := by
  rw [unop_eq] at hok
  obtain ⟨o, c, hraw, hok⟩ := bind_eq_ok.mp hok
  obtain ⟨ht, hc⟩ := rawUnop_ok h hraw
  exact ⟨ht, o, fold_ok hc hok⟩

theorem rawUnop_none_ok {t : Opcode} {p : Priv} {o : RecId} (h : a.Site ts)
    (hok : rawUnop t none p a = .ok o b) :
    t.opClass = .unop ∧ b.Site (.mk o { code := t, priv := p, id := a.seq + 1 } [] :: ts) := by
  obtain ⟨ht, hok⟩ := checkClass_bind hok
  obtain ⟨o, d, hnew, hok⟩ := bind_eq_ok.mp hok
  rw [bind_of_ok (update_apply _ _ _)] at hok
  obtain ⟨rfl, rfl⟩ := pure_eq_ok.mp hok
  have hplain := plain_of_class (Or.inl ht)
  have hopen := (open_of_new h hplain.live hnew).1.edit (f := fun n => { n with priv := p })
    (by constructor <;> intros <;> first | rfl | assumption)
  exact ⟨ht, hopen.site hplain.branches (by simp [isLoop])⟩

theorem unop_none_ok {t : Opcode} {p : Priv} {r : RecId} (h : a.Site ts)
    (hok : unop t none p a = .ok r b) :
    t.opClass = .unop ∧ ∃ o t', t'.root = r ∧
      Folded (.mk o { code := t, priv := p, id := a.seq + 1 } []) t' ∧ b.Site (t' :: ts) := by
  rw [unop_eq] at hok
  obtain ⟨o, c, hraw, hok⟩ := bind_eq_ok.mp hok
  obtain ⟨ht, hc⟩ := rawUnop_none_ok h hraw
  exact ⟨ht, o, fold_ok hc hok⟩

theorem rawBinop_ok {t : Opcode} {x y : Tree} {o : RecId} (h : a.Site (x :: y :: ts))
    (hx : x.op.code ≠ .enteriter) (hok : rawBinop t x.root y.root a = .ok o b) :
    t.opClass = .binop ∧
      b.Site (((Tree.mk o { code := t, id := a.seq + 1 } []).snoc x.wantScalar).snoc y.wantScalar :: ts) := by
  obtain ⟨ht, hok⟩ := checkClass_bind hok
  obtain ⟨o, d, hnew, hok⟩ := bind_eq_ok.mp hok
  obtain ⟨_, e, happ, hok⟩ := bind_eq_ok.mp hok
  obtain ⟨_, f, happ', hok⟩ := bind_eq_ok.mp hok
  obtain ⟨rfl, rfl⟩ := pure_eq_ok.mp hok
  have hplain := plain_of_class (Or.inr (Or.inl ht))
  have hopen := appendScalar_ok (appendScalar_ok (open_of_new h hplain.live hnew).1 happ) happ'
  exact ⟨ht, hopen.site (by simpa using hplain.branches) (by simp [isLoop, hx])⟩

theorem binop_ok {t : Opcode} {x y : Tree} {r : RecId} (h : a.Site (x :: y :: ts))
    (hx : x.op.code ≠ .enteriter) (hok : binop t x.root y.root a = .ok r b) :
    t.opClass = .binop ∧ ∃ o t', t'.root = r ∧
      Folded (((Tree.mk o { code := t, id := a.seq + 1 } []).snoc x.wantScalar).snoc y.wantScalar) t' ∧
      b.Site (t' :: ts) := by
  rw [binop_eq] at hok
  obtain ⟨o, c, hraw, hok⟩ := bind_eq_ok.mp hok
  obtain ⟨ht, hc⟩ := rawBinop_ok h hx hraw
  exact ⟨ht, o, fold_ok hc hok⟩

def snocAll (t : Tree) (ks : List Tree) : Tree := ks.foldl (fun t k => t.snoc k.wantList) t

theorem root_snocAll (t : Tree) (ks : List Tree) : (snocAll t ks).root = t.root := by
  induction ks generalizing t with
  | nil => rfl
  | cons k ks ih => exact ih _

theorem code_snocAll (t : Tree) (ks : List Tree) : (snocAll t ks).op.code = t.op.code := by
  induction ks generalizing t with
  | nil => rfl
  | cons k ks ih => exact (ih _).trans (code_snoc _ _)

theorem appendLists_ok {t : Tree} {ks : List Tree} (h : a.Open t (ks ++ ts))
    (hok : ((ks.map Tree.root).forM fun k => do listOperand k; append t.root (some k)) a = .ok () b) :
    b.Open (snocAll t ks) ts := by
  induction ks generalizing t a with
  | nil =>
    obtain ⟨-, rfl⟩ := pure_eq_ok.mp hok
    exact h
  | cons k ks ih =>
    obtain ⟨_, c, hk, hok⟩ := bind_eq_ok.mp
      (show ((do listOperand k.root; append t.root (some k.root)) >>= fun _ =>
        (ks.map Tree.root).forM fun k => do listOperand k; append t.root (some k)) a = _ from hok)
    obtain ⟨d, hd, hopen⟩ := h.adopt (dataEdit_operand .list) (sameShape_operand .list)
    obtain rfl : d = c := by simpa using hd.symm.trans hk
    exact ih hopen hok

theorem rawListop_ok {t : Opcode} {ks : List Tree} {o : RecId} (h : a.Site (ks ++ ts))
    (hok : rawListop t (ks.map Tree.root) a = .ok o b) :
    t.opClass = .listop ∧ ∃ m, b.Site (snocAll ((Tree.mk o { code := t, id := a.seq + 1 } []).snoc
      (.mk m { code := .pushmark, id := a.seq + 2 } [])) ks :: ts) := by
  obtain ⟨ht, hok⟩ := checkClass_bind hok
  obtain ⟨o, d, hnew, hok⟩ := bind_eq_ok.mp hok
  obtain ⟨m, e, hnew', hok⟩ := bind_eq_ok.mp hok
  obtain ⟨_, f, happ, hok⟩ := bind_eq_ok.mp hok
  obtain ⟨_, g, hall, hok⟩ := bind_eq_ok.mp hok
  obtain ⟨rfl, rfl⟩ := pure_eq_ok.mp hok
  have hplain := plain_of_class (Or.inr (Or.inr ht))
  have hloop : t ≠ .leaveloop := by
    rintro rfl
    simp [Opcode.opClass] at ht
  obtain ⟨hopen, hseq⟩ := open_of_new h hplain.live hnew
  have hmark := append_ok (open_new hopen (by simp) rfl hnew').1 happ
  have hlist := appendLists_ok hmark hall
  rw [hseq] at hlist
  have hcode := (code_snocAll _ ks).trans (code_snoc (Tree.mk o { code := t, id := a.seq + 1 } [])
    (.mk m { code := .pushmark, id := a.seq + 1 + 1 } []))
  exact ⟨ht, m, hlist.site (by rw [hcode]; exact hplain.branches)
    (isLoop_of_code_ne (by rw [hcode]; exact hloop) _)⟩

theorem listop_ok {t : Opcode} {ks : List Tree} {r : RecId} (h : a.Site (ks ++ ts))
    (hok : listop t (ks.map Tree.root) a = .ok r b) :
    t.opClass = .listop ∧ ∃ o m t', t'.root = r ∧
      Folded (snocAll ((Tree.mk o { code := t, id := a.seq + 1 } []).snoc
        (.mk m { code := .pushmark, id := a.seq + 2 } [])) ks) t' ∧
      b.Site (t' :: ts) := by
  rw [listop_eq] at hok
  obtain ⟨o, c, hraw, hok⟩ := bind_eq_ok.mp hok
  obtain ⟨ht, m, hc⟩ := rawListop_ok h hraw
  exact ⟨ht, o, m, fold_ok hc (by rw [root_snocAll]; exact hok)⟩

/-- The element that a dereferencing container reads is told to make a container. -/
def derefKid (t : Tree) (deref : Priv) : Tree :=
  match t.op.code, t.kids with
  | .rv2av, k :: _ | .rv2hv, k :: _ =>
    if k.op.code ≠ .gv then t.modify k.root fun n => { n with priv := n.priv ||| deref }.plain else t
  | _, _ => t

@[simp] theorem root_derefKid (t : Tree) (deref : Priv) : (derefKid t deref).root = t.root := by
  unfold derefKid
  split
  · split <;> simp
  · split <;> simp
  · rfl

theorem code_modify_priv (t : Tree) (r : RecId) (deref : Priv) :
    (t.modify r fun n => { n with priv := n.priv ||| deref }.plain).op.code = t.op.code := by
  rw [Tree.modify, op_mapOps]
  split <;> rfl

@[simp] theorem code_derefKid (t : Tree) (deref : Priv) : (derefKid t deref).op.code = t.op.code := by
  unfold derefKid
  split
  · split
    · exact code_modify_priv ..
    · rfl
  · split
    · exact code_modify_priv ..
    · rfl
  · rfl

theorem dataEdit_priv (p : Priv) : DataEdit fun n => { n with priv := n.priv ||| p } := by
  constructor <;> intros <;> first | rfl | assumption

theorem withFlag_site {t : Tree} (h : a.Site (t :: ts)) (f : Flags) :
    (a.update t.root fun n => { n with flags := n.flags ||| f }).Site (t.withFlag f :: ts) := by
  have hedit := h.edit (dataEdit_flags fun g => g ||| f) t.root_mem_recs fun u _ _ => .of_code_eq rfl
  rw [modify_root h.toStand.nodup_head] at hedit
  exact hedit

theorem derefKid_site {t k : Tree} {ks : List Tree} (deref : Priv) (h : a.Site (t :: ts))
    (hc : t.op.code = .rv2av ∨ t.op.code = .rv2hv) (hks : t.kids = k :: ks) (hk : k.op.code ≠ .gv) :
    (a.update k.root fun n => { n with priv := n.priv ||| deref }).Site (derefKid t deref :: ts) := by
  have hmem : k.root ∈ t.recs :=
    recs_subset (kid_mem_subtrees (by rw [hks]; exact List.mem_cons_self ..)) k.root_mem_recs
  have heq : derefKid t deref = t.modify k.root fun n => { n with priv := n.priv ||| deref }.plain := by
    rcases hc with hc | hc <;> simp [derefKid, hc, hks, hk]
  rw [heq]
  exact h.edit (dataEdit_priv deref) hmem fun u _ _ => .of_code_eq rfl

theorem derefKid_of_gv {t k : Tree} {ks : List Tree} (hks : t.kids = k :: ks) (hk : k.op.code = .gv)
    (deref : Priv) : derefKid t deref = t := by
  unfold derefKid
  rw [hks]
  split <;> simp_all

theorem derefKid_of_code {t : Tree} (hc : t.op.code ≠ .rv2av ∧ t.op.code ≠ .rv2hv ∨ t.kids = [])
    (deref : Priv) : derefKid t deref = t := by
  unfold derefKid
  split <;> simp_all

theorem elem_kids_ok {t : Opcode} {c key : Tree} {r : RecId} (h : a.Site (c :: key :: ts))
    (ht : t = .aelem ∨ t = .helem)
    (hok : (do
      let o ← new t 0
      append o (some c.root)
      appendScalar o key.root
      return o) a = .ok r b) :
    b.Site (((Tree.mk r { code := t, id := a.seq + 1 } []).snoc c).snoc key.wantScalar :: ts) := by
  obtain ⟨o, f, hnew, hok⟩ := bind_eq_ok.mp hok
  obtain ⟨_, g, happ, hok⟩ := bind_eq_ok.mp hok
  obtain ⟨_, g', happ', hok⟩ := bind_eq_ok.mp hok
  obtain ⟨rfl, rfl⟩ := pure_eq_ok.mp hok
  have hopen := (open_of_new h (by rcases ht with rfl | rfl <;> simp) hnew).1
  refine (appendScalar_ok (append_ok hopen happ) happ').site ?_ (isLoop_of_code_ne ?_ _)
  · rcases ht with rfl | rfl <;> rfl
  · rcases ht with rfl | rfl <;> simp

theorem kids_of_first {t : Tree} {q : RecId} (h : t.kids.head?.map Tree.root = some q) :
    ∃ k ks, t.kids = k :: ks ∧ k.root = q := by
  cases hks : t.kids with
  | nil => simp [hks] at h
  | cons k ks =>
    simp only [hks, List.head?_cons, Option.map_some, Option.some.injEq] at h
    exact ⟨k, ks, rfl, h⟩

theorem elem_ok {t : Opcode} {c key : Tree} {deref : Priv} {r : RecId} (h : a.Site (c :: key :: ts))
    (ht : t = .aelem ∨ t = .helem) (hok : elem t c.root key.root deref a = .ok r b) :
    b.Site (((Tree.mk r { code := t, id := a.seq + 1 } []).snoc
      (derefKid (c.withFlag Flags.ref) deref)).snoc key.wantScalar :: ts) := by
  unfold elem at hok
  rw [bind_of_ok (show setFlag c.root Flags.ref a = _ from update_apply _ _ _),
    bind_of_ok (node_apply _ _)] at hok
  have hflag := withFlag_site h Flags.ref
  have hseq : (a.update c.root fun n => { n with flags := n.flags ||| Flags.ref }).seq = a.seq := rfl
  generalize a.update c.root (fun n => { n with flags := n.flags ||| Flags.ref }) = d at *
  rw [← hseq]
  change d.Site ((c.withFlag Flags.ref) :: key :: ts) at hflag
  rw [← root_withFlag c Flags.ref] at hok
  generalize c.withFlag Flags.ref = u at *
  have hholds := hflag.holds u (by simp)
  have hcode : ∀ v : Tree, d.Holds v → (d.node v.root).code = v.op.code := fun v hv => by
    rw [← hv.fits.op, Node.plain_code]
  -- what is left is the same for both kinds of container
  have hkid : ∀ q : RecId, (u.op.code = .rv2av ∨ u.op.code = .rv2hv) →
      u.kids.head?.map Tree.root = some q →
      (do
        if (← TreeM.node q).code ≠ Opcode.gv then
          update q fun n => { n with priv := n.priv ||| deref }
        let o ← new t 0
        append o (some u.root)
        appendScalar o key.root
        return o) d = .ok r b →
      b.Site (((Tree.mk r { code := t, id := d.seq + 1 } []).snoc (derefKid u deref)).snoc
        key.wantScalar :: ts) := by
    intro q hc hq hok
    obtain ⟨k, ks, hks, rfl⟩ := kids_of_first hq
    rw [bind_of_ok (node_apply _ _), hcode k (hholds.kid (by simp [hks]))] at hok
    by_cases hg : k.op.code = .gv
    · rw [if_neg (by simp [hg])] at hok
      rw [derefKid_of_gv hks hg]
      exact elem_kids_ok hflag ht hok
    · rw [if_pos hg, bind_of_ok (update_apply _ _ _)] at hok
      have hsite := derefKid_site deref hflag hc hks hg
      rw [← root_derefKid u deref] at hok
      have hfull := elem_kids_ok hsite ht hok
      exact hfull
  rw [hcode u hholds, hholds.fits.first] at hok
  generalize hcode' : u.op.code = code at hok
  generalize hfirst' : u.kids.head?.map Tree.root = first at hok
  split at hok
  · exact hkid _ (Or.inl hcode') hfirst' hok
  · exact hkid _ (Or.inr hcode') hfirst' hok
  · rename_i hno hno'
    rw [derefKid_of_code]
    · exact elem_kids_ok hflag ht hok
    cases hks : u.kids with
    | nil => exact Or.inr rfl
    | cons k ks =>
      refine Or.inl ⟨fun hc => ?_, fun hc => ?_⟩
      · exact hno k.root (hcode'.symm.trans hc) (by rw [← hfirst', hks]; rfl)
      · exact hno' k.root (hcode'.symm.trans hc) (by rw [← hfirst', hks]; rfl)

theorem aelem_ok {c key : Tree} {r : RecId} (h : a.Site (c :: key :: ts))
    (hok : aelem c.root key.root a = .ok r b) :
    b.Site (((Tree.mk r { code := .aelem, id := a.seq + 1 } []).snoc
      (derefKid (c.withFlag Flags.ref) Priv.derefAV)).snoc key.wantScalar :: ts) :=
  elem_ok h (Or.inl rfl) hok

theorem helem_ok {c key : Tree} {r : RecId} (h : a.Site (c :: key :: ts))
    (hok : helem c.root key.root a = .ok r b) :
    b.Site (((Tree.mk r { code := .helem, id := a.seq + 1 } []).snoc
      (derefKid (c.withFlag Flags.ref) Priv.derefHV)).snoc key.wantScalar :: ts) :=
  elem_ok h (Or.inr rfl) hok

theorem neutralized_of_ne {n : Node} (h : n.code ≠ .null) :
    n.neutralized = { n with ex := n.code, code := .null } := by
  rw [Node.neutralized, if_neg (by simpa using h)]

theorem neutralized_of_eq {n : Node} (h : n.code = .null) : n.neutralized = n := by
  rw [Node.neutralized, if_pos (by simpa using h)]

theorem dataEdit_neutralized : DataEdit Node.neutralized := by
  constructor <;> intro n <;> by_cases hc : n.code = .null
  · rw [neutralized_of_eq hc, neutralized_of_eq (by exact hc), Node.plain_plain]
  · rw [neutralized_of_ne hc, neutralized_of_ne (by exact hc)]
    rfl
  all_goals first | rw [neutralized_of_eq hc] | rw [neutralized_of_ne hc]
  · exact id
  · exact fun _ => by simp
  · simp [Node.opClass, Node.isEx, hc]

def nulled (e : Tree) : Tree := .mk e.root e.op.neutralized.plain e.kids

theorem nulled_site {e : Tree} (h : a.Site (e :: ts)) (hc : e.op.code = .aelem ∨ e.op.code = .helem) :
    (a.update e.root Node.neutralized).Site (nulled e :: ts) := by
  have hn := h.toStand.nodup_head
  have hedit := h.edit dataEdit_neutralized e.root_mem_recs fun u hu hr => by
    obtain rfl := eq_of_root_eq hn hu (self_mem_subtrees e) hr
    constructor <;> rw [Node.neutralized_code] <;> rcases hc with hc | hc <;> rw [hc] <;>
      first | rfl | simp
  rw [modify_root hn] at hedit
  exact hedit

theorem elemop_ok {t : Opcode} {e : Tree} {r : RecId} (h : a.Site (e :: ts))
    (ht : t = .existsElem ∨ t = .deleteElem) (hok : elemop t e.root a = .ok r b) :
    (e.op.code = .aelem ∨ e.op.code = .helem) ∧
      b.Site ((Tree.mk r { code := t, id := a.seq + 1 } []).snoc (nulled e) :: ts) := by
  have hcode : (a.node e.root).code = e.op.code := by
    rw [← (h.holds e (by simp)).fits.op, Node.plain_code]
  have hmake : (e.op.code = .aelem ∨ e.op.code = .helem) →
      (do
        neutralize e.root
        let o ← new t 0
        append o (some e.root)
        return o) a = .ok r b →
      b.Site ((Tree.mk r { code := t, id := a.seq + 1 } []).snoc (nulled e) :: ts) := by
    intro hc hok
    rw [bind_of_ok (show neutralize e.root a = _ from update_apply _ _ _)] at hok
    obtain ⟨o, d, hnew, hok⟩ := bind_eq_ok.mp hok
    obtain ⟨_, f, happ, hok⟩ := bind_eq_ok.mp hok
    obtain ⟨rfl, rfl⟩ := pure_eq_ok.mp hok
    have hopen := (open_of_new (nulled_site h hc) (by rcases ht with rfl | rfl <;> simp) hnew).1
    refine (append_ok hopen happ).site ?_ (isLoop_of_code_ne ?_ _)
    · rcases ht with rfl | rfl <;> rfl
    · rcases ht with rfl | rfl <;> simp
  unfold elemop at hok
  rw [bind_of_ok (node_apply _ _), hcode] at hok
  generalize hc : e.op.code = code at *
  split at hok
  · exact ⟨Or.inl rfl, hmake (Or.inl rfl) hok⟩
  · exact ⟨Or.inr rfl, hmake (Or.inr rfl) hok⟩
  · exact absurd hok throw_ne_ok

theorem arylen_ok {av : Tree} {r : RecId} (h : a.Site (av :: ts)) (hok : arylen av.root a = .ok r b) :
    b.Site ((Tree.mk r { code := .av2arylen, id := a.seq + 1 } []).snoc (av.withFlag Flags.ref) :: ts) := by
  unfold arylen at hok
  rw [bind_of_ok (show setFlag av.root Flags.ref a = _ from update_apply _ _ _)] at hok
  obtain ⟨o, d, hnew, hok⟩ := bind_eq_ok.mp hok
  obtain ⟨_, e, happ, hok⟩ := bind_eq_ok.mp hok
  obtain ⟨rfl, rfl⟩ := pure_eq_ok.mp hok
  have hopen := (open_of_new (withFlag_site h Flags.ref) (by simp) hnew).1
  exact (append_ok hopen happ).site rfl (isLoop_of_code_ne (by simp) _)

theorem sassign_ok {src dst : Tree} {r : RecId} (h : a.Site (src :: dst :: ts))
    (hok : sassign src.root dst.root a = .ok r b) :
    b.Site (((Tree.mk r { code := .sassign, id := a.seq + 1 } []).snoc src.wantScalar).snoc
      (dst.withFlag Flags.mod).wantScalar :: ts) := by
  unfold sassign at hok
  rw [bind_of_ok (show setFlag dst.root Flags.mod a = _ from update_apply _ _ _)] at hok
  obtain ⟨o, d, hnew, hok⟩ := bind_eq_ok.mp hok
  obtain ⟨_, e, happ, hok⟩ := bind_eq_ok.mp hok
  obtain ⟨_, f, happ', hok⟩ := bind_eq_ok.mp hok
  obtain ⟨rfl, rfl⟩ := pure_eq_ok.mp hok
  have hflag := (withFlag_site (h.perm (List.Perm.swap dst src ts)) Flags.mod).perm
    (List.Perm.swap src _ ts)
  have hopen := (open_of_new hflag (by simp) hnew).1
  exact (appendScalar_ok (appendScalar_ok hopen happ) happ').site rfl (isLoop_of_code_ne (by simp) _)

end Build

end OpTree
