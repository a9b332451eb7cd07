import OpTree.Proofs.Settling
import OpTree.Proofs.Assembled

/-!
# Expressions about scalars

Which forms are expressions about scalars, and the trees that they are built to.
-/

namespace OpTree

set_option autoImplicit false

namespace Form

open Assemble

def isAtom : Form → Bool
  | atom _ _ => true
  | _ => false

def names (src : Source) : Form → Bool
  | list _ _ (atom p s :: _) => headOf (slice src.text p s) = .gv
  | _ => false

/-- Ops about scalars with what their operands must be besides. No branch is an atom. -/
def fits : Head → List Form → Bool
  | .unop t, _ => t ≠ .length
  | .binop _, _ | .sassign, _ | .const, _ => true
  | .listop t, _ => t = .say || t = .die || t = .ret
  | .logop _, _ :: y :: _ => !y.isAtom
  | .cond, _ :: y :: z :: _ => !y.isAtom && !z.isAtom
  | .my, var _ _ :: _ => true
  | .pad t, _ => t = .padsv
  | _, _ => false

mutual

/-- An expression about scalars. Its atoms are undef, and the modifiers at the end of lists. -/
def scalar (src : Source) : Form → Bool
  | int .. | float .. | str .. | atom .. => true
  | var p s => (slice src.text p s).head? == some 36
  | list _ _ (atom p s :: items) =>
    match headOf (slice src.text p s) with
    | .rv2 t => t = .rv2sv && (items.head?.any fun g => g.names src)
    | h => fits h items && scalarAll src items
  | _ => false

def scalarAll (src : Source) : List Form → Bool
  | [] => true
  | f :: fs => scalar src f && scalarAll src fs

end

mutual

/-- What may be a statement about scalars: an expression, or a loop over such statements. Only `whole` statements have
labels. -/
def clause (src : Source) (whole : Bool) : Form → Bool
  | list q e (atom p s :: items) =>
    if whole && slice src.text p s == utf8 "stmt" then
      match items with
      | [] => true
      | [f] => clause src false f
      | _ :: f :: _ => clause src false f
    else if headOf (slice src.text p s) = .foreach then
      match items with
      | _ :: lo :: hi :: body => scalar src lo && scalar src hi && clauseAll src body
      | _ => false
    else scalar src (list q e (atom p s :: items))
  | f => scalar src f

def clauseAll (src : Source) : List Form → Bool
  | [] => true
  | f :: fs => clause src true f && clauseAll src fs

end

theorem scalarAll_iff {src : Source} {fs : List Form} : scalarAll src fs = true ↔ ∀ f ∈ fs, scalar src f = true := by
  induction fs with
  | nil => simp [scalarAll]
  | cons f fs ih => simp [scalarAll, ih]

theorem clauseAll_iff {src : Source} {fs : List Form} : clauseAll src fs = true ↔ ∀ f ∈ fs, clause src true f = true := by
  induction fs with
  | nil => simp [clauseAll]
  | cons f fs ih => simp [clauseAll, ih]

end Form

namespace Tree

open Opcode Build TreeM

variable {u : Use} {t x y : Tree} {ks : List Tree}

theorem Scalar.folded {t' : Tree} (h : Scalar .operand t) (hf : Folded t t') : Scalar .operand t' := by
  rcases hf with rfl | ⟨-, r, v, line, id, rfl⟩
  · exact h
  · exact .leaf (Or.inl rfl)

theorem Fresh.code_ne_enteriter (h : Fresh t) : t.op.code ≠ .enteriter := by
  cases h with
  | undef hc => exact hc ▸ by decide
  | scalar h =>
    intro he
    have hm := h.code_mem
    rw [he] at hm
    exact absurd hm (by decide)

end Tree

namespace Assemble

open Build TreeM OpTree.Tree Form

variable {src : Source} {a b : Arena} {ts us : List Tree}

def Grows (P : Tree → Prop) (x : TreeM RecId) : Prop :=
  ∀ ⦃a b : Arena⦄ ⦃ts : List Tree⦄ ⦃r : RecId⦄, a.Site ts → x a = .ok r b → ∃ t, t.root = r ∧ P t ∧ b.Site (t :: ts)

theorem grows_throw {P : Tree → Prop} {e : Failure} : Grows P (throw e) := fun _ _ _ _ _ hok => absurd hok throw_ne_ok

theorem Grows.mono {P Q : Tree → Prop} {x : TreeM RecId} (h : Grows P x) (hPQ : ∀ t, P t → Q t) : Grows Q x := by
  intro a b ts r ha hok
  obtain ⟨t, hr, ht, hb⟩ := h ha hok
  exact ⟨t, hr, hPQ t ht, hb⟩

def Grown (f : Form) (t : Tree) : Prop := Fresh t ∧ (f.isAtom = false → Scalar .operand t)

theorem grown_of_scalar {t : Tree} (h : Scalar .operand t) (f : Form) : Grown f t := ⟨.scalar h, fun _ => h⟩

theorem mapM_grows {P : Form → Tree → Prop} {sub : Form → TreeM RecId} {fs : List Form} {ks : List RecId}
    (hsub : ∀ f ∈ fs, Grows (P f) (sub f)) (h : a.Site ts) (hok : fs.mapM sub a = .ok ks b) :
    ∃ us, us.map Tree.root = ks ∧ List.Forall₂ P fs us ∧ b.Site (us ++ ts) := by
  induction fs generalizing a ts ks with
  | nil =>
    obtain ⟨rfl, rfl⟩ := pure_eq_ok.mp (by simpa using hok)
    exact ⟨[], rfl, .nil, h⟩
  | cons f fs ih =>
    rw [List.mapM_cons] at hok
    obtain ⟨k, c, hk, hok⟩ := bind_eq_ok.mp hok
    obtain ⟨js, d, hjs, hok⟩ := bind_eq_ok.mp hok
    obtain ⟨rfl, rfl⟩ := pure_eq_ok.mp hok
    obtain ⟨hf, hfs⟩ := List.forall_mem_cons.mp hsub
    obtain ⟨t, rfl, ht, hc⟩ := hf h hk
    obtain ⟨us, rfl, hus, hd⟩ := ih hfs hc hjs
    exact ⟨t :: us, rfl, .cons ht hus, hd.perm List.perm_middle⟩

def heads : List Head :=
  unops.map (fun p => .unop p.2) ++ binops.map (fun p => .binop p.2) ++ listops.map (fun p => .listop p.2) ++
    logops.map (fun p => .logop p.2) ++ .unknown :: others.map (·.2)

theorem headOf_mem (s : Bytes) : headOf s ∈ heads := by
  have hlookup : ∀ {table : List (String × Opcode)} {f : Opcode → Head} {t : Opcode}, lookup table s = some t →
      f t ∈ table.map fun p => f p.2 := by
    intro table f t ht
    obtain ⟨q, hq, rfl⟩ := List.mem_map.mp (mem_of_lookup ht)
    exact List.mem_map.mpr ⟨q, hq, rfl⟩
  unfold headOf heads
  split
  · exact List.mem_append_left _ (List.mem_append_left _ (List.mem_append_left _ (List.mem_append_left _ (hlookup ‹_›))))
  · exact List.mem_append_left _ (List.mem_append_left _ (List.mem_append_left _ (List.mem_append_right _ (hlookup ‹_›))))
  · exact List.mem_append_left _ (List.mem_append_left _ (List.mem_append_right _ (hlookup ‹_›)))
  · exact List.mem_append_left _ (List.mem_append_right _ (hlookup ‹_›))
  · refine List.mem_append_right _ ?_
    cases hf : others.find? fun p => utf8 p.1 == s with
    | none => exact List.mem_cons_self ..
    | some p => exact List.mem_cons_of_mem _ (List.mem_map.mpr ⟨p, List.mem_of_find?_eq_some hf, rfl⟩)

/-- The ops that listings name are those of expressions about scalars, but for `length` and the ops of lists. -/
def Head.Named : Head → Prop
  | .unop t => t = .length ∨ t ∈ Opcode.unary
  | .binop t => t ∈ Opcode.binary
  | .logop t => t ∈ Opcode.short
  | _ => True

instance (h : Head) : Decidable h.Named := by
  unfold Head.Named
  split <;> infer_instance

theorem named_headOf (s : Bytes) : (headOf s).Named := by
  have hall : ∀ h ∈ heads, h.Named := by decide
  exact hall _ (headOf_mem s)

theorem forall₂_fresh {args : List Form} (h : List.Forall₂ Grown args us) : ∀ u ∈ us, Fresh u := by
  induction h with
  | nil => exact List.forall_mem_nil _
  | cons hx _ ih => exact List.forall_mem_cons.mpr ⟨hx.1, ih⟩

theorem operator_grows {l : Form} {head : Head} {mods : Modifiers} {args extra : List Form} {ks : List RecId} {r : RecId}
    (h : a.Site (us ++ ts)) (hks : us.map Tree.root = ks) (hus : List.Forall₂ Grown args us)
    (hextra : ∀ f ∈ extra, f.isAtom = true) (hfit : fits head (args ++ extra) = true) (hhead : head.Named)
    (hok : operator src l head mods ks a = .ok r b) : ∃ t, t.root = r ∧ Scalar .operand t ∧ b.Site (t :: ts) := by
  have hfresh := forall₂_fresh hus
  have hatom : ∀ {f : Form}, (!f.isAtom) = true → f.isAtom = false := fun hf => by simpa using hf
  unfold operator at hok
  split at hok
  · -- a unary op
    rename_i t q
    obtain ⟨x, rfl, rfl⟩ := List.map_eq_singleton_iff.mp hks
    obtain ⟨-, o, t', hr, hfold, hb⟩ := unop_ok h hok
    have hmem : t ∈ Opcode.unary := hhead.resolve_left (by simpa [fits] using hfit)
    refine ⟨t', hr, Scalar.folded ?_ hfold, hb⟩
    exact .unary hmem (hfresh x (by simp)).wantScalar
  · -- a binary op
    obtain ⟨x, y, rfl, rfl, rfl⟩ := roots_two hks
    have hx := hfresh x (by simp)
    obtain ⟨-, o, t', hr, hfold, hb⟩ := binop_ok h hx.code_ne_enteriter hok
    refine ⟨t', hr, Scalar.folded ?_ hfold, hb⟩
    exact .binary hhead hx.wantScalar (hfresh y (by simp)).wantScalar
  · -- an op with a list of operands
    rename_i t
    subst hks
    obtain ⟨-, o, m, t', hr, hfold, hb⟩ := listop_ok h hok
    refine ⟨t', hr, Scalar.folded ?_ hfold, hb⟩
    obtain ⟨o₁, hmark, he₁⟩ := snoc_eq o { code := t, id := a.seq + 1 } [] (.mk m { code := .pushmark, id := a.seq + 2 } [])
    obtain ⟨o₂, hall, he₂⟩ := snocAll_eq o o₁ ([] ++ [.mk m { code := .pushmark, id := a.seq + 2 } []]) us
    rw [he₁, he₂, List.nil_append, List.singleton_append]
    refine .marked ?_ rfl fun k hk => ?_
    · rw [hall.code, hmark.code]
      simpa [fits, or_assoc] using hfit
    · obtain ⟨u, hu, rfl⟩ := List.mem_map.mp hk
      exact (hfresh u hu).wantList
  · -- a short-circuit op
    rename_i t q q'
    obtain ⟨x, y, rfl, rfl, rfl⟩ := roots_two hks
    simp only [List.forall₂_cons_right_iff, List.forall₂_nil_right_iff] at hus
    obtain ⟨f, _, hx, ⟨g, _, hy, rfl, rfl⟩, rfl⟩ := hus
    obtain ⟨-, n, i, j, hb⟩ := logop_ok h hok
    refine ⟨_, rfl, ?_, hb⟩
    refine .short rfl hhead (fun _ => ?_) hx.1.wantScalar (hy.2 (hatom hfit))
    show Want.ofBits (0 ||| Flags.kids) ≠ .void
    decide
  · -- a literal
    obtain ⟨x, rfl, rfl⟩ := List.map_eq_singleton_iff.mp hks
    have hcode : (a.node x.root).code = x.op.code := by
      rw [← (h.holds x (by simp)).fits.op, Node.plain_code]
    rw [bind_of_ok (node_apply _ _), hcode] at hok
    split at hok
    · rename_i hc
      obtain ⟨rfl, rfl⟩ := pure_eq_ok.mp hok
      refine ⟨x, rfl, ?_, h⟩
      rcases hfresh x (by simp) with ⟨hs, -⟩ | hx
      · exact absurd (hs.symm.trans hc) (by decide)
      · exact hx
    · exact absurd hok throw_ne_ok
  · cases hfit
  · cases hfit
  · cases hfit
  · cases hfit
  · cases hfit
  · cases hfit
  · cases hfit
  · -- an assignment
    obtain ⟨x, y, rfl, rfl, rfl⟩ := roots_two hks
    refine ⟨_, rfl, ?_, sassign_ok h hok⟩
    refine .binary (show Opcode.sassign ∈ Opcode.binary by decide) (hfresh x (by simp)).wantScalar ?_
    exact ((hfresh y (by simp)).withFlag (by decide)).wantScalar
  · -- the other branch is not missing
    rename_i q q'
    obtain ⟨x, y, rfl, rfl, rfl⟩ := roots_two hks
    simp only [List.forall₂_cons_right_iff, List.forall₂_nil_right_iff] at hus
    obtain ⟨f, _, hx, ⟨g, _, hy, rfl, rfl⟩, rfl⟩ := hus
    cases extra with
    | nil => cases hfit
    | cons e extra =>
      have he := hextra e (List.mem_cons_self ..)
      simp [fits, he] at hfit
  · -- a conditional
    obtain ⟨x, y, z, rfl, rfl, rfl, rfl⟩ := roots_three hks
    simp only [List.forall₂_cons_right_iff, List.forall₂_nil_right_iff] at hus
    obtain ⟨f, _, hx, ⟨g, _, hy, ⟨e, _, hz, rfl, rfl⟩, rfl⟩, rfl⟩ := hus
    obtain ⟨hg, he⟩ : (!g.isAtom) = true ∧ (!e.isAtom) = true := by simpa [fits] using hfit
    obtain ⟨n, i, j, hb⟩ := cond_ok h hok
    refine ⟨_, rfl, ?_, hb⟩
    exact .choice rfl rfl hx.1.wantScalar (hy.2 (hatom hg)) (hz.2 (hatom he))
  · exact absurd hok throw_ne_ok

theorem takeModifiers_atoms (mods : Modifiers) (fs : List Form) :
    ∃ extra, fs = extra ++ (takeModifiers src mods fs).1 ∧ ∀ f ∈ extra, f.isAtom = true := by
  induction fs generalizing mods with
  | nil => exact ⟨[], rfl, List.forall_mem_nil _⟩
  | cons f fs ih =>
    unfold takeModifiers
    split
    · rename_i p s rest heq
      obtain ⟨rfl, rfl⟩ := List.cons.inj heq
      dsimp only
      have hmore : ∀ mods, ∃ extra, Form.atom p s :: fs = extra ++ (takeModifiers src mods fs).1 ∧
          ∀ f ∈ extra, f.isAtom = true := by
        intro mods
        obtain ⟨extra, he, hatoms⟩ := ih mods
        exact ⟨.atom p s :: extra, by rw [List.cons_append, ← he], List.forall_mem_cons.mpr ⟨rfl, hatoms⟩⟩
      split
      · exact hmore _
      · split
        · exact hmore _
        · exact ⟨[], rfl, List.forall_mem_nil _⟩
    · exact ⟨[], rfl, List.forall_mem_nil _⟩

theorem splitList_ok {l : Form} {p s : Nat} {items args : List Form} {name : Bytes} {mods : Modifiers}
    (h : splitList src l (.atom p s :: items) a = .ok (name, args, mods) b) :
    name = slice src.text p s ∧ b = a ∧ ∃ extra, items = args ++ extra ∧ ∀ f ∈ extra, f.isAtom = true := by
  unfold splitList at h
  obtain ⟨hval, rfl⟩ := pure_eq_ok.mp h
  obtain ⟨rfl, hrest⟩ := Prod.mk.inj hval
  obtain ⟨rfl, -⟩ := Prod.mk.inj hrest
  obtain ⟨extra, he, hatoms⟩ := @takeModifiers_atoms src {} items.reverse
  refine ⟨rfl, rfl, extra.reverse, ?_, fun f hf => hatoms f (List.mem_reverse.mp hf)⟩
  rw [← List.reverse_append, ← he, List.reverse_reverse]

theorem readVar_grows {name : Bytes} (hname : name.head? = some 36) : Grows (Scalar .operand) (readVar name) := by
  intro a b ts r h hok
  rw [readVar, hname, bind_of_ok (get_apply a)] at hok
  dsimp only at hok
  split at hok
  · obtain ⟨-, -, hb⟩ := pad_ok h hok
    exact ⟨_, rfl, .leaf (Or.inr rfl), hb⟩
  · obtain ⟨g, c, hg, hok⟩ := bind_eq_ok.mp hok
    obtain ⟨-, hb⟩ := rv2_ok (gv_ok h hg) hok
    exact ⟨_, rfl, .global rfl (code_wantScalar _), hb⟩

theorem my_grows {name : Bytes} (hname : name.head? = some 36) (shape : Int) : Grows (Scalar .operand) (my name shape) := by
  intro a b ts r h hok
  rw [my, hname] at hok
  obtain ⟨targ, c, htarg, hok⟩ := bind_eq_ok.mp hok
  obtain ⟨-, -, hb⟩ := pad_ok (addPad_ok h htarg) hok
  exact ⟨_, rfl, .leaf (Or.inr rfl), hb⟩

theorem declare_grows {sub : Form → TreeM RecId} {l : Form} {q e : Nat} {args : List Form}
    (hname : (slice src.text q e).head? = some 36) (hsub : ∀ f ∈ args, Grows (Grown f) (sub f)) :
    Grows (Scalar .operand) (declare src sub l (.var q e :: args)) := by
  intro a b ts r h hok
  unfold declare at hok
  dsimp only at hok
  split at hok
  · exact my_grows hname _ h hok
  · rename_i x
    rw [hname] at hok
    obtain ⟨i, c, hi, hok⟩ := bind_eq_ok.mp hok
    obtain ⟨o, d, ho, hok⟩ := bind_eq_ok.mp hok
    obtain ⟨x', rfl, hx, hc⟩ := hsub x (by simp) h hi
    obtain ⟨y, rfl, hy, hd⟩ := my_grows hname _ hc ho
    refine ⟨_, rfl, ?_, sassign_ok (hd.perm (List.Perm.swap x' y ts)) hok⟩
    refine .binary (show Opcode.sassign ∈ Opcode.binary by decide) hx.1.wantScalar ?_
    exact ((Fresh.scalar hy).withFlag (by decide)).wantScalar
  · exact absurd hok throw_ne_ok

theorem readPad_grows (l : Form) (args : List Form) (mods : Modifiers) :
    Grows (Scalar .operand) (readPad src l .padsv args mods) := by
  intro a b ts r h hok
  unfold readPad at hok
  split at hok
  · rw [bind_of_ok (get_apply a)] at hok
    split at hok
    · exact absurd hok throw_ne_ok
    · obtain ⟨-, -, hb⟩ := pad_ok h hok
      exact ⟨_, rfl, .leaf (Or.inr rfl), hb⟩
  · exact absurd hok throw_ne_ok
  · exact absurd hok throw_ne_ok

theorem float_grows (f : Form) (text : Bytes) : Grows (Scalar .operand) (float src f text) := by
  unfold float
  split
  · exact fun a b ts r h hok => ⟨_, rfl, .leaf (Or.inl rfl), const_ok h hok⟩
  · exact grows_throw
  · exact grows_throw

def Global (t : Tree) : Prop := ∃ r o, t = .mk r o [] ∧ o.code = .gv

theorem readGlob_grows (l : Form) (args : List Form) : Grows Global (readGlob src l args) := by
  have hgv : ∀ name : Bytes, Grows Global (Build.gv name) := fun name a b ts r h hok =>
    ⟨_, rfl, ⟨_, _, rfl, rfl⟩, gv_ok h hok⟩
  unfold readGlob
  split
  · exact hgv _
  · exact hgv _
  · exact grows_throw
  · exact grows_throw

theorem list_grows {P : Tree → Prop} {sub : Form → TreeM RecId} {l : Form} {p s : Nat} {items : List Form}
    (h : ∀ name args extra mods, items = args ++ extra → (∀ f ∈ extra, f.isAtom = true) →
      Grows P (match headOf (slice src.text p s) with
        | .unknown => complain src l (utf8 "unknown op " ++ Quoted.text name)
        | .stub => Build.stub
        | .my => declare src sub l args
        | .pad t => readPad src l t args mods
        | .gv => readGlob src l args
        | .foreach => loop src sub l args
        | head => do
          checkCount src l name args.length (arity head).1 (arity head).2
          operator src l head mods (← args.mapM sub))) :
    Grows P (list src sub l (.atom p s :: items)) := by
  intro a b ts r ha hok
  obtain ⟨⟨name, args, mods⟩, c, hsplit, hlist⟩ := bind_eq_ok.mp hok
  obtain ⟨rfl, rfl, extra, hitems, hatoms⟩ := splitList_ok hsplit
  exact h _ args extra mods hitems hatoms ha hlist

theorem names_grows {f : Form} (hf : f.names src = true) (fuel : Nat) : Grows Global (expr src fuel f) := by
  cases fuel with
  | zero => exact grows_throw
  | succ fuel =>
    unfold Form.names at hf
    split at hf
    · refine list_grows fun name args extra mods _ _ => ?_
      rw [of_decide_eq_true hf]
      exact readGlob_grows _ _
    · cases hf

theorem deref_grows {fuel : Nat} {l g : Form} {name : Bytes} {args extra : List Form} {mods : Modifiers} {lo : Nat}
    {hi? : Option Nat} (hg : (args ++ extra).head? = some g) (hn : g.names src = true) : Grows (Scalar .operand) (do
      checkCount src l name args.length lo hi?
      operator src l (.rv2 .rv2sv) mods (← args.mapM (expr src fuel))) := by
  intro a b ts r h hok
  obtain ⟨_, d, hd, hok⟩ := bind_eq_ok.mp hok
  rw [checkCount_eq hd] at hok
  obtain ⟨ks, c, hks, hok⟩ := bind_eq_ok.mp hok
  match args with
  | [] =>
    obtain ⟨rfl, rfl⟩ := pure_eq_ok.mp (by simpa using hks)
    exact absurd hok throw_ne_ok
  | [f] =>
    obtain rfl : f = g := Option.some.inj hg
    rw [List.mapM_cons, List.mapM_nil] at hks
    obtain ⟨k, d, hk, hks⟩ := bind_eq_ok.mp hks
    obtain ⟨rfl, rfl⟩ := pure_eq_ok.mp hks
    obtain ⟨t, rfl, ⟨q, o, rfl, ho⟩, hd⟩ := names_grows hn fuel h hk
    obtain ⟨-, hb⟩ := rv2_ok hd hok
    exact ⟨_, rfl, .global rfl ((code_wantScalar (.mk q o [])).trans ho), hb⟩
  | f :: f' :: fs =>
    rw [List.mapM_cons, List.mapM_cons] at hks
    obtain ⟨k, d, -, hks⟩ := bind_eq_ok.mp hks
    obtain ⟨js, d', hjs, hks⟩ := bind_eq_ok.mp hks
    obtain ⟨k', e, -, hjs⟩ := bind_eq_ok.mp hjs
    obtain ⟨js', e', -, hjs⟩ := bind_eq_ok.mp hjs
    obtain ⟨rfl, rfl⟩ := pure_eq_ok.mp hjs
    obtain ⟨rfl, rfl⟩ := pure_eq_ok.mp hks
    exact absurd hok throw_ne_ok

theorem expr_grows (fuel : Nat) {f : Form} (hf : f.scalar src = true) : Grows (Grown f) (expr src fuel f) := by
  induction fuel generalizing f with
  | zero => exact grows_throw
  | succ fuel ih =>
    have hscalar : ∀ {x : TreeM RecId}, Grows (Scalar .operand) x → Grows (Grown f) x := fun hx =>
      hx.mono fun t ht => grown_of_scalar ht f
    cases f with
    | int p s => exact hscalar fun a b ts r h hok => ⟨_, rfl, .leaf (Or.inl rfl), const_ok h hok⟩
    | float p s => exact hscalar (float_grows _ _)
    | str p s v => exact hscalar fun a b ts r h hok => ⟨_, rfl, .leaf (Or.inl rfl), const_ok h hok⟩
    | var p s =>
      rw [Form.scalar] at hf
      exact hscalar (readVar_grows (by simpa using hf))
    | atom p s =>
      simp only [expr]
      split
      · have hblank : Want.ofBits 0 = .unknown := by decide
        intro a b ts r h hok
        refine ⟨_, rfl, ?_, stub_ok h hok⟩
        exact ⟨.undef rfl hblank, by rintro ⟨⟩⟩
      · exact grows_throw
    | list q e items =>
      cases items with
      | nil => cases hf
      | cons i items =>
        cases i with
        | atom p s =>
          refine hscalar (list_grows fun name args extra mods hitems hatoms => ?_)
          rw [Form.scalar] at hf
          have hnamed := named_headOf (slice src.text p s)
          generalize headOf (slice src.text p s) = head at hf hnamed ⊢
          have hops : Form.fits head items = true → Form.scalarAll src items = true → Grows (Scalar .operand) (do
              checkCount src (.list q e (.atom p s :: items)) name args.length (arity head).1 (arity head).2
              operator src (.list q e (.atom p s :: items)) head mods (← args.mapM (expr src fuel))) := by
            intro hfit hall a b ts r h hok
            obtain ⟨_, d, hd, hok⟩ := bind_eq_ok.mp hok
            rw [checkCount_eq hd] at hok
            obtain ⟨ks, c, hks, hok⟩ := bind_eq_ok.mp hok
            have hin := Form.scalarAll_iff.mp hall
            obtain ⟨us, hroots, hus, hc⟩ := mapM_grows (fun f hm => ih (hin f (by simp [hitems, hm]))) h hks
            exact operator_grows hc hroots hus hatoms (hitems ▸ hfit) hnamed hok
          cases head with
          | unop | binop | listop | logop | const | sassign | cond =>
            obtain ⟨hfit, hall⟩ := Bool.and_eq_true_iff.mp hf
            exact hops hfit hall
          | rv2 t =>
            obtain ⟨ht, hg⟩ := Bool.and_eq_true_iff.mp hf
            rw [of_decide_eq_true ht]
            cases hhead : items.head? with
            | none =>
              rw [hhead] at hg
              cases hg
            | some g =>
              rw [hhead] at hg
              exact deref_grows (hitems ▸ hhead) hg
          | pad t =>
            obtain ⟨hfit, -⟩ := Bool.and_eq_true_iff.mp hf
            rw [of_decide_eq_true hfit]
            exact readPad_grows _ _ _
          | my =>
            obtain ⟨hfit, hall⟩ := Bool.and_eq_true_iff.mp hf
            have hin := Form.scalarAll_iff.mp hall
            cases args with
            | nil => exact grows_throw
            | cons v args =>
              subst hitems
              cases v with
              | var q' e' =>
                have hv := hin _ (List.mem_cons_self ..)
                rw [Form.scalar] at hv
                exact declare_grows (by simpa using hv) fun f hm => ih (hin f (by simp [hm]))
              | _ => cases hfit
          | _ => simp [Form.fits] at hf
        | _ => cases hf
    | fixed _ => cases hf
    | word _ => cases hf

end Assemble

end OpTree
