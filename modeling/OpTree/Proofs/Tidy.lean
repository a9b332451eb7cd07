import OpTree.Proofs.TidyRecords

/-!
# Tidy arenas

What constructors keep: only branching ops have a second successor, no op counts as visited, and no variable
gets lost. Most of what a constructor does is steady: it neither turns an op into another one nor touches any
of this.
-/

namespace OpTree

set_option autoImplicit false

namespace Build

open TreeM

theorem steady_operand (r : RecId) (w : Want) :
    Steady (update r fun n => if n.want = .unknown then n.withWant w else n) := by
  refine steady_update fun n => ?_
  split <;> rfl

theorem steady_appendScalar (o k : RecId) : Steady (appendScalar o k) :=
  (steady_operand k .scalar).bind fun _ => steady_append _ _

theorem steady_setFlag (r : RecId) (f : Flags) : Steady (setFlag r f) :=
  steady_update fun _ => rfl

theorem tidies_const (v : Value) : Tidies (const v) := by
  refine (tidies_new _ _).bind fun o => Tidies.bind ?_ fun _ => (steady_pure _).tidies
  exact tidies_data fun _ => rfl

theorem tidies_pad (t : Opcode) (targ : Int) (p : Priv) : Tidies (pad t targ p) := by
  have hpad : ∀ t : Opcode, Tidies (do
      let o ← new t 0
      update o fun n => { n with targ := targ, priv := p }
      return o) := by
    intro t
    refine (tidies_new _ _).bind fun o => Tidies.bind ?_ fun _ => (steady_pure _).tidies
    exact tidies_data fun _ => rfl
  unfold pad
  split
  · exact hpad _
  · exact hpad _
  · exact hpad _
  · exact tidies_throw _

theorem tidies_addPad (name : Bytes) (shape : Int) : Tidies (addPad name shape) := by
  intro a b v ha hok
  cases hok
  exact ⟨⟨ha.clean, ⟨ha.numbered.le, ha.numbered.inj⟩, ha.held⟩, by simp [Pad.size], rfl⟩

theorem tidies_my (name : Bytes) (shape : Int) : Tidies (my name shape) := by
  unfold my
  split
  · exact tidies_throw _
  · exact (tidies_addPad _ _).bind fun _ => tidies_pad _ _ _

theorem tidies_gv (name : Bytes) : Tidies (gv name) := by
  refine (tidies_new _ _).bind fun o => Tidies.bind ?_ fun _ => (steady_pure _).tidies
  exact tidies_data fun _ => rfl

theorem tidies_rv2 (t : Opcode) (k : RecId) : Tidies (rv2 t k) := by
  have hnew : Tidies (do
      let o ← new t 0
      appendScalar o k
      return o) :=
    (tidies_new _ _).bind fun o => (steady_appendScalar o k).tidies.bind fun _ => (steady_pure _).tidies
  refine Tidies.bind ?_ fun _ => hnew
  unfold checkRv2
  split
  · exact (steady_pure _).tidies
  · exact (steady_pure _).tidies
  · exact (steady_pure _).tidies
  · exact tidies_throw _

theorem tidies_scalar (k : RecId) : Tidies (scalar k) :=
  (tidies_new _ _).bind fun o => (steady_appendScalar o k).tidies.bind fun _ => (steady_pure _).tidies

theorem steady_checkClass (c : OpClass) (what : String) (t : Opcode) : Steady (checkClass c what t) :=
  steady_ite (steady_pure _) (steady_throw _)

theorem tidies_unop (t : Opcode) (k? : Option RecId) (p : Priv) : Tidies (unop t k? p) := by
  refine (steady_checkClass ..).tidies.bind fun _ => (tidies_new _ _).bind fun o => Tidies.bind ?_ fun _ => ?_
  · exact tidies_data fun _ => rfl
  · split
    · exact (steady_appendScalar o _).tidies.bind fun _ => tidies_fold o
    · exact tidies_fold o

theorem tidies_binop (t : Opcode) (l r : RecId) : Tidies (binop t l r) :=
  (steady_checkClass ..).tidies.bind fun _ => (tidies_new _ _).bind fun o =>
    (steady_appendScalar o l).tidies.bind fun _ => (steady_appendScalar o r).tidies.bind fun _ =>
      tidies_fold o

theorem tidies_listop (t : Opcode) (ks : List RecId) : Tidies (listop t ks) := by
  refine (steady_checkClass ..).tidies.bind fun _ => (tidies_new _ _).bind fun o =>
    (tidies_new _ _).bind fun m => (steady_append o _).tidies.bind fun _ => ?_
  refine Tidies.bind (tidies_forM fun k => ?_) fun _ => tidies_fold o
  exact (steady_operand k .list).tidies.bind fun _ => (steady_append _ _).tidies

theorem tidies_elem (t : Opcode) (c key : RecId) (deref : Priv) : Tidies (elem t c key deref) := by
  have hkids : Tidies (do
      let o ← new t 0
      append o (some c)
      appendScalar o key
      return o) :=
    (tidies_new _ _).bind fun o => (steady_append o _).tidies.bind fun _ =>
      (steady_appendScalar o key).tidies.bind fun _ => (steady_pure _).tidies
  have hderef : ∀ k : RecId, Tidies (update k fun n => { n with priv := n.priv ||| deref }) :=
    fun k => tidies_data fun _ => rfl
  refine (steady_setFlag _ _).tidies.bind fun _ => (steady_node c).tidies.bind fun n => ?_
  split
  · exact (steady_node _).tidies.bind fun _ => tidies_ite ((hderef _).bind fun _ => hkids) hkids
  · exact (steady_node _).tidies.bind fun _ => tidies_ite ((hderef _).bind fun _ => hkids) hkids
  · exact hkids

theorem tidies_elemop (t : Opcode) (e : RecId) : Tidies (elemop t e) := by
  have hkid : Tidies (do
      let o ← new t 0
      append o (some e)
      return o) :=
    (tidies_new _ _).bind fun o => (steady_append o _).tidies.bind fun _ => (steady_pure _).tidies
  intro a b v ha hok
  rw [elemop, bind_of_ok (node_apply e a)] at hok
  cases hc : (a.node e).code <;> rw [hc] at hok
  case aelem | helem =>
    obtain ⟨u, c, hnull, hok⟩ := bind_eq_ok.mp hok
    have hnulled := neutralize_tidy ha (by simp [hc]) hnull
    exact hnulled.trans (hkid hnulled.tidy hok)
  all_goals exact absurd hok throw_ne_ok

theorem tidies_arylen (av : RecId) : Tidies (arylen av) :=
  (steady_setFlag _ _).tidies.bind fun _ => (tidies_new _ _).bind fun o =>
    (steady_append o _).tidies.bind fun _ => (steady_pure _).tidies

theorem tidies_sassign (src dst : RecId) : Tidies (sassign src dst) :=
  (steady_setFlag _ _).tidies.bind fun _ => (tidies_new _ _).bind fun o =>
    (steady_appendScalar o src).tidies.bind fun _ => (steady_appendScalar o dst).tidies.bind fun _ =>
      (steady_pure _).tidies

theorem tidies_branch {α β : Type} {t : Opcode} {x : RecId → TreeM β} {g : β → Option RecId}
    {f : RecId → β → TreeM α} (ht : t.opClass = .logop) (hx : ∀ l, Steady (x l))
    (hf : ∀ l v, Tidies (f l v)) : Tidies (do
      let l ← new t 0
      let v ← x l
      update l fun n => { n with other := g v }
      f l v) := by
  intro a b w ha hok
  obtain ⟨l, c, hl, hok⟩ := bind_eq_ok.mp hok
  obtain ⟨v, d, hv, hok⟩ := bind_eq_ok.mp hok
  have hcd := hx l hv
  have hnew := tidies_new _ _ ha hl
  have hdone := hnew.trans ((hx l).tidies hnew.tidy hv)
  have hd := hdone.tidy
  rw [bind_of_ok (update_apply ..)] at hok
  have hset : d.Tidied (d.update l fun n => { n with other := g v }) := by
    refine hd.inherits (fun q => ?_) (Arena.inherits_update fun _ => ⟨rfl, rfl⟩) hd.held
    by_cases hq : q = l ∧ l < d.recs.size
    · obtain ⟨rfl, hlt⟩ := hq
      have hcode : (d.node q).code = t := (hcd.code q).trans (new_code hl (hcd.size ▸ hlt))
      rw [Arena.node_update_self hlt]
      refine ⟨Or.inr ?_, (hd.clean q).unmarked⟩
      have hnull : t ≠ .null := by
        rintro rfl
        cases ht
      simp [Node.opClass, Node.isEx, hcode, hnull, ht]
    · rcases Arena.node_update_cases (a := d) (r := l) (f := fun n => { n with other := g v }) q with
        h | ⟨hql, h⟩
      · rw [h]
        exact hd.clean q
      · have hout : d.recs.size ≤ q := Nat.le_of_not_lt fun hlt => hq ⟨hql, hql ▸ hlt⟩
        rw [Arena.node_of_le (by simpa using hout)]
        exact Node.tidy_blank rfl rfl
  exact (hdone.trans hset).trans (hf l v hset.tidy hok)

theorem checkLogop_class {a b : Arena} {t : Opcode} {u : Unit} (h : checkLogop t a = .ok u b) :
    t.opClass = .logop ∧ b = a := by
  unfold checkLogop at h
  split at h
  · exact ⟨rfl, (pure_eq_ok.mp h).2.symm⟩
  · exact ⟨rfl, (pure_eq_ok.mp h).2.symm⟩
  · exact ⟨rfl, (pure_eq_ok.mp h).2.symm⟩
  · exact absurd h throw_ne_ok

theorem tidies_logop (t : Opcode) (x y : RecId) : Tidies (logop t x y) := by
  intro a b v ha hok
  obtain ⟨u, c, hu, hrest⟩ := bind_eq_ok.mp hok
  obtain ⟨ht, rfl⟩ := checkLogop_class hu
  refine tidies_branch (x := fun l => do appendScalar l x; append l (some y); linearize y)
    (g := fun o => o)
    (f := fun l _ => do
      let s ← linearize x
      float l s
      setNext x (some l)
      let n ← new .null 0
      append n (some l)
      setNext y (some n)
      return n) ht (fun l => ?_) (fun l o => ?_) ha (by simpa only [bind_assoc] using hrest)
  · exact (steady_appendScalar l x).bind fun _ => (steady_append l _).bind fun _ => steady_linearize y
  · exact (steady_linearize x).tidies.bind fun s => (steady_float l s).tidies.bind fun _ =>
      (steady_setNext x _).tidies.bind fun _ => (tidies_new _ _).bind fun n =>
        (steady_append n _).tidies.bind fun _ => (steady_setNext y _).tidies.bind fun _ =>
          (steady_pure n).tidies

theorem tidies_cond (x y z : RecId) : Tidies (cond x y z) := by
  intro a b v ha hok
  unfold cond at hok
  refine tidies_branch (t := .condExpr) (x := fun l => do
      appendScalar l x
      append l (some y)
      append l (some z)
      let start ← linearize x
      setNext x (some l)
      let o ← linearize y
      return (start, o)) (g := Prod.snd)
    (f := fun l p => do
      setNext l (← linearize z)
      let n ← new .null 0
      append n (some l)
      setNext y (some n)
      setNext z (some n)
      float n p.1
      return n) rfl (fun l => ?_) (fun l p => ?_) ha (by simpa only [bind_assoc, pure_bind] using hok)
  · exact (steady_appendScalar l x).bind fun _ => (steady_append l _).bind fun _ =>
      (steady_append l _).bind fun _ => (steady_linearize x).bind fun _ =>
        (steady_setNext x _).bind fun _ => (steady_linearize y).bind fun _ => steady_pure _
  · exact (steady_linearize z).tidies.bind fun s => (steady_setNext l s).tidies.bind fun _ =>
      (tidies_new _ _).bind fun n => (steady_append n _).tidies.bind fun _ =>
        (steady_setNext y _).tidies.bind fun _ => (steady_setNext z _).tidies.bind fun _ =>
          (steady_float n _).tidies.bind fun _ => (steady_pure n).tidies

theorem tidies_nextstate (label : Bytes) (line : Int) : Tidies (nextstate label line) := by
  refine (tidies_new _ _).bind fun o => steady_get.tidies.bind fun _ => Tidies.bind ?_ fun _ =>
    (steady_pure o).tidies
  exact tidies_data fun _ => rfl

theorem steady_voidFrom (fuel : Nat) :
    (∀ o, Steady (voidFrom fuel o)) ∧ ∀ ks, Steady (voidAll fuel ks) := by
  induction fuel with
  | zero =>
    refine ⟨fun o => steady_throw _, fun ks => ?_⟩
    cases ks with
    | nil => exact steady_pure _
    | cons k ks => exact steady_throw _
  | succ fuel ih =>
    refine ⟨fun o => ?_, fun ks => ?_⟩
    · have hkid : ∀ i : Int, Steady (do voidFrom fuel (← need (← kid? o i))) := fun i =>
        (steady_kid? o i).bind fun _ => (steady_need _).bind ih.1
      have hwant : Steady (setWant o .void) := steady_update fun _ => rfl
      unfold voidFrom
      refine hwant.bind fun _ => (steady_node o).bind fun n => ?_
      split
      · refine (steady_node o).bind fun _ => ?_
        split
        · exact (steady_node _).bind fun _ => steady_ite (ih.1 _) (steady_pure _)
        · exact steady_pure _
      · exact hkid 1
      · exact hkid 1
      · exact hkid 1
      · exact (steady_kid? o 1).bind fun _ => (steady_need _).bind fun k => (ih.1 k).bind fun _ => hkid 2
      · exact (steady_kids o).bind ih.2
      · exact (steady_kids o).bind ih.2
      · exact (steady_kids o).bind ih.2
      · exact steady_pure _
    · cases ks with
      | nil => exact steady_pure _
      | cons k ks =>
        unfold voidAll
        refine (steady_node k).bind fun n => ?_
        exact steady_ite ((ih.1 k).bind fun _ => ih.2 ks) (ih.2 ks)

theorem steady_void (o : RecId) : Steady (void o) := steady_get.bind fun _ => (steady_voidFrom _).1 o

theorem tidies_blockItems (seq : RecId) (tail : Bool) (stmts : List Stmt) :
    Tidies (blockItems seq tail stmts) := by
  induction stmts with
  | nil => exact (steady_pure _).tidies
  | cons s rest ih =>
    refine (tidies_nextstate _ _).bind fun n => (steady_append seq _).tidies.bind fun _ => ?_
    have happend : ∀ e : RecId, Tidies (do
        append seq (some e)
        blockItems seq tail rest) := fun e => (steady_append seq _).tidies.bind fun _ => ih
    cases s.expr? with
    | none => exact ih
    | some e => exact tidies_ite ((steady_void e).tidies.bind fun _ => happend e) (happend e)

theorem tidies_block (stmts : List Stmt) (tail : Bool) : Tidies (block stmts tail) :=
  (tidies_new _ _).bind fun seq => (tidies_blockItems seq tail stmts).bind fun _ => (steady_pure seq).tidies

theorem tidies_foreach (targ : Int) (lo hi : RecId) (body : List Stmt) :
    Tidies (foreach targ lo hi body) := by
  refine (tidies_new _ _).bind fun ent => Tidies.bind ?_ fun _ => ?_
  · exact tidies_data fun _ => rfl
  · exact (steady_appendScalar ent lo).tidies.bind fun _ => (steady_appendScalar ent hi).tidies.bind fun _ =>
      (tidies_block body false).bind fun seq => (tidies_new _ _).bind fun unstack =>
        (steady_append seq _).tidies.bind fun _ => (tidies_new _ _).bind fun iter =>
          (tidies_logop .and iter seq).bind fun wrap => (steady_linearize wrap).tidies.bind fun s =>
            (steady_setNext unstack s).tidies.bind fun _ => (tidies_new _ _).bind fun o =>
              (steady_append o _).tidies.bind fun _ => (steady_append o _).tidies.bind fun _ =>
                (steady_pure o).tidies

theorem tidies_sub (stmts : List Stmt) : Tidies (sub stmts) := by
  refine (tidies_new _ _).bind fun o => (tidies_block stmts true).bind fun seq =>
    (steady_append o _).tidies.bind fun _ => Tidies.bind ?_ fun _ => (steady_pure o).tidies
  exact tidies_data fun _ => rfl

theorem Call.tidies {ks : List RecId} {x : TreeM RecId} (h : Call ks x) : Tidies x := by
  cases h with
  | const v => exact tidies_const v
  | pad t targ p => exact tidies_pad t targ p
  | my name shape => exact tidies_my name shape
  | gv name => exact tidies_gv name
  | stub => exact tidies_new _ _
  | rv2 t k => exact tidies_rv2 t k
  | scalar k => exact tidies_scalar k
  | unop t k? p => exact tidies_unop t k? p
  | binop t x y => exact tidies_binop t x y
  | listop t ks => exact tidies_listop t ks
  | aelem c k => exact tidies_elem _ c k _
  | helem c k => exact tidies_elem _ c k _
  | existsElem e => exact tidies_elemop _ e
  | deleteElem e => exact tidies_elemop _ e
  | arylen av => exact tidies_arylen av
  | sassign src dst => exact tidies_sassign src dst
  | logop t x y => exact tidies_logop t x y
  | cond x y z => exact tidies_cond x y z
  | foreach targ lo hi body => exact tidies_foreach targ lo hi body

end Build

end OpTree
