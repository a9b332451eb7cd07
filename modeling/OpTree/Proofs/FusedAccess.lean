import OpTree.Program
import OpTree.Proofs.Fusion

/-!
# Whole chains

A chain of element accesses, from its first op to the op that is fused, and the walk of the fused op
along its path.
-/

namespace OpTree

set_option autoImplicit false

open Machine

/-- Does the container on the stack have an element under the key on top of it. -/
def Machine.Finds (m : Machine) : Prop :=
  ∀ xs c k, m.stack = xs ++ [c] ++ [.scalar k] → m.heap.HasUnder c (m.value k)

namespace Peep

variable {a : Arena}

/-- An op that fusing does no harm to: a constant key is defined, and at most one kind of container
is asked for. -/
structure Tame (a : Arena) (r : RecId) : Prop where
  key : (a.node r).code = .const → (a.node r).val.value.defined = true
  deref : ¬ ((a.node r).priv.has Priv.derefAV = true ∧ (a.node r).priv.has Priv.derefHV = true)

theorem same_deref {p : Priv} {hash : Bool} (hp : p.has (derefBit hash) = true)
    (hone : ¬ (p.has Priv.derefAV = true ∧ p.has Priv.derefHV = true)) :
    (derefBit hash).derefs = p.derefs ∧ (derefBit hash).has Priv.derefAV = p.has Priv.derefAV := by
  cases hash with
  | false =>
    have hp : p.has Priv.derefAV = true := hp
    refine ⟨?_, hp.symm⟩
    rw [Priv.derefs, Priv.derefs, Priv.has_or p, hp]
    rfl
  | true =>
    have hp : p.has Priv.derefHV = true := hp
    have hav : p.has Priv.derefAV = false := by
      rw [← Bool.not_eq_true]
      exact fun h => hone ⟨h, hp⟩
    refine ⟨?_, ?_⟩
    · rw [Priv.derefs, Priv.derefs, Priv.has_or p, hp, Bool.or_true]
      rfl
    · rw [hav]
      rfl

end Peep

namespace Exec

open Peep

variable {a : Arena} {s r : RecId} {act : Action} {head : List RecId} {l : PathLevel} {it : PathItem}
  {e : Node} {ct : Int}

def Begun (h₀ : Heap) (p : Pad) (act : Action) (ct : Int) (c : Item) : Prop :=
  IsContainer act.isHash c ∧ (act.kind = Action.padavAelem.byte → ∀ b, c = .array (some b) →
    b < h₀.arrays.size ∧ (h₀.array b).shape = p.shape ct)

theorem sameCheck {h₀ : Heap} {c : Item} {w : Value} {sn : Node} {keys : Bytes}
    (hb : act ∈ Action.bases) (hk : KeyKind a act e ct l) (hn : e.code ≠ .null)
    (hc : Begun h₀ a.pad act ct c) (hw : ∀ i, (a.node l.key).constInt? = some i → w = .int i) :
    SameCheck h₀ e (pathItem a sn keys l) c w := by
  have hun : (pathItem a sn keys l).act.unchecked = decide (l.act ≠ act) :=
    (itemBits sn keys hb hk).unchecked
  have hne : ∀ act ∈ Action.bases, act.or Action.uncheckedBit ≠ act := by decide
  have hlevel (hl : l.act = act.level e) : SameCheck h₀ e (pathItem a sn keys l) c w := by
    refine Or.inl ?_
    rw [hun, hl, Action.level]
    by_cases he : e.code = .aelemU
    · simp [he, hne act hb]
    · simp [he, hn]
  cases hk with
  | var _ hl => exact hlevel hl
  | text _ _ hl _ => exact hlevel hl
  | index _ _ hl => exact hlevel hl
  | sure hi _ ha hs _ =>
    refine Or.inr fun b hbc => ?_
    obtain ⟨hlt, hshape⟩ := hc.2 ha b hbc
    rw [hw _ hi, hshape]
    exact ⟨hlt, hs⟩

theorem joint_start {m : Machine} (hm : m.Sound a.pad) (hb : m.hook.Blind) (hk : m.kept = fun _ => none)
    (h : Start a s act r head)
    (ht : ∀ q ∈ head, Tame a q) (hkind : it.act.kind = act.kind)
    (htarg : act.kind ∈ ([1, 2, 5, 6] : List UInt8) → it.targ = (a.node s).targ)
    (hname : act.kind ∈ ([3, 4] : List UInt8) → it.name = (a.node s).name) :
    Joint m.heap (fun _ c n n' => AtContainer m.heap m.stack m.stack m.marks m.marks c n n' ∧
        Begun m.heap a.pad act (a.node r).targ c)
      (perform (some a.pad) (head.map a.node) m) (pathContainer it none m) := by
  have hmeet : Meet m.heap [] ⟨m.stack, m.marks⟩ ⟨m.stack, m.marks⟩ m m :=
    ⟨hm.peer hb hk, ⟨hm.room, rfl, rfl⟩, hm.room, rfl, rfl⟩
  cases h with
  | pad hash hc hf hi =>
    have hcont : pathContainer it none = (do
        let s ← padSlot (a.node s).targ
        return if hash then .hash s.hash? else .array s.array?) := by
      rw [← htarg (by cases hash <;> decide)]
      unfold pathContainer
      cases hash with
      | false =>
        rw [hkind]
        rfl
      | true =>
        rw [hkind]
        rfl
    rw [hcont]
    refine (joint_padStart hm hb hk hc hf hi).post fun _ c n n' hn => ⟨hn.1, ?_, fun _ => hn.2.2⟩
    cases hash <;> exact hn.2.1
  | glob hash hc hd =>
    have hcont : pathContainer it none = (do
        let g ← global (a.node s).name
        if hash then return .hash (some (← onHeap fun h => h.globTable g))
        else return .array (some (← onHeap fun h => h.globArray g))) := by
      rw [← hname (by cases hash <;> decide)]
      unfold pathContainer
      cases hash with
      | false =>
        rw [hkind]
        rfl
      | true =>
        rw [hkind]
        rfl
    rw [hcont]
    refine (sim_globStart hc hd.code hd.ref m m hmeet).post fun _ c n n' hn => ⟨hn.1, ?_, fun hk => ?_⟩
    · cases hash <;> exact hn.2.1
    · cases hash <;> exact absurd hk (by decide)
  | ref hash hc hi hbit hd =>
    have hcont : pathContainer it none = (do
        let s ← padSlot (a.node s).targ
        vivify s.scalar? (derefBit hash)
        derefTo hash s.scalar?) := by
      rw [← htarg (by cases hash <;> decide)]
      unfold pathContainer
      cases hash with
      | false =>
        rw [hkind]
        rfl
      | true =>
        rw [hkind]
        rfl
    rw [hcont]
    have hsame := same_deref hbit (ht s (List.mem_cons_self ..)).deref
    refine (sim_refStart hc hi hsame.1 hsame.2 hd.code hd.ref m m hmeet).post
      fun _ c n n' hn => ⟨hn.1, ?_, fun hk => ?_⟩
    · cases hash <;> exact hn.2
    · cases hash <;> exact absurd hk (by decide)

/-- The element that an op with deref bits leaves is made by the fused op, too, or it is there. -/
def Settled (t : Node) (m : Machine) : Prop :=
  t.priv.derefs = true → t.flags.has Flags.mod = true ∨ m.Finds

/-- What a fused op takes over from the op it was. -/
structure TakesOver (t o : Node) : Prop where
  priv : o.priv = pathPriv t
  mod : o.flags.has Flags.mod = t.flags.has Flags.mod

/-- The machines after a chain and after the fused op: the same item was pushed, and it is none of
the hidden cells. -/
def Done (h₀ : Heap) (xs : List Item) (ks : List Nat) (m m' : Machine) : Prop :=
  ∃ hid x, Meet h₀ hid ⟨xs ++ [x], ks⟩ ⟨xs ++ [x], ks⟩ m m' ∧
    ∀ c, x = .scalar c → Visible hid m c

section Summit

variable {names? : Option Pad} {h₀ : Heap} (h₀c : ∀ c : Nat, h₀.Refers c → c < h₀.cells.size)
  {xs : List Item} {ks : List Nat} {sn t o : Node} {keys rest : Bytes} {p : Path} {c : Item}
  {elem top : RecId}

theorem elem_bits (q : Priv) : (q &&& (Priv.derefAV ||| Priv.derefHV)).has Priv.existsElem = false ∧
    (q &&& (Priv.derefAV ||| Priv.derefHV)).has Priv.deleteElem = false ∧
    (q &&& (Priv.derefAV ||| Priv.derefHV)).derefs = q.derefs ∧
    (q &&& (Priv.derefAV ||| Priv.derefHV)).has Priv.derefAV = q.has Priv.derefAV := by
  have hassoc (x y : Priv) : q &&& x &&& y = q &&& (x &&& y) := UInt16.and_assoc q x y
  have hex : (Priv.derefAV ||| Priv.derefHV) &&& Priv.existsElem = 0 := by decide
  have hdel : (Priv.derefAV ||| Priv.derefHV) &&& Priv.deleteElem = 0 := by decide
  simp only [Priv.has, Priv.derefs, hassoc, hex, hdel]
  exact ⟨by simp, by simp, rfl, rfl⟩

theorem pathPriv_elem {hash : Bool} (ht : isElemOf t hash = true) (hn : t.code ≠ .null) :
    pathPriv t = t.priv &&& (Priv.derefAV ||| Priv.derefHV) := by
  simp only [isElemOf, if_neg hn] at ht
  cases hash with
  | false =>
    simp only [Bool.false_eq_true, if_false, Bool.or_eq_true, beq_iff_eq] at ht
    rcases ht with ht | ht <;> simp [pathPriv, ht]
  | true =>
    simp only [if_true, beq_iff_eq] at ht
    simp [pathPriv, ht]

include h₀c in
theorem sim_last (hb : act ∈ Action.bases) (hl : Level a ct act s elem l)
    (hn : (a.node elem).code ≠ .null) (ht : Tame a l.key) (hp : p.keys = keys ++ (l.keyText ++ rest))
    (ho : TakesOver (a.node elem) o) (hc : Begun h₀ a.pad act ct c) :
    Sim h₀ (fun m m' => AtContainer h₀ xs xs ks ks c m m' ∧
        ∀ n, perform names? [a.node l.key] m = .ok () n → Settled (a.node elem) n)
      (perform names? [a.node l.key, a.node elem]) (pathLast o p (pathItem a sn keys l) c)
      fun _ _ m m' => Done h₀ xs ks m m' := by
  have hpriv := ho.priv.trans (pathPriv_elem hl.is_elem hn)
  obtain ⟨hex, hdel, hd, hav⟩ := elem_bits (a.node elem).priv
  rw [← hpriv] at hex hdel hd hav
  have hlast : pathLast o p (pathItem a sn keys l) c = (do
      let k ← pathKey p (pathItem a sn keys l)
      let e ← (do
        let e ← elemAt (pathItem a sn keys l) c k (o.flags.has Flags.mod)
        vivify (some e) o.priv
        return e : Exec CellId)
      pushCell e) := by
    simp [pathLast, hex, hdel, pathElem_eq]
  rw [hlast, perform_cons (a.node l.key) [a.node elem]]
  refine Sim.bind_run (fun m m' ⟨⟨hid, hm⟩, _⟩ => sim_key hb hl.kind h₀c ht.key hp m m' hm)
    fun _ k => ?_
  rintro n n' ⟨⟨w, hkey, hw⟩, m, m', ⟨-, hset⟩, hrun⟩
  have hset := hset n hrun
  have hlval : o.flags.has Flags.mod = isLvalue (a.node elem) ∨ n.heap.HasUnder c w := by
    rw [ho.mod, isLvalue]
    cases hder : (a.node elem).priv.derefs with
    | false => simp
    | true =>
      rcases hset hder with hmod | hfinds
      · simp [hmod]
      · obtain ⟨hid, hm, rfl, -⟩ := hkey
        exact Or.inr (hfinds xs c k hm.left.stack)
  have helem : perform names? [a.node elem] = (do perform names? [a.node elem]; return ()) :=
    bind_pure_unit.symm
  rw [helem]
  refine Sim.bind (sim_elemOp h₀c hd hav hl.is_elem hn hc.1 (sameCheck hb hl.kind hn hc hw))
    (fun _ e => ?_) n n' ⟨hkey, hlval⟩
  rintro q q' ⟨hid, ⟨hm, hvis⟩, -⟩
  obtain ⟨z, hok, hoff, hhas⟩ := push_has (.scalar (some e)) hm.right
  have hpush : pushCell e q' = .ok () z := hok
  rw [hpush]
  refine ⟨hid, .scalar (some e), ⟨hm.peer.move rfl hoff, hm.left, hhas⟩, fun c hc => ?_⟩
  obtain rfl : c = some e := by simpa using hc.symm
  exact hvis

theorem truth_shown {hid : List CellId} {l l' : Layout} {m m' : Machine} (h2 : 2 ≤ h₀.cells.size)
    (hm : Meet h₀ hid l l' m m') (b : Bool) : Visible hid m (some (ofBool b)) := by
  have hlt : (ofBool b : Nat) < 2 := by cases b <;> decide
  rintro id hid'
  obtain rfl := Option.some.inj hid'
  refine ⟨fun hmem => ?_, ?_⟩
  · have hle : h₀.cells.size ≤ ofBool b := (hm.peer.heap.hidden _ hmem).1
    exact absurd (Nat.le_trans h2 hle) (Nat.not_le.mpr hlt)
  · exact Nat.lt_of_lt_of_le hlt (Nat.le_trans h2 hm.peer.heap.evolves.cells)

theorem sim_pushCell {hid : List CellId} {e : CellId} :
    Sim h₀ (fun m m' => Meet h₀ hid ⟨xs, ks⟩ ⟨xs, ks⟩ m m' ∧ Visible hid m (some e)) (pushCell e)
      (pushCell e) fun _ _ m m' => Done h₀ xs ks m m' := by
  intro m m' ⟨hm, hvis⟩
  obtain ⟨n, hok, hoff, hhas⟩ := push_has (.scalar (some e)) hm.left
  obtain ⟨n', hok', hoff', hhas'⟩ := push_has (.scalar (some e)) hm.right
  have hpush : pushCell e m = .ok () n := hok
  have hpush' : pushCell e m' = .ok () n' := hok'
  have hheap : n.heap = m.heap := (congrArg Machine.heap hoff :)
  rw [hpush, hpush']
  refine ⟨hid, .scalar (some e), ⟨hm.peer.move hoff hoff', hhas, hhas'⟩, fun c hc => ?_⟩
  obtain rfl : c = some e := by simpa using hc.symm
  exact visible_mono hvis (Nat.le_of_eq (by rw [hheap]))

/-- An op that tests or deletes: it pops the key and the container that the fused op has at hand. -/
theorem sim_popBoth {hash : Bool} {w : Value} {k : Option CellId} {f : Item → Option CellId → Exec Unit}
    {y : Exec Unit} {Q : Unit → Unit → Machine → Machine → Prop}
    (hf : ∀ hid, Sim h₀ (fun m m' => Meet h₀ hid ⟨xs, ks⟩ ⟨xs, ks⟩ m m' ∧ m.value k = w ∧
      Value.SameKey hash w (m'.value k)) (f c k) y Q) :
    Sim h₀ (AtKey h₀ (xs ++ [c]) xs ks ks hash w k)
      (do
        let key ← popScalar
        let x ← pop
        f x key) y Q := by
  rintro m m' ⟨hid, hm, hw, hw'⟩
  refine sim_popScalar_left (E := fun h m' => h.value k = w ∧ Value.SameKey hash w (m'.value k)) ?_
    m m' ⟨hm, hw, hw'⟩
  exact sim_pop_left (E := fun h m' => h.value k = w ∧ Value.SameKey hash w (m'.value k)) (hf hid)

include h₀c in
theorem sim_user (h2 : 2 ≤ h₀.cells.size) (hb : act ∈ Action.bases) (hl : Level a ct act s elem l)
    (hn : (a.node elem).code = .null) (hu : elemUser? a elem = some top) (ht : Tame a l.key)
    (hp : p.keys = keys ++ (l.keyText ++ rest)) (ho : TakesOver (a.node top) o)
    (hc : Begun h₀ a.pad act ct c) :
    Sim h₀ (AtContainer h₀ xs xs ks ks c)
      (perform names? [a.node l.key, a.node elem, a.node top]) (pathLast o p (pathItem a sn keys l) c)
      fun _ _ m m' => Done h₀ xs ks m m' := by
  have hnull : perform names? [a.node elem, a.node top] = perform names? [a.node top] := by
    simp [perform, step, hn]
  rw [perform_cons (a.node l.key) [a.node elem, a.node top], hnull]
  have hkeyed {y : Option CellId → Exec Unit} (hy : ∀ k w, Sim h₀ (AtKey h₀ (xs ++ [c]) xs ks ks act.isHash w k)
      (perform names? [a.node top]) (y k) fun _ _ m m' => Done h₀ xs ks m m') :
      Sim h₀ (AtContainer h₀ xs xs ks ks c)
        (do perform names? [a.node l.key]; perform names? [a.node top])
        (do y (← pathKey p (pathItem a sn keys l))) fun _ _ m m' => Done h₀ xs ks m m' := by
    refine Sim.bind (fun m m' hm => Exists.elim hm fun hid hm => sim_key hb hl.kind h₀c ht.key hp m m' hm)
      fun _ k => ?_
    rintro n n' ⟨w, hkey, -⟩
    exact hy k w n n' hkey
  rcases (user_of_some hu).2.1 with hcode | hcode
  · have hpriv : o.priv = Priv.existsElem := by rw [ho.priv, pathPriv, hcode]
    have hlast : pathLast o p (pathItem a sn keys l) c = (do
        let k ← pathKey p (pathItem a sn keys l)
        pushBool (← existsIn c k .aelem .helem)) := by
      simp [pathLast, hpriv, Priv.has, Priv.existsElem]
    have hone : perform names? [a.node top] = existsElem (a.node top) :=
      perform_one (by simp [step, hcode])
    rw [hlast]
    refine hkeyed fun k w => ?_
    rw [hone]
    refine sim_popBoth fun hid => ?_
    refine Sim.bind (sim_existsIn _ _ _ _ hc.1) fun b b' => Sim.given (F := b' = b) (fun m m' hm => hm) ?_
    rintro rfl
    exact sim_pushCell.pre fun m m' hm => ⟨hm, truth_shown h2 hm b'⟩
  · have hpriv : o.priv = Priv.deleteElem := by rw [ho.priv, pathPriv, hcode]
    have hlast : pathLast o p (pathItem a sn keys l) c = (do
        let k ← pathKey p (pathItem a sn keys l)
        pushCell (← present (← deleteFrom c k .aelem .helem))) := by
      have hex : Priv.deleteElem.has Priv.existsElem = false := by decide
      have hdel : Priv.deleteElem.has Priv.deleteElem = true := by decide
      simp [pathLast, hpriv, hex, hdel]
    have hone : perform names? [a.node top] = deleteElem (a.node top) :=
      perform_one (by simp [step, hcode])
    rw [hlast]
    refine hkeyed fun k w => ?_
    rw [hone]
    refine sim_popBoth fun hid => ?_
    refine Sim.bind (sim_deleteFrom h₀c _ _ _ _ hc.1) fun x x' => Sim.given (F := x' = x)
      (fun m m' hm => hm) ?_
    rintro rfl
    refine sim_present.bind fun e e' => Sim.given (F := e' = e) (fun m m' hm => hm) ?_
    rintro rfl
    exact sim_pushCell

end Summit

def walkFrom (o : Node) (p : Path) (c : Item) : List PathItem → Exec Unit
  | [] => broken (utf8 "multideref #" ++ Bytes.ofNat o.id ++ utf8 " without items")
  | [it] => pathLast o p it c
  | it :: next :: rest => do
    let e ← pathElem p it c true
    vivify (some e) (derefBit next.act.isHash)
    walkPath o p (some e) (next :: rest)

theorem walkPath_cons (o : Node) (p : Path) (cur : Option CellId) (it : PathItem) (rest : List PathItem) :
    walkPath o p cur (it :: rest) = (do walkFrom o p (← pathContainer it cur) (it :: rest)) := by
  cases rest <;> rfl

section Walk

variable {names? : Option Pad} {h₀ : Heap} (h₀c : ∀ c : Nat, h₀.Refers c → c < h₀.cells.size)
  {xs : List Item} {ks : List Nat} {sn o : Node} {keys rest : Bytes} {p : Path} {c : Item}
  {elem top next : RecId} {ls : List PathLevel} {front fin : List RecId} {act' : Action}

theorem pathContainer_next {hash : Bool} {cur : Option CellId}
    (hk : it.act.kind = (if hash then Action.rv2hvHelem else Action.rv2avAelem).kind) :
    pathContainer it cur = derefTo hash cur := by
  unfold pathContainer
  rw [hk]
  cases hash <;> rfl

include h₀c in
theorem sim_climb (hb : act ∈ Action.bases) (hl : Level a ct act s elem l)
    (hn : (a.node elem).code ≠ .null) {hash : Bool} (hd : Deref a hash elem r)
    (hbit : (a.node elem).priv.has (derefBit hash) = true) (ht : Tame a l.key) (ht' : Tame a elem)
    (hp : p.keys = keys ++ (l.keyText ++ rest)) (hc : Begun h₀ a.pad act ct c) :
    Sim h₀ (AtContainer h₀ xs xs ks ks c) (perform names? [a.node l.key, a.node elem, a.node r])
      (do
        let e ← pathElem p (pathItem a sn keys l) c true
        vivify (some e) (derefBit hash)
        derefTo hash (some e))
      fun _ d m m' => AtContainer h₀ xs xs ks ks d m m' ∧ IsContainer hash d := by
  obtain ⟨hsame, hav⟩ := same_deref hbit ht'.deref
  have hright : (do
      let e ← pathElem p (pathItem a sn keys l) c true
      vivify (some e) (derefBit hash)
      derefTo hash (some e)) = (do
      let k ← pathKey p (pathItem a sn keys l)
      let e ← (do
        let e ← elemAt (pathItem a sn keys l) c k true
        vivify (some e) (derefBit hash)
        return e : Exec CellId)
      derefTo hash (some e)) := by
    simp [pathElem_eq]
  rw [hright, perform_cons, perform_cons (a.node elem)]
  refine Sim.bind (fun m m' ⟨hid, hm⟩ => sim_key hb hl.kind h₀c ht.key hp m m' hm) fun _ k => ?_
  rintro n n' ⟨w, hkey, hw⟩
  have hderefs : (derefBit hash).derefs = true := by cases hash <;> rfl
  have hlval : true = isLvalue (a.node elem) := by rw [isLvalue, ← hsame, hderefs, Bool.or_true]
  refine Sim.bind (sim_elemOp h₀c hsame hav hl.is_elem hn hc.1 (sameCheck hb hl.kind hn hc hw))
    (fun _ e => ?_) n n' ⟨hkey, Or.inl hlval⟩
  rintro q q' ⟨hid, hm, hdef⟩
  exact sim_derefOp hd.code hd.ref q q' ⟨hm, hdef hderefs⟩

theorem first_level (sn : Node) (h : Ladder a ct act s elem ls front fin top) (hb : act ∈ Action.bases) :
    ∃ l ls', ls = l :: ls' ∧ l.act.kind = act.kind ∧
      ∀ keys, (pathItem a sn keys l).act.kind = act.kind ∧
        (pathItem a sn keys l).act.isHash = act.isHash := by
  have hfirst {l : PathLevel} (hl : Level a ct act s elem l) : l.act.kind = act.kind ∧
      ∀ keys, (pathItem a sn keys l).act.kind = act.kind ∧
        (pathItem a sn keys l).act.isHash = act.isHash :=
    ⟨(itemBits sn [] hb hl.kind).level, fun keys =>
      ⟨(itemBits sn keys hb hl.kind).kind, (itemBits sn keys hb hl.kind).isHash⟩⟩
  cases h with
  | last hl _ => exact ⟨_, _, rfl, hfirst hl⟩
  | user hl _ _ => exact ⟨_, _, rfl, hfirst hl⟩
  | more hl _ _ _ => exact ⟨_, _, rfl, hfirst hl⟩

include h₀c in
theorem sim_ladder (h2 : 2 ≤ h₀.cells.size) (h : Ladder a ct act s elem ls front fin top)
    (hb : act ∈ Action.bases) (ht : ∀ q ∈ front, Tame a q)
    (hp : p.keys = keys ++ ls.flatMap (·.keyText)) (ho : TakesOver (a.node top) o)
    (hc : Begun h₀ a.pad act ct c) :
    Sim h₀ (fun m m' => AtContainer h₀ xs xs ks ks c m m' ∧
        ∀ n, perform names? (front.map a.node) m = .ok () n → Settled (a.node top) n)
      (perform names? ((front ++ fin).map a.node)) (walkFrom o p c (pathItems a sn keys ls))
      fun _ _ m m' => Done h₀ xs ks m m' := by
  induction h generalizing keys c with
  | last hl hn =>
    simp only [List.flatMap_cons, List.flatMap_nil] at hp
    exact sim_last h₀c hb hl hn (ht _ (List.mem_cons_self ..)) hp ho hc
  | user hl hn hu =>
    simp only [List.flatMap_cons, List.flatMap_nil] at hp
    exact (sim_user h₀c h2 hb hl hn hu (ht _ (List.mem_cons_self ..)) hp ho hc).pre fun m m' hm => hm.1
  | @more act act' s elem r next top l ls front fin hl hn hnext h ih =>
    obtain ⟨⟨hash, rfl, hd, hbit⟩, -⟩ := next_of_some hnext
    have hb' := base_of_next hnext
    obtain ⟨l₂, ls₂, rfl, -, hitem⟩ := first_level sn h hb'
    obtain ⟨hkind, hhash⟩ := hitem (keys ++ l.keyText)
    have hwalk : walkFrom o p c (pathItems a sn keys (l :: l₂ :: ls₂)) = (do
        let d ← (do
          let e ← pathElem p (pathItem a sn keys l) c true
          vivify (some e) (derefBit hash)
          derefTo hash (some e))
        walkFrom o p d (pathItems a sn (keys ++ l.keyText) (l₂ :: ls₂))) := by
      have hbit : (if hash then Action.rv2hvHelem else Action.rv2avAelem).isHash = hash := by
        cases hash <;> decide
      rw [pathItems, pathItems, walkFrom, hhash, hbit, bind_assoc]
      refine bind_congr fun e => ?_
      rw [bind_assoc]
      refine bind_congr fun _ => ?_
      rw [walkPath_cons, pathContainer_next hkind]
    have hperform : perform names? ((l.key :: elem :: r :: front ++ fin).map a.node) = (do
        perform names? [a.node l.key, a.node elem, a.node r]
        perform names? ((front ++ fin).map a.node)) :=
      perform_append [a.node l.key, a.node elem, a.node r] _
    rw [hwalk, hperform]
    simp only [List.flatMap_cons] at hp ih
    refine Sim.bind_run (fun m m' hm => sim_climb h₀c hb hl hn hd hbit (ht _ (by simp)) (ht _ (by simp))
      hp hc m m' hm.1) fun _ d => ?_
    rintro n n' ⟨⟨hcont, hdc⟩, m, m', ⟨-, hset⟩, hrun⟩
    refine ih hb' (fun q hq => ht q (by simp [hq])) (by rw [hp, List.append_assoc]) ho ⟨?_, fun hk => ?_⟩
      n n' ⟨hcont, fun z hz => hset z ?_⟩
    · cases hash <;> exact hdc
    · cases hash <;> exact absurd hk (by decide)
    · have happ : perform names? ((l.key :: elem :: r :: front).map a.node) = (do
          perform names? [a.node l.key, a.node elem, a.node r]
          perform names? (front.map a.node)) :=
        perform_append [a.node l.key, a.node elem, a.node r] _
      rw [happ, bind_of_ok hrun]
      exact hz

end Walk

def fused (a : Arena) (s : RecId) (mt : PathMatch) : Node :=
  { a.node mt.top with
    code := .multideref, priv := pathPriv (a.node mt.top), path := some (pathOf a (a.node s) mt.levels) }

theorem fused_takesOver (a : Arena) (s : RecId) (mt : PathMatch) :
    TakesOver (a.node mt.top) (fused a s mt) := ⟨rfl, rfl⟩

def allTame (a : Arena) : Bool :=
  a.recs.all fun n => (n.code != .const || n.val.value.defined) &&
    !(n.priv.has Priv.derefAV && n.priv.has Priv.derefHV)

theorem tame_of_allTame (h : allTame a = true) (r : RecId) : Tame a r := by
  by_cases hr : r < a.recs.size
  · have hnode : a.node r = a.recs[r] := by simp [Arena.node, hr]
    have hall := Array.all_eq_true.mp h r hr
    rw [← hnode] at hall
    simp only [Bool.and_eq_true, Bool.or_eq_true, bne_iff_ne, ne_eq, Bool.not_eq_true',
      Bool.and_eq_false_iff] at hall
    refine ⟨fun hc => hall.1.resolve_left fun hne => hne hc, fun hd => ?_⟩
    rcases hall.2 with hav | hhv
    · rw [hd.1] at hav
      cases hav
    · rw [hd.2] at hhv
      cases hhv
  · have hnode : a.node r = default := by simp [Arena.node, hr]
    refine ⟨fun hc => ?_, fun hd => ?_⟩
    · rw [hnode] at hc
      cases hc
    · rw [hnode] at hd
      cases hd.1

end Exec

end OpTree
