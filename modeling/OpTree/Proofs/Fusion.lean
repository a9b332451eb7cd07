import OpTree.Proofs.Chains

/-!
# A fused access does what its chain did

The ops of a chain of element accesses and the one op that replaces them, executed on the same
machine, leave peers with the same stack.
-/

namespace OpTree

set_option autoImplicit false

open Machine

theorem Priv.has_or (p x y : Priv) : p.has (x ||| y) = (p.has x || p.has y) := by
  have h : p &&& (x ||| y) = (p &&& x) ||| (p &&& y) :=
    UInt16.toBitVec_inj.mp BitVec.and_or_distrib_left
  rw [Bool.eq_iff_iff]
  simp only [Priv.has, h, bne_iff_ne, ne_eq, UInt16.or_eq_zero_iff, not_and_or, Bool.or_eq_true]

theorem Node.plainPadsv {n : Node} (h : n.isPlainPadsv = true) :
    n.code = .padsv ∧ n.priv.has Priv.intro = false ∧ n.priv.derefs = false := by
  simp only [isPlainPadsv, Priv.has_or, Bool.and_eq_true, beq_iff_eq, Bool.not_eq_true',
    Bool.or_eq_false_iff] at h
  refine ⟨h.1.1, h.2.1.1, ?_⟩
  simp [Priv.derefs, Priv.has_or, h.2]

namespace Peep

variable {a : Arena} {sn : Node} {keys : Bytes} {l : PathLevel}

theorem pathItem_act : (pathItem a sn keys l).act =
    l.act.or (if (a.node l.key).code = .padsv then Action.idxPadsv else Action.idxConst) := by
  unfold pathItem
  dsimp only
  split
  · split <;> rfl
  · split <;> split <;> rfl

theorem pathItem_idxTarg (hk : (a.node l.key).code = .padsv) :
    (pathItem a sn keys l).idxTarg = (a.node l.key).targ := by
  unfold pathItem
  dsimp only
  rw [if_pos hk]

theorem pathItem_index (hk : (a.node l.key).code = .const) (hh : l.act.isHash = false) :
    (pathItem a sn keys l).index = (a.node l.key).constInt?.getD 0 := by
  unfold pathItem
  dsimp only
  rw [if_neg (by simp [hk]), if_neg (by simp [hh])]

theorem pathItem_key (hk : (a.node l.key).code = .const) (hh : l.act.isHash = true) :
    (pathItem a sn keys l).key = keys.length ∧ (pathItem a sn keys l).keyLen = l.keyText.length := by
  unfold pathItem
  dsimp only
  rw [if_neg (by simp [hk]), if_pos hh]
  exact ⟨rfl, rfl⟩

theorem pathItem_targ (hk : l.act.kind = 1 ∨ l.act.kind = 2 ∨ l.act.kind = 5 ∨ l.act.kind = 6) :
    (pathItem a sn keys l).targ = sn.targ := by
  by_cases hc : (a.node l.key).code = .padsv
  · rcases hk with hk | hk | hk | hk <;> simp [pathItem, hc, hk]
  · by_cases hh : l.act.isHash = true
    · rcases hk with hk | hk | hk | hk <;> simp [pathItem, hc, hh, hk]
    · rcases hk with hk | hk | hk | hk <;> simp [pathItem, hc, hh, hk]

theorem pathItem_name (hk : l.act.kind = 3 ∨ l.act.kind = 4) :
    (pathItem a sn keys l).name = sn.name := by
  by_cases hc : (a.node l.key).code = .padsv
  · rcases hk with hk | hk <;> simp [pathItem, hc, hk]
  · by_cases hh : l.act.isHash = true
    · rcases hk with hk | hk <;> simp [pathItem, hc, hh, hk]
    · rcases hk with hk | hk <;> simp [pathItem, hc, hh, hk]

/-- The items of a path, one per level; `keys` are the bytes of the keys before. -/
def pathItems (a : Arena) (sn : Node) : Bytes → List PathLevel → List PathItem
  | _, [] => []
  | keys, l :: ls => pathItem a sn keys l :: pathItems a sn (keys ++ l.keyText) ls

theorem foldl_path (ls : List PathLevel) (p : Path) :
    ls.foldl (fun p l => { items := p.items ++ [pathItem a sn p.keys l], keys := p.keys ++ l.keyText }) p =
      ⟨p.items ++ pathItems a sn p.keys ls, p.keys ++ ls.flatMap (·.keyText)⟩ := by
  induction ls generalizing p with
  | nil => simp [pathItems]
  | cons l ls ih => simp [ih, pathItems]

theorem pathOf_eq (ls : List PathLevel) :
    pathOf a sn ls = ⟨pathItems a sn [] ls, ls.flatMap (·.keyText)⟩ := by
  rw [pathOf, foldl_path]
  simp

theorem keyAt_pathItem {p : Path} {rest : Bytes} (hk : (a.node l.key).code = .const)
    (hh : l.act.isHash = true) (hp : p.keys = keys ++ (l.keyText ++ rest)) :
    p.keyAt (pathItem a sn keys l) = l.keyText := by
  have hkey : (pathItem a sn keys l).key = keys.length := (pathItem_key hk hh).1
  have hlen : (pathItem a sn keys l).keyLen = l.keyText.length := (pathItem_key hk hh).2
  rw [Path.keyAt, hkey, hlen, hp, List.drop_left, List.take_left]

section Bits

variable {act : Action} {e : Node} {ct : Int}

theorem level_mem (act : Action) (e : Node) : act.level e ∈ [act, act.or Action.uncheckedBit] := by
  unfold Action.level
  split <;> simp

theorem KeyKind.act_mem (h : KeyKind a act e ct l) :
    l.act ∈ [act, act.or Action.uncheckedBit, (act.or Action.uncheckedBit).or Action.uncheckedBit] := by
  have hl := level_mem act e
  simp only [List.mem_cons, List.not_mem_nil, or_false] at hl
  cases h with
  | var _ he => rcases hl with hl | hl <;> simp [he, hl]
  | text _ _ he _ => rcases hl with hl | hl <;> simp [he, hl]
  | index _ _ he => rcases hl with hl | hl <;> simp [he, hl]
  | sure _ _ _ _ he => rcases hl with hl | hl <;> simp [he, hl]

structure ItemBits (act : Action) (l : PathLevel) (it : PathItem) (index : UInt8) : Prop where
  level : l.act.kind = act.kind
  levelHash : l.act.isHash = act.isHash
  kind : it.act.kind = act.kind
  isHash : it.act.isHash = act.isHash
  index : it.act.index = index
  unchecked : it.act.unchecked = decide (l.act ≠ act)

theorem itemBits (sn : Node) (keys : Bytes) (hb : act ∈ Action.bases) (h : KeyKind a act e ct l) :
    ItemBits act l (pathItem a sn keys l)
      (if (a.node l.key).code = .padsv then Action.idxPadsv else Action.idxConst) := by
  have hidx : (if (a.node l.key).code = .padsv then Action.idxPadsv else Action.idxConst) ∈
      [Action.idxConst, Action.idxPadsv] := by
    split <;> simp
  obtain ⟨h1, h2, h3, h4, h5, h6⟩ := Action.bits_apart act hb l.act h.act_mem _ hidx
  exact ⟨h1, h2, pathItem_act ▸ h3, pathItem_act ▸ h4, pathItem_act ▸ h5, pathItem_act ▸ h6⟩

end Bits

end Peep

namespace Exec

open Peep

/-- Executes ops one after the other. -/
def perform (names? : Option Pad) : List Node → Exec Unit
  | [] => pure ()
  | o :: os => do
    let _ ← step names? o
    perform names? os

variable {names? : Option Pad} {o : Node} {os : List Node}

theorem perform_cons_of (body : Exec Unit) (h : step names? o = (do body; return o.next)) :
    perform names? (o :: os) = (do body; perform names? os) := by
  rw [perform, h, bind_assoc]
  rfl

theorem perform_one {body : Exec Unit} (h : step names? o = (do body; return o.next)) :
    perform names? [o] = body := by
  rw [perform_cons_of body h]
  exact bind_pure_unit

theorem perform_append (os us : List Node) :
    perform names? (os ++ us) = (do perform names? os; perform names? us) := by
  induction os with
  | nil => rfl
  | cons o os ih => simp only [List.cons_append, perform, ih, bind_assoc]

theorem perform_cons (o : Node) (os : List Node) :
    perform names? (o :: os) = (do perform names? [o]; perform names? os) :=
  perform_append [o] os

section Level

variable {h₀ : Heap} {hid : List CellId} {xs ys : List Item} {ks js : List Nat} {a : Arena} {sn : Node}
  {keys rest : Bytes} {l : PathLevel} {act : Action} {e : Node} {ct : Int} {p : Path}

/-- The machines after a key was evaluated: it is on the left stack. -/
def AtKey (h₀ : Heap) (xs ys : List Item) (ks js : List Nat) (hash : Bool) (w : Value)
    (k : Option CellId) (m m' : Machine) : Prop :=
  ∃ hid, Meet h₀ hid ⟨xs ++ [.scalar k], ks⟩ ⟨ys, js⟩ m m' ∧ m.value k = w ∧
    Value.SameKey hash w (m'.value k)

theorem sim_varKey (hk : o.isPlainPadsv = true) (hash : Bool) :
    Sim h₀ (Meet h₀ hid ⟨xs, ks⟩ ⟨ys, js⟩) (perform names? [o]) (do return (← padSlot o.targ).scalar?)
      fun _ k m m' => ∃ w, AtKey h₀ xs ys ks js hash w k m m' := by
  obtain ⟨hc, hi, hd⟩ := Node.plainPadsv hk
  have hbody : padScalar o = (do
      let s ← padSlot o.targ
      vivify s.scalar? o.priv
      push (.scalar s.scalar?)) := by
    simp [padScalar, hi]
  rw [perform_cons_of (padScalar o) (by simp [step, hc]), hbody, bind_assoc]
  refine (sim_padSlot o.targ).bind fun s t => ?_
  rintro m m' ⟨⟨hm, hvis⟩, rfl⟩
  have hviv : vivify t.scalar? o.priv m = .ok () m := vivify_of_defined fun h => by simp [hd] at h
  obtain ⟨n, hok, hoff, hhas⟩ := push_has (.scalar t.scalar?) hm.left
  have hheap : n.heap = m.heap := (congrArg Machine.heap hoff :)
  rw [bind_assoc, bind_of_ok hviv, bind_of_ok hok]
  refine ⟨m.value t.scalar?, hid, ⟨hm.peer.move hoff rfl, hhas, hm.right⟩, ?_, ?_⟩
  · rw [Machine.value, hheap]
    rfl
  · rw [hm.peer.value_eq hvis]
    exact .refl hash _

theorem sim_constKey (hc : o.code = .const) (h₀c : ∀ c : Nat, h₀.Refers c → c < h₀.cells.size)
    {hash : Bool} {v : Value} (hv : Value.SameKey hash o.val.value v) :
    Sim h₀ (Meet h₀ hid ⟨xs, ks⟩ ⟨ys, js⟩) (perform names? [o]) (do return some (← temp v))
      fun _ k m m' => AtKey h₀ xs ys ks js hash o.val.value k m m' := by
  rw [perform_cons_of (constant o) (by simp [step, hc])]
  intro m m' hm
  let n : Machine := { m with heap := (m.heap.newCell o.val.value true).2 }
  let n' : Machine := { m' with heap := (m'.heap.newCell v false).2 }
  have hpeer : Peer h₀ (m.heap.cells.size :: hid) n n' := hm.peer.hide h₀c o.val.value v true false
  have hsize : m'.heap.cells.size = m.heap.cells.size := hm.peer.heap.size
  obtain ⟨k, hok, hoff, hhas⟩ := push_has (.scalar (some m.heap.cells.size)) (hm.left.withHeap n.heap)
  have hcell : cellFor o m = .ok m.heap.cells.size n := cellFor_of_none (congrFun hm.peer.alone o.id)
  have hrun : constant o m = .ok () k := (bind_of_ok hcell).trans hok
  rw [bind_of_ok hrun]
  change AtKey h₀ xs ys ks js hash o.val.value (some m'.heap.cells.size) k n'
  rw [hsize]
  refine ⟨m.heap.cells.size :: hid, ⟨hpeer.move hoff rfl, hhas, hm.right.withHeap n'.heap⟩, ?_, ?_⟩
  · have hheap : k.heap = n.heap := (congrArg Machine.heap hoff :)
    rw [Machine.value, hheap]
    simp [n, Heap.value, Heap.newCell, Heap.cell]
  · have hval : n'.value (some m.heap.cells.size) = v := by
      simp [n', Machine.value, Heap.value, Heap.newCell, Heap.cell, ← hsize]
    rw [hval]
    exact hv

theorem pathKey_var {it : PathItem} (h : it.act.index = Action.idxPadsv) :
    pathKey p it = (do return (← padSlot it.idxTarg).scalar?) := by
  simp [pathKey, h, Action.idxPadsv]

theorem pathKey_text {it : PathItem} (h : it.act.index = Action.idxConst) (hh : it.act.isHash = true) :
    pathKey p it = (do return some (← temp (.str (p.keyAt it)))) := by
  simp [pathKey, h, hh, Action.idxConst]

theorem pathKey_index {it : PathItem} (h : it.act.index = Action.idxConst) (hh : it.act.isHash = false) :
    pathKey p it = (do return some (← temp (.int it.index))) := by
  simp [pathKey, h, hh, Action.idxConst]

theorem sim_key (hb : act ∈ Action.bases) (hk : KeyKind a act e ct l)
    (h₀c : ∀ c : Nat, h₀.Refers c → c < h₀.cells.size)
    (hdef : (a.node l.key).code = .const → (a.node l.key).val.value.defined = true)
    (hp : p.keys = keys ++ (l.keyText ++ rest)) :
    Sim h₀ (Meet h₀ hid ⟨xs, ks⟩ ⟨ys, js⟩) (perform names? [a.node l.key])
      (pathKey p (pathItem a sn keys l)) fun _ k m m' =>
        ∃ w, AtKey h₀ xs ys ks js act.isHash w k m m' ∧
          ∀ i, (a.node l.key).constInt? = some i → w = .int i := by
  have hbits : ItemBits act l (pathItem a sn keys l) _ := itemBits sn keys hb hk
  have hconst (hc : (a.node l.key).code = .const) :
      (pathItem a sn keys l).act.index = Action.idxConst := by
    rw [hbits.index, if_neg (by simp [hc])]
  have hindex {i : Int64} (hi : (a.node l.key).constInt? = some i) (hh : act.isHash = false) :
      Sim h₀ (Meet h₀ hid ⟨xs, ks⟩ ⟨ys, js⟩) (perform names? [a.node l.key])
        (pathKey p (pathItem a sn keys l)) fun _ k m m' =>
          ∃ w, AtKey h₀ xs ys ks js act.isHash w k m m' ∧
            ∀ i, (a.node l.key).constInt? = some i → w = .int i := by
    obtain ⟨hc, hv⟩ := Node.const_of_constInt? hi
    rw [pathKey_index (hconst hc) (hbits.isHash.trans hh), pathItem_index hc (hbits.levelHash.trans hh),
      hh]
    refine (sim_constKey hc h₀c ?_).post fun _ k m m' hm => ⟨_, hm, fun j hj => (Node.const_of_constInt? hj).2⟩
    rw [hi, hv]
    exact .refl false _
  cases hk with
  | var hk _ =>
    have hc := (Node.plainPadsv hk).1
    rw [pathKey_var (hbits.index.trans (if_pos hc)), pathItem_idxTarg hc]
    refine (sim_varKey hk act.isHash).post fun _ k m m' hm => ?_
    obtain ⟨w, hm⟩ := hm
    exact ⟨w, hm, fun i hi => by simp [(Node.const_of_constInt? hi).1] at hc⟩
  | text hc hh _ ht =>
    rw [pathKey_text (hconst hc) (hbits.isHash.trans hh), keyAt_pathItem hc (hbits.levelHash.trans hh) hp,
      hh]
    refine (sim_constKey hc h₀c ?_).post fun _ k m m' hm => ⟨_, hm, fun j hj => ?_⟩
    · exact ⟨(hdef hc).symm, ht⟩
    · exact (Node.const_of_constInt? hj).2
  | index hi hh _ => exact hindex hi hh
  | sure hi hh _ _ _ => exact hindex hi hh

end Level

section Element

variable {h₀ : Heap} (h₀c : ∀ c : Nat, h₀.Refers c → c < h₀.cells.size) {hid : List CellId}
  {xs ys : List Item} {ks js : List Nat} {it : PathItem} {c : Item} {k : Option CellId} {w : Value}
  {hash lval : Bool} {q : Priv}

def elemAt (it : PathItem) (c : Item) (key : Option CellId) (lval : Bool) : Exec CellId :=
  match c with
  | .array a => do
    let i ← toInt key .aelem
    present (← fetchElem a i lval (!it.act.unchecked))
  | .hash t => do
    let k ← toText key .helem
    let t ← needed t
    present (← onHeap fun h => h.fetchKey t k lval)
  | x => broken (utf8 "multideref: container " ++ x.typeName)

theorem pathElem_eq (p : Path) (it : PathItem) (c : Item) (lval : Bool) :
    pathElem p it c lval = (do elemAt it c (← pathKey p it) lval) := by
  cases c <;> rfl

theorem vivify_congr {p q : Priv} (hd : q.derefs = p.derefs)
    (hav : q.has Priv.derefAV = p.has Priv.derefAV) (c : Option CellId) : vivify c q = vivify c p := by
  unfold vivify
  rw [hd, hav]

theorem sim_pushElem {u : Option CellId} (hd : q.derefs = o.priv.derefs)
    (hav : q.has Priv.derefAV = o.priv.has Priv.derefAV) :
    Sim h₀ (fun m m' => Meet h₀ hid ⟨xs, ks⟩ ⟨ys, js⟩ m m' ∧ Visible hid m u) (pushElem u o.priv)
      (do
        let e ← present u
        vivify (some e) q
        return e : Exec CellId)
      fun _ e m m' => (Meet h₀ hid ⟨xs ++ [.scalar (some e)], ks⟩ ⟨ys, js⟩ m m' ∧
        Visible hid m (some e)) ∧ (q.derefs = true → (m.value (some e)).defined = true) := by
  unfold pushElem
  refine sim_present.bind fun e e' => Sim.given (F := e' = e) (fun m m' hm => hm) ?_
  rintro rfl
  rw [vivify_congr hd hav]
  refine (sim_vivify o.priv).bind fun _ _ => ?_
  intro m m' ⟨⟨hm, hvis⟩, hdef⟩
  obtain ⟨n, hok, hoff, hhas⟩ := push_has (.scalar (some e')) hm.left
  have hheap : n.heap = m.heap := (congrArg Machine.heap hoff :)
  have hrun : pushCell e' m = .ok () n := hok
  rw [hrun]
  refine ⟨⟨⟨hm.peer.move hoff rfl, hhas, hm.right⟩, ?_⟩, fun h => ?_⟩
  · exact visible_mono hvis (Nat.le_of_eq (by rw [hheap]))
  · rw [Machine.value, hheap]
    exact hdef (hd ▸ h)

/-- Is the bounds check of the element op the same as that of the level, or does the index pass it
anyway. -/
def SameCheck (h₀ : Heap) (o : Node) (it : PathItem) (c : Item) (w : Value) : Prop :=
  (o.code = .aelemU ↔ it.act.unchecked = true) ∨
    ∀ b, c = .array (some b) → b < h₀.arrays.size ∧ InShape (h₀.array b).shape w.index

section Kinds

variable (hd : q.derefs = o.priv.derefs) (hav : q.has Priv.derefAV = o.priv.has Priv.derefAV)
include h₀c hd hav

theorem sim_aelem {a : Option ArrayId} {checked : Bool}
    (hch : (!it.act.unchecked) = checked ∨
      ∀ b, a = some b → b < h₀.arrays.size ∧ InShape (h₀.array b).shape w.index) :
    Sim h₀ (fun m m' => Meet h₀ hid ⟨xs ++ [.array a] ++ [.scalar k], ks⟩ ⟨ys, js⟩ m m' ∧
        m.heap.value k = w ∧ Value.SameKey false w (m'.value k) ∧
        (lval = isLvalue o ∨ ∀ b, a = some b → (m.heap.array b).hasElem w.index = true))
      (aelem o checked)
      (do
        let e ← elemAt it (.array a) k lval
        vivify (some e) q
        return e : Exec CellId)
      fun _ e m m' => (Meet h₀ hid ⟨xs ++ [.scalar (some e)], ks⟩ ⟨ys, js⟩ m m' ∧
        Visible hid m (some e)) ∧ (q.derefs = true → (m.value (some e)).defined = true) := by
  refine sim_popScalar_left (E := fun h m' => h.value k = w ∧ Value.SameKey false w (m'.value k) ∧
    (lval = isLvalue o ∨ ∀ b, a = some b → (h.array b).hasElem w.index = true)) ?_
  refine sim_pop_left (E := fun h m' => h.value k = w ∧ Value.SameKey false w (m'.value k) ∧
    (lval = isLvalue o ∨ ∀ b, a = some b → (h.array b).hasElem w.index = true)) ?_
  simp only [elemAt, bind_assoc]
  refine Sim.bind ((sim_toInt o.code .aelem fun h =>
    lval = isLvalue o ∨ ∀ b, a = some b → (h.array b).hasElem w.index = true).pre
      fun m m' hm => ⟨⟨hm.1, hm.2.2.2⟩, hm.2.1, hm.2.2.1⟩) fun i i' => ?_
  refine Sim.given (F := i = w.index ∧ i' = w.index) (fun m m' hm => hm) ?_
  rintro ⟨rfl, rfl⟩
  refine (sim_fetchElem_present h₀c w.index hch).bind fun u v => ?_
  refine Sim.given (F := v = u) (fun m m' hm => hm) ?_
  rintro rfl
  exact sim_pushElem hd hav

theorem sim_helem {t : Option TableId} :
    Sim h₀ (fun m m' => Meet h₀ hid ⟨xs ++ [.hash t] ++ [.scalar k], ks⟩ ⟨ys, js⟩ m m' ∧
        m.heap.value k = w ∧ Value.SameKey true w (m'.value k) ∧
        (lval = isLvalue o ∨ ∀ b, t = some b → (m.heap.table b).hasKey w.text = true))
      (helem o)
      (do
        let e ← elemAt it (.hash t) k lval
        vivify (some e) q
        return e : Exec CellId)
      fun _ e m m' => (Meet h₀ hid ⟨xs ++ [.scalar (some e)], ks⟩ ⟨ys, js⟩ m m' ∧
        Visible hid m (some e)) ∧ (q.derefs = true → (m.value (some e)).defined = true) := by
  refine sim_popScalar_left (E := fun h m' => h.value k = w ∧ Value.SameKey true w (m'.value k) ∧
    (lval = isLvalue o ∨ ∀ b, t = some b → (h.table b).hasKey w.text = true)) ?_
  refine sim_pop_left (E := fun h m' => h.value k = w ∧ Value.SameKey true w (m'.value k) ∧
    (lval = isLvalue o ∨ ∀ b, t = some b → (h.table b).hasKey w.text = true)) ?_
  simp only [elemAt, bind_assoc]
  refine Sim.bind ((sim_toText o.code .helem fun h =>
    lval = isLvalue o ∨ ∀ b, t = some b → (h.table b).hasKey w.text = true).pre
      fun m m' hm => ⟨⟨hm.1, hm.2.2.2⟩, hm.2.1, hm.2.2.1⟩) fun i i' => ?_
  refine Sim.given (F := i = w.text ∧ i' = w.text) (fun m m' hm => hm) ?_
  rintro ⟨rfl, rfl⟩
  cases t with
  | none => exact sim_fatal fun m m' hm => hm.1.peer
  | some b =>
    simp only [needed, pure_bind]
    refine Sim.bind ((sim_fetchKey_present h₀c b w.text).pre fun m m' hm =>
      ⟨hm.1, hm.2.imp id fun h => h b rfl⟩) fun u v => ?_
    refine Sim.given (F := v = u) (fun m m' hm => hm) ?_
    rintro rfl
    exact sim_pushElem hd hav

/-- The element op of a level. Its element is made on both sides, or is there already. -/
theorem sim_elemOp (ho : isElemOf o hash = true) (hn : o.code ≠ .null) (hc : IsContainer hash c)
    (hcheck : SameCheck h₀ o it c w) :
    Sim h₀ (fun m m' => AtKey h₀ (xs ++ [c]) ys ks js hash w k m m' ∧
        (lval = isLvalue o ∨ m.heap.HasUnder c w))
      (perform names? [o])
      (do
        let e ← elemAt it c k lval
        vivify (some e) q
        return e : Exec CellId)
      fun _ e m m' => ∃ hid, (Meet h₀ hid ⟨xs ++ [.scalar (some e)], ks⟩ ⟨ys, js⟩ m m' ∧
        Visible hid m (some e)) ∧ (q.derefs = true → (m.value (some e)).defined = true) := by
  intro m m' ⟨⟨hid, hm, hw, hw'⟩, hlval⟩
  simp only [isElemOf, if_neg hn] at ho
  cases c with
  | array a =>
    obtain rfl : hash = false := hc
    have hpres : lval = isLvalue o ∨ ∀ b, a = some b → (m.heap.array b).hasElem w.index = true := by
      refine hlval.imp id ?_
      rintro h b rfl
      exact h
    have hinside (h : ∀ b, Item.array a = .array (some b) → b < h₀.arrays.size ∧
        InShape (h₀.array b).shape w.index) :
        ∀ b, a = some b → b < h₀.arrays.size ∧ InShape (h₀.array b).shape w.index :=
      fun b hb => h b (by rw [hb])
    simp only [Bool.false_eq_true, if_false, Bool.or_eq_true, beq_iff_eq] at ho
    obtain ⟨checked, hone, hch⟩ : ∃ checked, perform names? [o] = aelem o checked ∧
        ((!it.act.unchecked) = checked ∨
          ∀ b, a = some b → b < h₀.arrays.size ∧ InShape (h₀.array b).shape w.index) := by
      rcases ho with ho | ho
      · refine ⟨true, perform_one (by simp [step, ho]), hcheck.imp (fun h => ?_) hinside⟩
        simpa [ho] using h
      · refine ⟨false, perform_one (by simp [step, ho]), hcheck.imp (fun h => ?_) hinside⟩
        simpa [ho] using h
    rw [hone]
    refine (sim_aelem h₀c hd hav hch).post (fun _ e m m' hm => ?_) m m' ⟨hm, hw, hw', hpres⟩
    exact ⟨hid, hm⟩
  | hash t =>
    obtain rfl : hash = true := hc
    have hpres : lval = isLvalue o ∨ ∀ b, t = some b → (m.heap.table b).hasKey w.text = true := by
      refine hlval.imp id ?_
      rintro h b rfl
      exact h
    simp only [if_true, beq_iff_eq] at ho
    have hone : perform names? [o] = helem o := perform_one (by simp [step, ho])
    rw [hone]
    refine (sim_helem h₀c hd hav).post (fun _ e m m' hm => ?_) m m' ⟨hm, hw, hw', hpres⟩
    exact ⟨hid, hm⟩
  | scalar c => exact hc.elim
  | glob g => exact hc.elim
  | vacant => exact hc.elim

end Kinds

end Element

section Container

variable {h₀ : Heap} {hid : List CellId} {xs ys : List Item} {ks js : List Nat} {c : Option CellId}

def derefTo (hash : Bool) (c : Option CellId) : Exec Item :=
  if hash then do return .hash (← derefHash (.scalar c) false)
  else do return .array (← derefArray (.scalar c) false)

theorem pushArray_ref (ho : o.flags.has Flags.ref = true) (a : Option ArrayId) :
    pushArray o a = push (.array a) := by
  simp [pushArray, ho]

theorem pushHash_ref (ho : o.flags.has Flags.ref = true) (t : Option TableId) :
    pushHash o t = push (.hash t) := by
  simp [pushHash, ho]

/-- The machines after a container was found: it is on the left stack. -/
def AtContainer (h₀ : Heap) (xs ys : List Item) (ks js : List Nat) (c : Item) (m m' : Machine) : Prop :=
  ∃ hid, Meet h₀ hid ⟨xs ++ [c], ks⟩ ⟨ys, js⟩ m m'

theorem sim_derefOp {hash : Bool} (hc : o.code = if hash then .rv2hv else .rv2av)
    (hr : o.flags.has Flags.ref = true) :
    Sim h₀ (fun m m' => (Meet h₀ hid ⟨xs ++ [.scalar c], ks⟩ ⟨ys, js⟩ m m' ∧ Visible hid m c) ∧
        (m.value c).defined = true)
      (perform names? [o]) (derefTo hash c) fun _ d m m' =>
        AtContainer h₀ xs ys ks js d m m' ∧ IsContainer hash d := by
  have hE {m m' : Machine} (hm : (Meet h₀ hid ⟨xs ++ [.scalar c], ks⟩ ⟨ys, js⟩ m m' ∧ Visible hid m c) ∧
      (m.value c).defined = true) : Meet h₀ hid ⟨xs ++ [.scalar c], ks⟩ ⟨ys, js⟩ m m' ∧
        (∀ id, c = some id → Shown hid m.heap (.scalar id)) ∧ (m.heap.value c).defined = true :=
    ⟨hm.1.1, hm.1.2, hm.2⟩
  cases hash with
  | false =>
    have hone : perform names? [o] = (do
        let x ← pop
        let a ← derefArray x (o.flags.has Flags.mod)
        push (.array a)) := by
      refine perform_one ?_
      simp [step, hc, rv2av, pushArray_ref hr]
    rw [hone, derefTo, if_neg Bool.false_ne_true]
    refine Sim.pre (sim_pop_left (E := fun h _ => (∀ id, c = some id → Shown hid h (.scalar id)) ∧
      (h.value c).defined = true) ?_) fun m m' => hE
    refine Sim.step ((sim_derefArray (o.flags.has Flags.mod)).pre fun m m' hm =>
      ⟨⟨hm.1, hm.2.1⟩, fun _ => hm.2.2⟩) fun a a' ha => ?_
    subst ha
    intro m m' hm
    obtain ⟨n, hok, hoff, hhas⟩ := push_has (.array a') hm.left
    rw [hok]
    exact ⟨⟨hid, hm.peer.move hoff rfl, hhas, hm.right⟩, rfl⟩
  | true =>
    have hone : perform names? [o] = (do
        let x ← pop
        let t ← derefHash x (o.flags.has Flags.mod)
        push (.hash t)) := by
      refine perform_one ?_
      simp [step, hc, rv2hv, pushHash_ref hr]
    rw [hone, derefTo, if_pos rfl]
    refine Sim.pre (sim_pop_left (E := fun h _ => (∀ id, c = some id → Shown hid h (.scalar id)) ∧
      (h.value c).defined = true) ?_) fun m m' => hE
    refine Sim.step ((sim_derefHash (o.flags.has Flags.mod)).pre fun m m' hm =>
      ⟨⟨hm.1, hm.2.1⟩, fun _ => hm.2.2⟩) fun a a' ha => ?_
    subst ha
    intro m m' hm
    obtain ⟨n, hok, hoff, hhas⟩ := push_has (.hash a') hm.left
    rw [hok]
    exact ⟨⟨hid, hm.peer.move hoff rfl, hhas, hm.right⟩, rfl⟩

theorem joint_push_left {m m' : Machine} {d : Item} {hash : Bool} {F : Item → Prop}
    (hm : Meet h₀ hid ⟨xs, ks⟩ ⟨ys, js⟩ m m') (hd : IsContainer hash d ∧ F d) :
    Joint h₀ (fun _ d m m' => AtContainer h₀ xs ys ks js d m m' ∧ IsContainer hash d ∧ F d)
      (push d m) (.ok d m') := by
  obtain ⟨n, hok, hoff, hhas⟩ := push_has d hm.left
  rw [hok]
  exact ⟨⟨hid, hm.peer.move hoff rfl, hhas, hm.right⟩, hd⟩

theorem sim_globStart {hash : Bool} {r : Node} (hs : o.code = .gv)
    (hc : r.code = if hash then .rv2hv else .rv2av) (hr : r.flags.has Flags.ref = true) :
    Sim h₀ (Meet h₀ hid ⟨xs, ks⟩ ⟨ys, js⟩) (perform names? [o, r])
      (do
        let g ← global o.name
        if hash then return .hash (some (← onHeap fun h => h.globTable g))
        else return .array (some (← onHeap fun h => h.globArray g)) : Exec Item)
      fun _ d m m' => AtContainer h₀ xs ys ks js d m m' ∧ IsContainer hash d ∧ True := by
  have hfirst : perform names? [o, r] = (do
      let g ← global o.name
      push (.glob g)
      perform names? [r]) := by
    rw [perform_cons_of (do push (.glob (← global o.name))) (by simp [step, hs]), bind_assoc]
  rw [hfirst]
  refine Sim.bind (sim_onHeap (Heap.blind_globNamed o.name) fun h => h.globNamed_evolves o.name)
    fun g g' => ?_
  refine Sim.given (F := g' = g) (fun m m' hm => ⟨hm.1, hm.2.1⟩) ?_
  rintro rfl
  refine Sim.pre (sim_push_left (E := fun _ _ => True) ?_) fun m m' hm => ⟨hm, trivial⟩
  cases hash with
  | false =>
    have hone : perform names? [r] = (do
        let x ← pop
        let a ← derefArray x (r.flags.has Flags.mod)
        push (.array a)) := by
      refine perform_one ?_
      simp [step, hc, rv2av, pushArray_ref hr]
    rw [hone]
    refine sim_pop_left (E := fun _ _ => True) ?_
    simp only [derefArray, Bool.false_eq_true, if_false, bind_assoc, pure_bind]
    refine Sim.bind ((sim_onHeap (Heap.blind_globArray g') fun h => h.globArray_evolves g').pre
      fun m m' hm => hm.1) fun a a' => ?_
    intro m m' hm
    rw [hm.2.1]
    exact joint_push_left hm.1 ⟨rfl, trivial⟩
  | true =>
    have hone : perform names? [r] = (do
        let x ← pop
        let t ← derefHash x (r.flags.has Flags.mod)
        push (.hash t)) := by
      refine perform_one ?_
      simp [step, hc, rv2hv, pushHash_ref hr]
    rw [hone]
    refine sim_pop_left (E := fun _ _ => True) ?_
    simp only [derefHash, if_true, bind_assoc, pure_bind]
    refine Sim.bind ((sim_onHeap (Heap.blind_globTable g') fun h => h.globTable_evolves g').pre
      fun m m' hm => hm.1) fun a a' => ?_
    intro m m' hm
    rw [hm.2.1]
    exact joint_push_left hm.1 ⟨rfl, trivial⟩

theorem sim_refStart {hash : Bool} {r : Node} (hs : o.code = .padsv)
    (hi : o.priv.has Priv.intro = false) (hd : (derefBit hash).derefs = o.priv.derefs)
    (hav : (derefBit hash).has Priv.derefAV = o.priv.has Priv.derefAV)
    (hc : r.code = if hash then .rv2hv else .rv2av) (hr : r.flags.has Flags.ref = true) :
    Sim h₀ (Meet h₀ hid ⟨xs, ks⟩ ⟨ys, js⟩) (perform names? [o, r])
      (do
        let s ← padSlot o.targ
        vivify s.scalar? (derefBit hash)
        derefTo hash s.scalar?)
      fun _ d m m' => AtContainer h₀ xs ys ks js d m m' ∧ IsContainer hash d := by
  have hbody : perform names? [o, r] = (do
      let s ← padSlot o.targ
      vivify s.scalar? o.priv
      push (.scalar s.scalar?)
      perform names? [r]) := by
    rw [perform_cons_of (padScalar o) (by simp [step, hs])]
    simp [padScalar, hi]
  rw [hbody]
  refine (sim_padSlot o.targ).bind fun s t => Sim.given (F := t = s) (fun m m' hm => hm) ?_
  rintro rfl
  rw [vivify_congr hd hav]
  refine (sim_vivify o.priv).bind fun _ _ => ?_
  have hderefs : o.priv.derefs = true := by
    rw [← hd]
    cases hash <;> rfl
  refine Sim.pre (sim_push_left (E := fun h _ => (∀ id, t.scalar? = some id → Shown hid h (.scalar id)) ∧
      (h.value t.scalar?).defined = true)
    ((sim_derefOp hc hr).pre fun m m' hm => ⟨⟨hm.1, hm.2.1⟩, hm.2.2⟩))
    fun m m' hm => ⟨hm.1.1, hm.1.2, hm.2 hderefs⟩

theorem slot_shape {p : Pad} {m : Machine} (hm : m.Sound p) {targ : Int} {s : PadSlot} {n : Machine}
    (h : padSlot targ m = .ok s n) :
    n = m ∧ ∀ b, s.array? = some b → b < m.heap.arrays.size ∧ (m.heap.array b).shape = p.shape targ := by
  simp only [padSlot, bind, EStateM.bind, get, getThe, MonadStateOf.get, get_run] at h
  by_cases hneg : targ < 0
  · rw [if_pos hneg] at h
    cases h
  rw [if_neg hneg] at h
  cases hs : m.pad[targ.toNat]? with
  | none =>
    rw [hs] at h
    cases h
  | some s' =>
    rw [hs] at h
    cases h
    refine ⟨rfl, fun b hb => ?_⟩
    have hfits := hm.pad _ _ hs
    cases s with
    | array c =>
      obtain rfl := Option.some.inj hb
      have hcast : ((targ.toNat : Nat) : Int) = targ := Int.toNat_of_nonneg (Int.not_lt.mp hneg)
      exact ⟨hfits.1, hcast ▸ hfits.2⟩
    | scalar c => cases hb
    | hash t => cases hb

theorem joint_padStart {p : Pad} {m : Machine} (hm : m.Sound p) (hb : m.hook.Blind)
    (hk : m.kept = fun _ => none) {hash : Bool}
    (hc : o.code = if hash then .padhv else .padav) (hf : o.flags.has Flags.ref = true)
    (hi : o.priv.has Priv.intro = false) :
    Joint m.heap (fun _ d n n' => AtContainer m.heap m.stack m.stack m.marks m.marks d n n' ∧
        IsContainer hash d ∧ ∀ b, d = .array (some b) →
          b < m.heap.arrays.size ∧ (m.heap.array b).shape = p.shape o.targ)
      (perform names? [o] m)
      ((do
        let s ← padSlot o.targ
        return if hash then .hash s.hash? else .array s.array? : Exec Item) m) := by
  have hmeet : Meet m.heap [] ⟨m.stack, m.marks⟩ ⟨m.stack, m.marks⟩ m m :=
    ⟨hm.peer hb hk, ⟨hm.room, rfl, rfl⟩, hm.room, rfl, rfl⟩
  have hone : perform names? [o] = (do
      let s ← padSlot o.targ
      push (if hash then .hash s.hash? else .array s.array?)) := by
    refine perform_one ?_
    cases hash with
    | false =>
      have hc : o.code = .padav := hc
      simp [step, hc, padArray, hi, pushArray_ref hf]
    | true =>
      have hc : o.code = .padhv := hc
      simp [step, hc, padHash, hi, pushHash_ref hf]
  rw [hone]
  cases hs : padSlot o.targ m with
  | error e n =>
    rw [bind_of_error hs, bind_of_error hs]
    have h := sim_padSlot o.targ m m hmeet
    rw [hs] at h
    exact ⟨.refl e, h.2⟩
  | ok s n =>
    obtain ⟨rfl, hshape⟩ := slot_shape hm hs
    rw [bind_of_ok hs, bind_of_ok hs]
    refine joint_push_left hmeet ⟨?_, fun b hb => ?_⟩
    · cases hash <;> rfl
    · cases hash with
      | false =>
        refine hshape b ?_
        simpa using hb
      | true => cases hb

end Container

end Exec

end OpTree
