import OpTree.Proofs.Compiled

/-!
# Side tables

What the side table of a fused op says of the element ops that it stands for. The table is filled when a chain is
recognized, from ops that may have changed since the tree was assembled, and it may lose checks afterwards; what is
shown here relates the ops that were assembled to the table that is left.
-/

namespace OpTree

set_option autoImplicit false

open Peep Node

namespace Action

/-- Does the level start from the container at a slot, or from the scalar at one. -/
def FromSlot (act : Action) : Prop :=
  act.kind ∈ [padavAelem.byte, padhvHelem.byte, padsvRv2avAelem.byte, padsvRv2hvHelem.byte]

theorem and_or_of_apart {b u m : UInt8} (h : u &&& m = 0) : (b ||| u) &&& m = b &&& m := by
  have hd : m &&& (b ||| u) = (m &&& b) ||| (m &&& u) := UInt8.toBitVec_inj.mp BitVec.and_or_distrib_left
  rw [UInt8.and_comm, hd, UInt8.and_comm m u, h, UInt8.or_zero, UInt8.and_comm]

theorem kind_unchecked (act : Action) : (act.or uncheckedBit).kind = act.kind := and_or_of_apart rfl

theorem index_unchecked (act : Action) : (act.or uncheckedBit).index = act.index := and_or_of_apart rfl

end Action

namespace PathItem

def keyed (it : PathItem) : Bool := it.act.isHash && it.act.index == Action.idxConst

/-- The ranges of the keys follow each other from `lo` up to `hi`. -/
def Tile : Nat → Nat → List PathItem → Prop
  | lo, hi, [] => lo = hi
  | lo, hi, it :: its => it.key = lo ∧ Tile (lo + it.keyLen) hi its

theorem Tile.le {lo hi : Nat} {its : List PathItem} (h : Tile lo hi its) : lo ≤ hi := by
  induction its generalizing lo with
  | nil => exact Nat.le_of_eq h
  | cons it its ih =>
    have := ih h.2
    omega

theorem Tile.inside {lo hi : Nat} {its : List PathItem} (h : Tile lo hi its) :
    ∀ it ∈ its, lo ≤ it.key ∧ it.key + it.keyLen ≤ hi := by
  induction its generalizing lo with
  | nil => exact nofun
  | cons it its ih =>
    rintro j (_ | ⟨_, hj⟩)
    · exact ⟨Nat.le_of_eq h.1.symm, h.1 ▸ h.2.le⟩
    · have := ih h.2 j hj
      omega

structure Alike (i j : PathItem) : Prop where
  kind : j.act.kind = i.act.kind
  index : j.act.index = i.act.index
  targ : j.targ = i.targ
  idxTarg : j.idxTarg = i.idxTarg
  number : j.index = i.index
  key : j.key = i.key
  keyLen : j.keyLen = i.keyLen

theorem Eased.alike {i j : PathItem} (h : i.Eased j) : i.Alike j := by
  rcases h with rfl | rfl
  · exact ⟨rfl, rfl, rfl, rfl, rfl, rfl, rfl⟩
  · exact ⟨Action.kind_unchecked _, Action.index_unchecked _, rfl, rfl, rfl, rfl, rfl⟩

section Alike

variable {i j : PathItem}

theorem Alike.isHash (h : i.Alike j) : j.act.isHash = i.act.isHash := by
  rw [Action.isHash, Action.isHash, h.kind]

theorem Alike.isStart (h : i.Alike j) : j.act.isStart = i.act.isStart := by
  rw [Action.isStart, Action.isStart, h.kind]

theorem Alike.keyed (h : i.Alike j) : j.keyed = i.keyed := by
  rw [PathItem.keyed, PathItem.keyed, h.isHash, h.index]

theorem Alike.fromSlot (h : i.Alike j) : j.act.FromSlot ↔ i.act.FromSlot := by
  rw [Action.FromSlot, Action.FromSlot, h.kind]

end Alike

theorem Tile.alike {lo hi : Nat} {is js : List PathItem} (h : Tile lo hi is) (hij : List.Forall₂ Alike is js) :
    Tile lo hi js := by
  induction hij generalizing lo with
  | nil => exact h
  | cons hij _ ih => exact ⟨hij.key.trans h.1, hij.keyLen ▸ ih h.2⟩

end PathItem

namespace Arena

/-- The element ops from the container `c` up to the op that takes the place of them all. Each accesses an element
of what its first kid leaves, and the element refers to the container of the next. -/
inductive Climb (a : Arena) : RecId → List RecId → RecId → Prop where
  | last {c e : RecId} (he : (a.node e).first = some c) : Climb a c [e] e
  /-- The last element is tested or deleted. -/
  | user {c e top : RecId} (he : (a.node e).first = some c) (ht : (a.node top).first = some e)
      (hc : (a.node top).code = .existsElem ∨ (a.node top).code = .deleteElem) : Climb a c [e] top
  | more {c e r top : RecId} {es : List RecId} (he : (a.node e).first = some c) (hr : (a.node r).first = some e)
      (hc : (a.node r).code = .rv2av ∨ (a.node r).code = .rv2hv) (h : Climb a r es top) : Climb a c (e :: es) top

/-- A chain of element ops that starts with `s`, which leaves a container or what refers to one. -/
inductive Chain (a : Arena) (s : RecId) (es : List RecId) (top : RecId) : Prop where
  | container (hs : (a.node s).code = .padav ∨ (a.node s).code = .padhv) (h : Climb a s es top)
  | refers {r : RecId} (hs : (a.node s).code = .gv ∨ (a.node s).code = .padsv) (hr : (a.node r).first = some s)
      (hc : (a.node r).code = .rv2av ∨ (a.node r).code = .rv2hv) (h : Climb a r es top)

end Arena

namespace Path

/-- The index of an item is that of an element op with the key op `k`: a variable, a literal text or a literal
number. -/
inductive Indexes (q : Path) (k : Node) (it : PathItem) : Prop where
  | var (hi : it.act.index = Action.idxPadsv) (hk : k.code = .padsv) (ht : it.idxTarg = k.targ)
  | text (hi : it.act.index = Action.idxConst) (hh : it.act.isHash = true) (hk : k.code = .const)
      (ht : q.keyAt it = k.val.value.text)
  | number (hi : it.act.index = Action.idxConst) (hh : it.act.isHash = false) (hk : k.constInt? = some it.index)

/-- The item stands for the element op `e` of a chain that starts with `s`. -/
structure Stands (q : Path) (a : Arena) (s e : RecId) (it : PathItem) : Prop where
  kind : isElemOf (a.node e) it.act.isHash = true
  key : ∃ k, a.kid? e 1 = some k ∧ q.Indexes (a.node k) it
  container : it.act.FromSlot → (a.node s).code ∈ [Opcode.padsv, .padav, .padhv] ∧ it.targ = (a.node s).targ

/-- The table describes the element ops `es` of a chain that starts with `s`, one item for each. -/
structure Tabulates (q : Path) (a : Arena) (s : RecId) (es : List RecId) : Prop where
  items : List.Forall₂ (q.Stands a s) es q.items
  start : ∃ it its, q.items = it :: its ∧ it.act.isStart = true ∧ ∀ j ∈ its, j.act.isStart = false
  ranges : PathItem.Tile 0 q.keys.length (q.items.filter PathItem.keyed)

/-- Every slot that the table names is one of the pad. -/
structure Slotted (q : Path) (p : Pad) : Prop where
  container : ∀ it ∈ q.items, it.act.FromSlot → (p.get? it.targ).isSome = true
  index : ∀ it ∈ q.items, it.act.index = Action.idxPadsv → (p.get? it.idxTarg).isSome = true

section Eased

variable {q q' : Path} {a : Arena} {s e : RecId} {es : List RecId} {k : Node} {i j : PathItem}

theorem Indexes.alike (h : q.Indexes k i) (hij : i.Alike j) (hkeys : q'.keys = q.keys) : q'.Indexes k j := by
  cases h with
  | var hi hk ht => exact .var (hij.index.trans hi) hk (hij.idxTarg.trans ht)
  | text hi hh hk ht =>
    refine .text (hij.index.trans hi) (hij.isHash.trans hh) hk ?_
    rw [← ht, keyAt, keyAt, hkeys, hij.key, hij.keyLen]
  | number hi hh hk => exact .number (hij.index.trans hi) (hij.isHash.trans hh) (hij.number.symm ▸ hk)

theorem Stands.alike (h : q.Stands a s e i) (hij : i.Alike j) (hkeys : q'.keys = q.keys) : q'.Stands a s e j where
  kind := hij.isHash ▸ h.kind
  key := by
    obtain ⟨k, hk, hi⟩ := h.key
    exact ⟨k, hk, hi.alike hij hkeys⟩
  container hf := by
    obtain ⟨hc, ht⟩ := h.container (hij.fromSlot.mp hf)
    exact ⟨hc, hij.targ.trans ht⟩

theorem Tabulates.eased (h : q.Tabulates a s es) (he : q.Eased q') : q'.Tabulates a s es := by
  have hitems : List.Forall₂ PathItem.Alike q.items q'.items := he.items.imp fun _ _ => PathItem.Eased.alike
  refine ⟨?_, ?_, ?_⟩
  · refine List.forall₂_iff_get.mpr ⟨h.items.length_eq.trans hitems.length_eq, fun n hn hn' => ?_⟩
    have hlt : n < q.items.length := h.items.length_eq ▸ hn
    exact (h.items.get hn hlt).alike (hitems.get hlt hn') he.keys
  · obtain ⟨it, its, hits, hstart, hrest⟩ := h.start
    rw [hits] at hitems
    obtain ⟨j, js, hij, hjs, hq⟩ := List.forall₂_cons_left_iff.mp hitems
    refine ⟨j, js, hq, hij.isStart.trans hstart, fun x hx => ?_⟩
    obtain ⟨n, hn, rfl⟩ := List.getElem_of_mem hx
    have hlt : n < its.length := hjs.length_eq.symm ▸ hn
    exact (hjs.get hlt hn).isStart.trans (hrest _ (List.getElem_mem hlt))
  · rw [he.keys]
    refine h.ranges.alike ?_
    exact List.rel_filter (fun i j hij => Bool.eq_iff_iff.mp hij.keyed.symm) hitems

theorem Stands.key_targ (h : q.Stands a s e i) (hi : i.act.index = Action.idxPadsv) :
    ∃ k, a.kid? e 1 = some k ∧ (a.node k).code = .padsv ∧ i.idxTarg = (a.node k).targ := by
  obtain ⟨k, hk, hix⟩ := h.key
  cases hix with
  | var _ hc ht => exact ⟨k, hk, hc, ht⟩
  | text hi' _ _ _ => exact absurd (hi.symm.trans hi') (by decide)
  | number hi' _ _ => exact absurd (hi.symm.trans hi') (by decide)

theorem Tabulates.slotted (h : q.Tabulates a s es) {p : Pad} (hs : (a.node s).Slotted p)
    (hk : ∀ e ∈ es, ∀ k, a.kid? e 1 = some k → (a.node k).Slotted p) : q.Slotted p := by
  have hitem : ∀ it ∈ q.items, ∃ e ∈ es, q.Stands a s e it := by
    intro it hit
    obtain ⟨n, hn, rfl⟩ := List.getElem_of_mem hit
    have hlt : n < es.length := h.items.length_eq.symm ▸ hn
    exact ⟨_, List.getElem_mem hlt, h.items.get hlt hn⟩
  refine ⟨fun it hit hf => Pad.has_iff.mp ?_, fun it hit hi => Pad.has_iff.mp ?_⟩
  · obtain ⟨e, -, hst⟩ := hitem it hit
    obtain ⟨hc, ht⟩ := hst.container hf
    exact ht ▸ hs hc
  · obtain ⟨e, he, hst⟩ := hitem it hit
    obtain ⟨k, hkid, hc, ht⟩ := hst.key_targ hi
    exact ht ▸ hk e he k hkid (by simp [hc])

end Eased

end Path

namespace Peep

section Ladders

open OpTree.Path

variable {S : Course} {root : RecId} {ps : PeepState} {a c : Arena}

theorem kid?_one {e k : RecId} (hf : (a.node e).first = some k) (hs : 0 < a.recs.size) :
    a.kid? e 1 = (a.node k).sibling? := by
  obtain ⟨n, hn⟩ : ∃ n, a.bound = n + 2 := ⟨a.recs.size - 1, by rw [Arena.bound]; omega⟩
  rw [Arena.kid?, Arena.kids, hf, hn, Arena.siblingsFrom]
  cases (a.node k).sibling? <;> rfl

theorem Level.recalled {ct : Int} {act : Action} {x elem : RecId} {l : PathLevel} (hl : Lasts root a c)
    (ht : Tended S root ps c) (h : Level c ct act x elem l) (hx : x ∈ (c.tree root).recs)
    (hs : (c.node x).code ∈ stays) (hk : FirstKid c x elem) :
    isElemOf (a.node elem) act.isHash = true ∧ (a.node elem).first = some x ∧ a.kid? elem 1 = some l.key ∧
      (a.node l.key).SameOp (c.node l.key) := by
  have helem : elem ∈ (c.tree root).recs := ht.parent_mem hx hk.parent
  have hkey : l.key ∈ (c.tree root).recs := ht.kid?_mem helem h.kid
  have hpos : 0 < c.recs.size := Nat.zero_lt_of_lt (ht.lt hx)
  obtain ⟨he, hfirst⟩ := (hl.recalls elem helem).elem _ h.is_elem
  have hsame := (hl.recalls x hx).plain hs
  have hafirst : (a.node elem).first = some x := hfirst ▸ hk.first
  refine ⟨he, hafirst, ?_, (hl.recalls l.key hkey).plain ?_⟩
  · rw [kid?_one hafirst (hl.size ▸ hpos), Node.sibling?, ← hsame.sib]
    have hkid := h.kid
    rwa [kid?_one hk.first hpos] at hkid
  · have hcode : (c.node l.key).code = .padsv ∨ (c.node l.key).code = .const := by
      cases h.kind with
      | var hk _ => exact Or.inl (Node.plainPadsv hk).1
      | text hc _ _ _ => exact Or.inr hc
      | index hi _ _ => exact Or.inr (Node.const_of_constInt? hi).1
      | sure hi _ _ _ _ => exact Or.inr (Node.const_of_constInt? hi).1
    rcases hcode with h | h <;> simp [stays, h]

theorem next_level {act : Action} {elem r next : RecId} (hn : nextLevel? c elem = some (act, r, next)) :
    (act.FromSlot → False) ∧ act.isStart = false ∧ ((c.node r).code = .rv2av ∨ (c.node r).code = .rv2hv) ∧
      FirstKid c elem r ∧ FirstKid c r next := by
  obtain ⟨⟨hash, rfl, hd, -⟩, hkid⟩ := next_of_some hn
  have hcode := hd.code
  cases hash with
  | false => exact ⟨by unfold Action.FromSlot; decide, rfl, Or.inl hcode, hd.kid, hkid⟩
  | true => exact ⟨by unfold Action.FromSlot; decide, rfl, Or.inr hcode, hd.kid, hkid⟩

theorem deref_stays {r : RecId} (h : (c.node r).code = .rv2av ∨ (c.node r).code = .rv2hv) :
    (c.node r).code ∈ stays := by
  rcases h with h | h <;> simp [stays, h]

section Above

variable {ct : Int} {act : Action} {x elem top : RecId} {ls : List PathLevel} {front fin : List RecId}
  (hl : Lasts root a c) (ht : Tended S root ps c)

include hl

theorem Lasts.deref {r k : RecId} (hr : r ∈ (c.tree root).recs)
    (hc : (c.node r).code = .rv2av ∨ (c.node r).code = .rv2hv) (hk : FirstKid c k r) :
    (a.node r).first = some k ∧ ((a.node r).code = .rv2av ∨ (a.node r).code = .rv2hv) := by
  have hsame := (hl.recalls r hr).plain (deref_stays hc)
  exact ⟨hsame.first ▸ hk.first, hsame.code ▸ hc⟩

include ht

/-- The element ops of a ladder lie above each other, in the tree as it was assembled. -/
theorem Ladder.climb (h : Ladder c ct act x elem ls front fin top) (hx : x ∈ (c.tree root).recs)
    (hs : (c.node x).code ∈ stays) (hk : FirstKid c x elem) : a.Climb x (ls.map PathLevel.elem) top := by
  induction h with
  | last h _ =>
    obtain ⟨-, hfirst, -⟩ := h.recalled hl ht hx hs hk
    rw [List.map_singleton, h.op]
    exact .last hfirst
  | @user act x elem top l h _ hu =>
    obtain ⟨-, hfirst, -⟩ := h.recalled hl ht hx hs hk
    obtain ⟨-, hc, hkid⟩ := user_of_some hu
    have htop := ht.parent_mem (ht.parent_mem hx hk.parent) hkid.parent
    have hsame := (hl.recalls top htop).plain (by rcases hc with h | h <;> simp [stays, h])
    rw [List.map_singleton, h.op]
    exact .user hfirst (hsame.first ▸ hkid.first) (hsame.code ▸ hc)
  | @more act act' x elem r next top l ls front fin h _ hn _ ih =>
    obtain ⟨-, hfirst, -⟩ := h.recalled hl ht hx hs hk
    obtain ⟨-, -, hc, hkid, hkid'⟩ := next_level hn
    have hr := ht.parent_mem (ht.parent_mem hx hk.parent) hkid.parent
    obtain ⟨hrfirst, hrcode⟩ := hl.deref hr hc hkid
    rw [List.map_cons, h.op]
    exact .more hfirst hrfirst hrcode (ih hr (deref_stays hc) hkid')

omit hl in
theorem Ladder.elem_mem (h : Ladder c ct act x elem ls front fin top) (hx : x ∈ (c.tree root).recs)
    (hk : FirstKid c x elem) : ∀ l ∈ ls, l.elem ∈ (c.tree root).recs := by
  have helem {x elem : RecId} {act : Action} {l : PathLevel} (h : Level c ct act x elem l)
      (hx : x ∈ (c.tree root).recs) (hk : FirstKid c x elem) : l.elem ∈ (c.tree root).recs :=
    h.op ▸ ht.parent_mem hx hk.parent
  induction h with
  | last h _ =>
    rintro l (_ | ⟨_, hm⟩)
    · exact helem h hx hk
    · cases hm
  | user h _ _ =>
    rintro l (_ | ⟨_, hm⟩)
    · exact helem h hx hk
    · cases hm
  | more h _ hn _ ih =>
    obtain ⟨-, -, -, hkid, hkid'⟩ := next_level hn
    rintro l (_ | ⟨_, hm⟩)
    · exact helem h hx hk
    · exact ih (ht.parent_mem (ht.parent_mem hx hk.parent) hkid.parent) hkid' l hm

/-- The item of a level stands for its element op. `keys` are the bytes of the keys before. -/
theorem Level.stands {l : PathLevel} (h : Level c ct act x elem l) (hx : x ∈ (c.tree root).recs)
    (hs : (c.node x).code ∈ stays) (hk : FirstKid c x elem) (hb : act ∈ Action.bases) {s : RecId}
    (hstart : act.FromSlot → (a.node s).code ∈ [Opcode.padsv, .padav, .padhv] ∧ (c.node s).targ = (a.node s).targ)
    {q : Path} {keys rest : Bytes} (hq : q.keys = keys ++ (l.keyText ++ rest)) :
    q.Stands a s l.elem (pathItem c (c.node s) keys l) := by
  obtain ⟨he, -, hkid, hsame⟩ := h.recalled hl ht hx hs hk
  have hbits := itemBits (c.node s) keys hb h.kind
  have hindex (hc : (c.node l.key).code = .const) :
      (pathItem c (c.node s) keys l).act.index = Action.idxConst := by
    rw [hbits.index, if_neg (by simp [hc])]
  have hnumber {i : Int64} (hi : (c.node l.key).constInt? = some i) (hh : act.isHash = false) :
      q.Indexes (a.node l.key) (pathItem c (c.node s) keys l) := by
    have hc := (Node.const_of_constInt? hi).1
    refine .number (hindex hc) (hbits.isHash.trans hh) ?_
    rw [pathItem_index hc (hbits.levelHash.trans hh), hi, Option.getD_some, ← hi, Node.constInt?, Node.constInt?,
      hsame.code, hsame.val]
  refine ⟨hbits.isHash ▸ h.op ▸ he, ⟨l.key, h.op ▸ hkid, ?_⟩, fun hf => ?_⟩
  · cases h.kind with
    | var hk _ =>
      have hc := (Node.plainPadsv hk).1
      exact .var (hbits.index.trans (if_pos hc)) (hsame.code ▸ hc) ((pathItem_idxTarg hc).trans hsame.targ)
    | text hc hh _ htext =>
      refine .text (hindex hc) (hbits.isHash.trans hh) (hsame.code ▸ hc) ?_
      rw [keyAt_pathItem hc (hbits.levelHash.trans hh) hq, htext, hsame.val]
    | index hi hh _ => exact hnumber hi hh
    | sure hi hh _ _ _ => exact hnumber hi hh
  · rw [Action.FromSlot, hbits.kind] at hf
    obtain ⟨hc, htarg⟩ := hstart hf
    refine ⟨hc, (pathItem_targ ?_).trans htarg⟩
    rw [hbits.level]
    simpa [Action.padavAelem, Action.padhvHelem, Action.padsvRv2avAelem, Action.padsvRv2hvHelem] using hf

theorem Ladder.stands (h : Ladder c ct act x elem ls front fin top) (hx : x ∈ (c.tree root).recs)
    (hs : (c.node x).code ∈ stays) (hk : FirstKid c x elem) (hb : act ∈ Action.bases) {s : RecId}
    (hstart : act.FromSlot → (a.node s).code ∈ [Opcode.padsv, .padav, .padhv] ∧ (c.node s).targ = (a.node s).targ)
    {q : Path} {keys rest : Bytes} (hq : q.keys = keys ++ (ls.flatMap PathLevel.keyText ++ rest)) :
    List.Forall₂ (q.Stands a s) (ls.map PathLevel.elem) (pathItems c (c.node s) keys ls) := by
  induction h generalizing keys with
  | last h _ => exact .cons (h.stands hl ht hx hs hk hb hstart (by simpa using hq)) .nil
  | user h _ _ => exact .cons (h.stands hl ht hx hs hk hb hstart (by simpa using hq)) .nil
  | @more act act' x elem r next top l ls front fin h _ hn _ ih =>
    rw [List.flatMap_cons, List.append_assoc] at hq
    obtain ⟨hslot, -, hc, hkid, hkid'⟩ := next_level hn
    have hr := ht.parent_mem (ht.parent_mem hx hk.parent) hkid.parent
    refine .cons (h.stands hl ht hx hs hk hb hstart hq) ?_
    exact ih hr (deref_stays hc) hkid' (base_of_next hn) (fun hf => (hslot hf).elim) (by rw [hq, List.append_assoc])

end Above

section Layout

variable {ct : Int} {act : Action} {x elem top : RecId} {l : PathLevel} {ls : List PathLevel}
  {front fin : List RecId} {sn : Node}

theorem Level.tile (h : Level c ct act x elem l) (hb : act ∈ Action.bases) {keys : Bytes} {hi : Nat}
    {its : List PathItem} (hits : PathItem.Tile (keys ++ l.keyText).length hi its) :
    PathItem.Tile keys.length hi
      ((if (pathItem c sn keys l).keyed then [pathItem c sn keys l] else []) ++ its) := by
  have hbits := itemBits sn keys hb h.kind
  by_cases hk : (pathItem c sn keys l).keyed = true
  · rw [if_pos hk]
    rw [PathItem.keyed, Bool.and_eq_true, beq_iff_eq, hbits.index, hbits.isHash] at hk
    have hconst : (c.node l.key).code = .const := by
      cases h.kind with
      | var hv _ =>
        rw [if_pos (Node.plainPadsv hv).1] at hk
        exact absurd hk.2 (by decide)
      | text hc _ _ _ => exact hc
      | index hi _ _ => exact (Node.const_of_constInt? hi).1
      | sure hi _ _ _ _ => exact (Node.const_of_constInt? hi).1
    obtain ⟨hkey, hlen⟩ := @pathItem_key c sn keys l hconst (hbits.levelHash.trans hk.1)
    rw [List.length_append] at hits
    exact ⟨hkey, hlen ▸ hits⟩
  · have hblank : l.keyText = [] := by
      refine h.blank (Classical.or_iff_not_imp_left.mpr fun hc => ?_)
      rw [PathItem.keyed, Bool.and_eq_true, beq_iff_eq, hbits.index, hbits.isHash] at hk
      rw [not_not] at hc
      simpa [hc] using hk
    rw [hblank, List.append_nil] at hits
    rwa [if_neg hk]

theorem Ladder.tile (h : Ladder c ct act x elem ls front fin top) (hb : act ∈ Action.bases) (keys : Bytes) :
    PathItem.Tile keys.length (keys ++ ls.flatMap PathLevel.keyText).length
      ((pathItems c sn keys ls).filter PathItem.keyed) := by
  have hcons {l : PathLevel} {ls : List PathLevel} {keys : Bytes} :
      (pathItems c sn keys (l :: ls)).filter PathItem.keyed =
        (if (pathItem c sn keys l).keyed then [pathItem c sn keys l] else []) ++
          (pathItems c sn (keys ++ l.keyText) ls).filter PathItem.keyed := by
    rw [pathItems, List.filter_cons]
    split <;> rfl
  induction h generalizing keys with
  | last h _ =>
    rw [hcons, List.flatMap_singleton]
    exact h.tile hb rfl
  | user h _ _ =>
    rw [hcons, List.flatMap_singleton]
    exact h.tile hb rfl
  | more h _ hn _ ih =>
    rw [hcons, List.flatMap_cons, ← List.append_assoc]
    exact h.tile hb (ih (base_of_next hn) _)

theorem Ladder.starts (h : Ladder c ct act x elem ls front fin top) (hb : act ∈ Action.bases) (keys : Bytes) :
    ∃ it its, pathItems c sn keys ls = it :: its ∧ it.act.isStart = act.isStart ∧
      ∀ j ∈ its, j.act.isStart = false := by
  have hfirst {act : Action} {x elem : RecId} {l : PathLevel} (h : Level c ct act x elem l)
      (hb : act ∈ Action.bases) (keys : Bytes) : (pathItem c sn keys l).act.isStart = act.isStart := by
    rw [Action.isStart, Action.isStart, (itemBits sn keys hb h.kind).kind]
  induction h generalizing keys with
  | last h _ => exact ⟨_, _, rfl, hfirst h hb keys, nofun⟩
  | user h _ _ => exact ⟨_, _, rfl, hfirst h hb keys, nofun⟩
  | @more act act' x elem r next top l ls front fin h _ hn _ ih =>
    obtain ⟨it, its, hits, hstart, hrest⟩ := ih (base_of_next hn) (keys ++ l.keyText)
    refine ⟨_, _, rfl, hfirst h hb keys, ?_⟩
    rw [hits]
    rintro j (_ | ⟨_, hj⟩)
    · exact hstart.trans (next_level hn).2.1
    · exact hrest j hj

/-- How the start of a chain and the action of its first item belong together. -/
structure Begins (c : Arena) (s r : RecId) (act : Action) : Prop where
  base : act ∈ Action.bases
  isStart : act.isStart = true
  stays : (c.node s).code ∈ stays
  slot : act.FromSlot → (c.node s).code ∈ [Opcode.padsv, .padav, .padhv]
  place : (r = s ∧ ((c.node s).code = .padav ∨ (c.node s).code = .padhv)) ∨
    (((c.node s).code = .gv ∨ (c.node s).code = .padsv) ∧ FirstKid c s r ∧
      ((c.node r).code = .rv2av ∨ (c.node r).code = .rv2hv))

theorem Start.begins {s r : RecId} {act : Action} {ops : List RecId} (h : Start c s act r ops) :
    Begins c s r act := by
  have hderef {hash : Bool} (hd : Deref c hash s r) : (c.node r).code = .rv2av ∨ (c.node r).code = .rv2hv := by
    have hcode := hd.code
    cases hash with
    | false => exact Or.inl hcode
    | true => exact Or.inr hcode
  cases h with
  | pad hash hc _ _ =>
    cases hash with
    | false => exact ⟨by decide, rfl, by simp [hc, Node.stays], fun _ => by simp [hc], Or.inl ⟨rfl, Or.inl hc⟩⟩
    | true => exact ⟨by decide, rfl, by simp [hc, Node.stays], fun _ => by simp [hc], Or.inl ⟨rfl, Or.inr hc⟩⟩
  | glob hash hc hd =>
    have hslot : ¬ (if hash then Action.gvhvHelem else .gvavAelem).FromSlot := by
      unfold Action.FromSlot
      cases hash <;> decide
    refine ⟨Start.base (.glob hash hc hd), by cases hash <;> rfl, by simp [hc, Node.stays], fun hf => ?_,
      Or.inr ⟨Or.inl hc, hd.kid, hderef hd⟩⟩
    exact absurd hf hslot
  | ref hash hc hi hb hd =>
    exact ⟨Start.base (.ref hash hc hi hb hd), by cases hash <;> rfl, by simp [hc, Node.stays], fun _ => by simp [hc],
      Or.inr ⟨Or.inr hc, hd.kid, hderef hd⟩⟩

end Layout

/-- What is filled in for a chain describes its element ops, as they were assembled. -/
theorem scan_tabulates (hl : Lasts root a c) (ht : Tended S root ps c) {s : RecId} {m : PathMatch}
    (hs : s ∈ (c.tree root).recs) (h : scanPath s ps c = .ok (.ok (some m), ps) c) :
    a.Chain s (m.levels.map PathLevel.elem) m.top ∧
      (pathOf c (c.node s) m.levels).Tabulates a s (m.levels.map PathLevel.elem) ∧
      m.keys = (pathOf c (c.node s) m.levels).keys.length ∧ ∀ l ∈ m.levels, l.elem ∈ (c.tree root).recs := by
  obtain ⟨-, -, hkeys, act, r, elem, front, fin, hstart, hladder⟩ := chain_of_scan h
  obtain ⟨⟨ops, hops⟩, -, hkid⟩ := start_of_some hstart
  have hb := hops.begins
  have hsame := (hl.recalls s hs).plain hb.stays
  have hr : r ∈ (c.tree root).recs ∧ (c.node r).code ∈ stays := by
    rcases hb.place with ⟨rfl, -⟩ | ⟨-, hk, hc⟩
    · exact ⟨hs, hb.stays⟩
    · exact ⟨ht.parent_mem hs hk.parent, deref_stays hc⟩
  have hclimb := hladder.climb hl ht hr.1 hr.2 hkid
  have hslot : act.FromSlot →
      (a.node s).code ∈ [Opcode.padsv, .padav, .padhv] ∧ (c.node s).targ = (a.node s).targ :=
    fun hf => ⟨hsame.code ▸ hb.slot hf, hsame.targ⟩
  rw [pathOf_eq]
  let q : Path := ⟨pathItems c (c.node s) [] m.levels, m.levels.flatMap PathLevel.keyText⟩
  have hq : q.keys = [] ++ (m.levels.flatMap PathLevel.keyText ++ []) := (List.append_nil _).symm
  change a.Chain s _ m.top ∧ q.Tabulates a s _ ∧ m.keys = q.keys.length ∧ _
  refine ⟨?_, ⟨?_, ?_, ?_⟩, hkeys, hladder.elem_mem ht hr.1 hkid⟩
  · rcases hb.place with ⟨rfl, hc⟩ | ⟨hc, hk, hd⟩
    · exact .container (hsame.code ▸ hc) hclimb
    · obtain ⟨hfirst, hcode⟩ := hl.deref hr.1 hd hk
      exact .refers (hsame.code ▸ hc) hfirst hcode hclimb
  · exact hladder.stands hl ht hr.1 hr.2 hkid hb.base hslot hq
  · obtain ⟨it, its, hits, hfirst, hrest⟩ := hladder.starts hb.base []
    exact ⟨it, its, hits, hfirst.trans hb.isStart, hrest⟩
  · exact hladder.tile hb.base []

end Ladders

end Peep

namespace SubUnit

/-- The fused op `r` of the finished unit `u` has a table that describes a chain of element ops in the unit `v`, as
it was assembled. It is as large as the scan that found the chain took it to be. -/
def Tabled (v u : SubUnit) (root r : RecId) : Prop :=
  ∃ q s es, (u.arena.node r).path = some q ∧ v.arena.Chain s es r ∧ q.Tabulates v.arena s es ∧
    q.Slotted u.arena.pad ∧
    ∃ c ps m, Lasts root v.arena c ∧ scanPath s ps c = .ok (.ok (some m), ps) c ∧ m.top = r ∧
      m.levels.map PathLevel.elem = es ∧ m.keys = q.keys.length

theorem tabled_of_fused {v u : SubUnit} {t : Tree} (hv : v.arena.Assembled t) (hpad : u.arena.pad = v.arena.pad)
    {r : RecId} (h : Fused t.root v.arena u.arena r) : v.Tabled u t.root r := by
  obtain ⟨S, c, ps, s, m, q, ht, hl, hs, hscan, rfl, hpath, hq⟩ := h
  obtain ⟨hchain, htab, hkeys, helems⟩ := scan_tabulates hl ht hs hscan
  have hholds : v.arena.Holds t := hv.site.holds t (by simp)
  have hnodup : t.recs.Nodup := by simpa using hv.site.nodup
  have htree : v.arena.tree t.root = t := hholds.tree_eq hnodup
  have hslot : ∀ x ∈ t.recs, (v.arena.node x).Slotted u.arena.pad := by
    intro x hx
    obtain ⟨w, hw, rfl⟩ := List.mem_map.mp hx
    have hop := (hholds.subtree hw).fits.op
    have hlisted : (v.arena.node w.root).Listed v.arena.pad :=
      (hv.listed w hw).congr (by rw [← hop]; rfl) (by rw [← hop]; rfl)
    exact hpad ▸ hlisted.slotted
  have hmem : ∀ x ∈ (c.tree t.root).recs, x ∈ t.recs := fun x hx => htree ▸ hl.within hx
  refine ⟨q, s, _, hpath, hchain, htab.eased hq, ?_, c, ps, m, hl, hscan, rfl, rfl, hkeys.trans ?_⟩
  · refine (htab.eased hq).slotted (hslot s (hmem s hs)) fun e he k hk => ?_
    obtain ⟨l, hl', rfl⟩ := List.mem_map.mp he
    obtain ⟨w, hw, hroot⟩ := List.mem_map.mp (hmem _ (helems l hl'))
    have hkids := (hholds.subtree hw).kids_eq (Tree.nodup_subtree hnodup hw)
    have hk' : k ∈ w.kids.map Tree.root := by
      rw [← hkids, hroot]
      exact List.mem_of_getElem? hk
    obtain ⟨j, hj, rfl⟩ := List.mem_map.mp hk'
    exact hslot _ (Tree.recs_subset hw (Tree.recs_subset (Tree.kid_mem_subtrees hj) j.root_mem_recs))
  · rw [hq.keys]

end SubUnit

namespace Program

open SubUnit

variable {p : Program}

/-- In every unit of a compiled listing the table of each fused op describes the element ops that it was made of. -/
theorem compile_tabled {name text : Bytes} {t : Tuning} (h : compile name text t = .ok p) :
    ∀ u ∈ p.units, ∃ v root, Assembles (Source.ofFile name text) t.withDefaults v ∧ SubUnit.finish v = .ok none u ∧
      u.root = some root ∧ ∀ r, u.arena.Under root r → (u.arena.node r).code = .multideref → v.Tabled u root r := by
  intro u hu
  obtain ⟨v, hv, hfin⟩ := compile_finishes h u hu
  obtain ⟨S, root, hthread, hroot, hwork⟩ := finish_threaded hv.assembled hfin
  obtain ⟨ps, -, ht⟩ := hthread.tended
  obtain ⟨w, hw, hasm⟩ := hv.assembled.tree
  obtain rfl : root = w.root := Option.some.inj (hroot.symm.trans hw)
  refine ⟨v, w.root, hv, hfin, hthread.root_eq, fun r hr hc => ?_⟩
  have hmem : r ∈ (u.arena.tree w.root).recs := by
    clear hc
    induction hr with
    | root => exact Arena.mem_tree_root _ _
    | kid _ hk ih => exact ht.kid_mem ih hk
  rcases hwork.tables r hmem with he | hf
  · obtain ⟨hplain, -⟩ := he hc
    have hr' := hwork.within hmem
    rw [(hasm.site.holds w (by simp)).tree_eq (by simpa using hasm.site.nodup)] at hr'
    obtain ⟨x, hx, rfl⟩ := List.mem_map.mp hr'
    have hop := ((hasm.site.holds w (by simp)).subtree hx).fits.op
    refine absurd ?_ (hasm.listed x hx).plain
    rw [← hop]
    exact hplain
  · exact tabled_of_fused hasm hwork.pad hf

/-- A chain of three levels with two literal keys, of five bytes together. -/
theorem compile_tabled_exists : ∃ p, compile (utf8 "t.pl")
      (utf8 "(sub main (my %h) (my $k \"a\") (return (exists (helem (helem (helem %h \"ab\") $k) \"cde\"))))") {} =
        .ok p ∧
    (p.units.any fun u => u.arena.recs.any fun n => n.code = .multideref ∧
      n.path.any fun q => q.items.length = 3 ∧ q.keys = utf8 "abcde") = true ∧
    ∀ u ∈ p.units, ∃ v root, Assembles (Source.ofFile (utf8 "t.pl") (utf8
        "(sub main (my %h) (my $k \"a\") (return (exists (helem (helem (helem %h \"ab\") $k) \"cde\"))))"))
        ({} : Tuning).withDefaults v ∧ SubUnit.finish v = .ok none u ∧
      u.root = some root ∧ ∀ r, u.arena.Under root r → (u.arena.node r).code = .multideref → v.Tabled u root r := by
  have hrun : (compile (utf8 "t.pl")
      (utf8 "(sub main (my %h) (my $k \"a\") (return (exists (helem (helem (helem %h \"ab\") $k) \"cde\"))))")
      {}).toOption.map (fun p => p.units.any fun u => u.arena.recs.any fun n => n.code = .multideref ∧
        n.path.any fun q => q.items.length = 3 ∧ q.keys = utf8 "abcde") = some true := by
    decide +kernel
  obtain ⟨p, hp, hfused⟩ := Option.map_eq_some_iff.mp hrun
  cases hc : compile (utf8 "t.pl")
      (utf8 "(sub main (my %h) (my $k \"a\") (return (exists (helem (helem (helem %h \"ab\") $k) \"cde\"))))") {} with
  | error why =>
    rw [hc] at hp
    cases hp
  | ok q =>
    rw [hc] at hp
    cases hp
    exact ⟨p, rfl, hfused, compile_tabled hc⟩

end Program

end OpTree
