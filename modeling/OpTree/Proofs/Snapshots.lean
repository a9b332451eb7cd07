import OpTree.Snapshot.Codec
import OpTree.Proofs.StandIn
import Mathlib.Tactic.MkIffOfInductiveProp

/-!
# Snapshots are read back

A record leaves out most fields that hold nothing, and a missing field is read as nothing. So each field of a
snapshot is read back from its bytes, as long as no list is longer than the reader allows.
-/

namespace OpTree

set_option autoImplicit false

namespace Cbor

variable {α : Type} {p : Package} {empty v : α} {read : Cbor → Option α} {c : Cbor} {fs gs : List (Nat × Cbor)}
  {m n levels : Nat} {holds : Bool}

@[simp] theorem valueAt_nil : valueAt [] n = none := rfl

@[simp] theorem valueAt_cons : valueAt ((m, c) :: fs) n = if m = n then some c else valueAt fs n := by
  unfold valueAt
  by_cases h : m = n <;> simp [h]

@[simp] theorem valueAt_append : valueAt (fs ++ gs) n = (valueAt fs n).or (valueAt gs n) := by
  simp only [valueAt, List.find?_append, Option.map_or]

@[simp] theorem valueAt_field :
    valueAt (field m holds c) n = if m = n then (if holds then some c else none) else none := by
  cases holds <;> simp [field]

@[simp] theorem valueAt_intField {v : Int} :
    valueAt (intField m v) n = if m = n then (if v ≠ 0 then some (ofInt v) else none) else none := by
  simp [intField]

@[simp] theorem valueAt_textField {s : Bytes} :
    valueAt (textField m s) n = if m = n then (if s ≠ [] then some (text s) else none) else none := by
  simp [textField]

/-- An item that is read as a value by the reader of a field. -/
structure Reads (p : Package) (read : Cbor → Option α) (c : Cbor) (v : α) : Prop where
  content : p.content? c = some (some c)
  read : read c = some v

theorem get?_at (hp : p.Lawful) (hfs : (fs.map Prod.fst).Nodup) : p.get? (fieldItems fs) n empty read =
    (valueAt fs n).elim (some empty) (p.value? empty read) := by
  rw [Package.get?, hp.field fs n hfs, Option.bind_some]

theorem get?_some (hp : p.Lawful) (hfs : (fs.map Prod.fst).Nodup) (hat : valueAt fs n = some c)
    (hc : Reads p read c v) : p.get? (fieldItems fs) n empty read = some v := by
  rw [get?_at hp hfs, hat]
  simp [Package.value?, hc.content, hc.read]

theorem get?_if (hp : p.Lawful) (hfs : (fs.map Prod.fst).Nodup) {q : Prop} [Decidable q]
    (hat : valueAt fs n = if q then some c else none) (hc : Reads p read c v) (hempty : ¬ q → v = empty) :
    p.get? (fieldItems fs) n empty read = some v := by
  by_cases hq : q
  · exact get?_some hp hfs (by rw [hat, if_pos hq]) hc
  · rw [get?_at hp hfs, hat, if_neg hq, hempty hq]
    rfl

theorem get?_null (hp : p.Lawful) (hfs : (fs.map Prod.fst).Nodup) (hat : valueAt fs n = some (.simple 22)) :
    p.get? (fieldItems fs) n empty read = some empty := by
  rw [get?_at hp hfs, hat, Option.elim_some, Package.value?, hp.null]
  rfl

theorem reads_int (hp : p.Lawful) {v : Int} (h : IsInt64 v) : Reads p p.int? (ofInt v) v := by
  refine ⟨hp.content _ ?_ ?_, hp.int v h⟩
  · cases v <;> rfl
  · cases v <;> rfl

theorem reads_word (hp : p.Lawful) (h : n < 2 ^ 16) : Reads p p.word? (ofInt n) n :=
  ⟨hp.content _ rfl rfl, hp.word n h⟩

theorem reads_text (hp : p.Lawful) {s : Bytes} (h : IsText s) : Reads p p.text? (text s) s :=
  ⟨hp.content _ rfl rfl, hp.text s h⟩

theorem reads_list (hp : p.Lawful) {f : α → Cbor} {xs : List α} (h : ∀ x ∈ xs, Reads p read (f x) x) :
    Reads p (p.list? empty read) (.array (xs.map f)) xs := by
  refine ⟨hp.content _ rfl rfl, ?_⟩
  change (xs.map f).mapM _ = some xs
  induction xs with
  | nil => rfl
  | cons x xs ih =>
    have hx := h x (by simp)
    rw [List.map_cons, List.mapM_cons, ih fun y hy => h y (by simp [hy])]
    simp [Package.value?, hx.content, hx.read]

theorem reads_record (hp : p.Lawful) (fs : List (Nat × Cbor)) {read : List Cbor → Option α}
    (h : read (fieldItems fs) = some v) : Reads p (record? read) (ofFields fs) v :=
  ⟨hp.content _ rfl rfl, h⟩

theorem allPlain_iff {cs : List Cbor} : AllPlain cs ↔ ∀ c ∈ cs, c.IsPlain := by
  induction cs with
  | nil => simp [AllPlain]
  | cons c cs ih => simp [AllPlain, ih]

theorem allWithin_eq {l : Limits} {cs : List Cbor} : allWithin l levels cs = cs.all (within l levels) := by
  induction cs with
  | nil => rfl
  | cons c cs ih => simp [allWithin, ih]

theorem fieldItems_length : (fieldItems fs).length = 2 * fs.length := by
  induction fs with
  | nil => rfl
  | cons f fs ih =>
    rw [fieldItems] at ih ⊢
    simp only [List.flatMap_cons, List.length_append, ih, List.length_cons, List.length_nil]
    omega

theorem plain_ofFields (fs : List (Nat × Cbor)) (hlen : fs.length < 2 ^ 63)
    (h : ∀ f ∈ fs, f.1 < 2 ^ 63 ∧ f.2.IsPlain) : (ofFields fs).IsPlain := by
  refine ⟨by rw [fieldItems_length]; omega, by rw [fieldItems_length, Nat.pow_eq]; omega, allPlain_iff.mpr fun c hc => ?_⟩
  obtain ⟨f, hf, hc⟩ := List.mem_flatMap.mp hc
  obtain ⟨hnumber, hplain⟩ := h f hf
  simp only [List.mem_cons, List.not_mem_nil, or_false] at hc
  rcases hc with rfl | rfl
  · exact Nat.lt_trans hnumber (by decide)
  · exact hplain

theorem plain_ofFields_sublist (hsub : fs.Sublist gs) (hlen : gs.length < 2 ^ 63)
    (h : ∀ f ∈ gs, f.1 < 2 ^ 63 ∧ f.2.IsPlain) : (ofFields fs).IsPlain :=
  plain_ofFields fs (Nat.lt_of_le_of_lt hsub.length_le hlen) fun f hf => h f (hsub.subset hf)

theorem within_ofFields : within .usual (levels + 1) (ofFields fs) =
    (decide (fs.length ≤ Limits.usual.pairs) && fs.all fun f => within .usual levels f.2) := by
  have hall : (fieldItems fs).all (within .usual levels) = fs.all fun f => within .usual levels f.2 := by
    simp [fieldItems, List.all_flatMap, within]
  rw [ofFields, within, fieldItems_length, allWithin_eq, Nat.add_sub_cancel, hall]
  simp

theorem within_array_eq {cs : List Cbor} : within .usual (levels + 1) (.array cs) =
    (decide (cs.length ≤ Limits.usual.elements) && cs.all (within .usual levels)) := by
  simp [within, allWithin_eq]

/-- A list is within the limits if it is short enough; an empty one need not be there. -/
theorem within_list {f : α → Cbor} {xs : List α} (h : ∀ x, within .usual levels (f x) = true) :
    (xs.isEmpty || within .usual (levels + 1) (.array (xs.map f))) = decide (xs.length ≤ Limits.usual.elements) := by
  cases xs with
  | nil => rfl
  | cons x xs => simp [within_array_eq, h]

@[simp] theorem within_ofInt {v : Int} : within .usual levels (ofInt v) = true := by
  cases v <;> rfl

@[simp] theorem within_text {s : Bytes} : within .usual levels (.text s) = true := rfl

@[simp] theorem all_field {p : Nat × Cbor → Bool} : (field n holds c).all p = (!holds || p (n, c)) := by
  cases holds <;> simp [field]

@[simp] theorem all_intField {p : Nat × Cbor → Bool} {v : Int} :
    (intField n v).all p = (decide (v = 0) || p (n, ofInt v)) := by
  simp [intField]

@[simp] theorem all_textField {p : Nat × Cbor → Bool} {s : Bytes} :
    (textField n s).all p = (s.isEmpty || p (n, .text s)) := by
  simp [textField]

theorem field_sublist : (field n holds c).Sublist [(n, c)] := by
  cases holds <;> simp [field]

theorem plain_ofInt {v : Int} (h : IsInt64 v) : (ofInt v).IsPlain := by
  obtain ⟨hlow, hhigh⟩ := h
  cases v with
  | ofNat n =>
    have hn : n < 2 ^ 63 := Int.ofNat_lt.mp hhigh
    exact Nat.lt_trans hn (by decide)
  | negSucc n =>
    show n < 2 ^ 64
    omega

theorem plain_text {s : Bytes} (h : IsText s) : (text s).IsPlain := Nat.lt_trans h.short (by decide)

theorem plain_array {f : α → Cbor} {xs : List α} (hlen : xs.length < 2 ^ 63) (h : ∀ x ∈ xs, (f x).IsPlain) :
    (Cbor.array (xs.map f)).IsPlain := by
  refine ⟨by rw [List.length_map, Nat.pow_eq]; omega, allPlain_iff.mpr fun c hc => ?_⟩
  obtain ⟨x, hx, rfl⟩ := List.mem_map.mp hc
  exact h x hx

end Cbor

namespace SnapValue

variable {v : SnapValue}

theorem plain_toCbor (h : v.IsSound) : v.toCbor.IsPlain := by
  cases v with
  | none => exact Or.inl (by decide)
  | bool b => cases b <;> exact Or.inl (by decide)
  | int v => exact Cbor.plain_ofInt h
  | float bits => exact h
  | str s => exact Cbor.plain_text h

theorem within_toCbor {levels : Nat} : Cbor.within .usual levels v.toCbor = true := by
  cases v with
  | int v => exact Cbor.within_ofInt
  | _ => rfl

end SnapValue

namespace SnapItem

@[mk_iff]
structure IsSound (it : SnapItem) : Prop where
  act : IsText it.act
  targ : IsInt64 it.targ
  name : IsText it.name
  idxTarg : IsInt64 it.idxTarg
  index : IsInt64 it.index
  key : IsText it.key

instance (it : SnapItem) : Decidable it.IsSound := decidable_of_iff' _ (isSound_iff it)

variable {it : SnapItem}

open Cbor in
def fields (it : SnapItem) : List (Nat × Cbor) :=
  (1, .text it.act) :: intField 2 it.targ ++ textField 3 it.name ++
    intField 4 it.idxTarg ++ intField 5 it.index ++ textField 6 it.key

open Cbor in
def allFields (it : SnapItem) : List (Nat × Cbor) :=
  [(1, .text it.act), (2, ofInt it.targ), (3, .text it.name), (4, ofInt it.idxTarg), (5, ofInt it.index),
    (6, .text it.key)]

theorem fields_sublist : it.fields.Sublist it.allFields :=
  ((((Cbor.field_sublist.cons_cons _).append Cbor.field_sublist).append Cbor.field_sublist).append
    Cbor.field_sublist).append Cbor.field_sublist

theorem plain_toCbor (h : it.IsSound) : it.toCbor.IsPlain := by
  refine Cbor.plain_ofFields_sublist fields_sublist (by simp [allFields]) ?_
  simp only [allFields, List.forall_mem_cons, List.not_mem_nil, false_imp_iff, implies_true, and_true]
  exact ⟨⟨by decide, Cbor.plain_text h.act⟩, ⟨by decide, Cbor.plain_ofInt h.targ⟩,
    ⟨by decide, Cbor.plain_text h.name⟩, ⟨by decide, Cbor.plain_ofInt h.idxTarg⟩,
    ⟨by decide, Cbor.plain_ofInt h.index⟩, ⟨by decide, Cbor.plain_text h.key⟩⟩

theorem within_toCbor {levels : Nat} : Cbor.within .usual (levels + 1) it.toCbor = true := by
  have hlen : it.fields.length ≤ 6 := fields_sublist.length_le
  have hall : ∀ f ∈ it.allFields, Cbor.within .usual levels f.2 = true := by simp [allFields]
  change Cbor.within .usual (levels + 1) (Cbor.ofFields it.fields) = true
  rw [Cbor.within_ofFields, decide_eq_true (Nat.le_trans hlen (by decide))]
  exact List.all_eq_true.mpr fun f hf => hall f (fields_sublist.subset hf)

open Cbor in
theorem reads_toCbor {p : Package} (hp : p.Lawful) (h : it.IsSound) : Reads p (record? (ofItems? p)) it.toCbor it := by
  have hfs : (it.fields.map Prod.fst).Nodup := (fields_sublist.map Prod.fst).nodup (by simp [allFields])
  have act : p.get? (fieldItems it.fields) 1 [] p.text? = some it.act :=
    get?_some hp hfs (by simp [fields]) (reads_text hp h.act)
  have targ : p.get? (fieldItems it.fields) 2 0 p.int? = some it.targ :=
    get?_if hp hfs (by simp [fields]) (reads_int hp h.targ) Decidable.not_not.mp
  have name : p.get? (fieldItems it.fields) 3 [] p.text? = some it.name :=
    get?_if hp hfs (by simp [fields]) (reads_text hp h.name) Decidable.not_not.mp
  have idxTarg : p.get? (fieldItems it.fields) 4 0 p.int? = some it.idxTarg :=
    get?_if hp hfs (by simp [fields]) (reads_int hp h.idxTarg) Decidable.not_not.mp
  have index : p.get? (fieldItems it.fields) 5 0 p.int? = some it.index :=
    get?_if hp hfs (by simp [fields]) (reads_int hp h.index) Decidable.not_not.mp
  have key : p.get? (fieldItems it.fields) 6 [] p.text? = some it.key :=
    get?_if hp hfs (by simp [fields]) (reads_text hp h.key) Decidable.not_not.mp
  refine reads_record hp it.fields ?_
  simp only [ofItems?, act, targ, name, idxTarg, index, key, Option.bind_eq_bind, Option.bind_some]
  rfl

end SnapItem

namespace SnapOp

@[mk_iff]
structure IsSound (o : SnapOp) : Prop where
  id : IsInt64 o.id
  type : IsText o.type
  ex : IsText o.ex
  flags : o.flags < 2 ^ 16
  priv : o.priv < 2 ^ 16
  targ : IsInt64 o.targ
  kidCount : o.kids.length < 2 ^ 63
  kids : ∀ k ∈ o.kids, IsInt64 k
  next : IsInt64 o.next
  other : IsInt64 o.other
  name : IsText o.name
  label : IsText o.label
  line : IsInt64 o.line
  val : o.val.IsSound
  pathLength : o.path.length < 2 ^ 63
  path : ∀ it ∈ o.path, it.IsSound

instance (o : SnapOp) : Decidable o.IsSound := decidable_of_iff' _ (isSound_iff o)

variable {o : SnapOp}

open Cbor in
def fields (o : SnapOp) : List (Nat × Cbor) :=
  (1, ofInt o.id) :: (2, .text o.type) :: textField 3 o.ex ++
    intField 4 o.flags ++ intField 5 o.priv ++ intField 6 o.targ ++
    field 7 (!o.kids.isEmpty) (.array (o.kids.map ofInt)) ++
    intField 8 o.next ++ intField 9 o.other ++ textField 10 o.name ++ textField 11 o.label ++
    intField 12 o.line ++ field 13 (!o.val.isNone) o.val.toCbor ++
    field 14 (!o.path.isEmpty) (.array (o.path.map SnapItem.toCbor))

open Cbor in
def allFields (o : SnapOp) : List (Nat × Cbor) :=
  [(1, ofInt o.id), (2, .text o.type), (3, .text o.ex), (4, ofInt o.flags), (5, ofInt o.priv), (6, ofInt o.targ),
    (7, .array (o.kids.map ofInt)), (8, ofInt o.next), (9, ofInt o.other), (10, .text o.name), (11, .text o.label),
    (12, ofInt o.line), (13, o.val.toCbor), (14, .array (o.path.map SnapItem.toCbor))]

/-- Are the lists of an op no longer than the package reads. -/
def isSmall (o : SnapOp) : Bool :=
  o.kids.length ≤ Cbor.Limits.usual.elements && o.path.length ≤ Cbor.Limits.usual.elements

open Cbor in
theorem fields_sublist : o.fields.Sublist o.allFields :=
  ((((((((((((((field_sublist).cons_cons _).cons_cons _).append field_sublist).append field_sublist).append
    field_sublist).append field_sublist).append field_sublist).append field_sublist).append field_sublist).append
    field_sublist).append field_sublist).append field_sublist).append field_sublist)

open Cbor in
theorem plain_toCbor (h : o.IsSound) : o.toCbor.IsPlain := by
  have word : ∀ n : Nat, n < 2 ^ 16 → IsInt64 n := fun n hn => by unfold IsInt64; omega
  refine plain_ofFields_sublist fields_sublist (by simp [allFields]) ?_
  simp only [allFields, List.forall_mem_cons, List.not_mem_nil, false_imp_iff, implies_true, and_true]
  exact ⟨⟨by decide, plain_ofInt h.id⟩, ⟨by decide, plain_text h.type⟩, ⟨by decide, plain_text h.ex⟩,
    ⟨by decide, plain_ofInt (word _ h.flags)⟩, ⟨by decide, plain_ofInt (word _ h.priv)⟩,
    ⟨by decide, plain_ofInt h.targ⟩, ⟨by decide, plain_array h.kidCount fun k hk => plain_ofInt (h.kids k hk)⟩,
    ⟨by decide, plain_ofInt h.next⟩, ⟨by decide, plain_ofInt h.other⟩, ⟨by decide, plain_text h.name⟩,
    ⟨by decide, plain_text h.label⟩, ⟨by decide, plain_ofInt h.line⟩, ⟨by decide, SnapValue.plain_toCbor h.val⟩,
    ⟨by decide, plain_array h.pathLength fun it hit => SnapItem.plain_toCbor (h.path it hit)⟩⟩

open Cbor in
theorem within_toCbor {levels : Nat} : within .usual (levels + 3) o.toCbor = o.isSmall := by
  have hlen : o.fields.length ≤ 14 := fields_sublist.length_le
  have kids : (o.kids.isEmpty || within .usual (levels + 2) (.array (o.kids.map ofInt))) =
      decide (o.kids.length ≤ Limits.usual.elements) :=
    within_list fun _ => within_ofInt
  have path : (o.path.isEmpty || within .usual (levels + 2) (.array (o.path.map SnapItem.toCbor))) =
      decide (o.path.length ≤ Limits.usual.elements) :=
    within_list fun _ => SnapItem.within_toCbor
  change within .usual (levels + 3) (ofFields o.fields) = _
  rw [within_ofFields, decide_eq_true (Nat.le_trans hlen (by decide))]
  simp only [fields, List.all_append, List.all_cons, all_field, all_intField, all_textField, within_ofInt,
    within_text, SnapValue.within_toCbor, Bool.or_true, Bool.and_true, Bool.true_and, Bool.not_not, kids, path,
    isSmall]

theorem any?_at {p : Cbor.Package} (hp : p.Lawful) (h : o.val.IsSound) :
    ((if o.val.isNone = false then some o.val.toCbor else none).elim (some .none) p.any?) = some o.val := by
  cases hval : o.val.isNone with
  | false =>
    rw [if_pos rfl]
    exact hp.any _ h
  | true =>
    have hnone : o.val = .none := by
      revert hval
      cases o.val <;> simp [SnapValue.isNone]
    rw [hnone]
    rfl

open Cbor in
theorem reads_toCbor {p : Package} (hp : p.Lawful) (h : o.IsSound) : Reads p (record? (ofItems? p)) o.toCbor o := by
  have hfs : (o.fields.map Prod.fst).Nodup := (fields_sublist.map Prod.fst).nodup (by simp [allFields])
  have id : p.get? (fieldItems o.fields) 1 0 p.int? = some o.id :=
    get?_some hp hfs (by simp [fields]) (reads_int hp h.id)
  have type : p.get? (fieldItems o.fields) 2 [] p.text? = some o.type :=
    get?_some hp hfs (by simp [fields]) (reads_text hp h.type)
  have ex : p.get? (fieldItems o.fields) 3 [] p.text? = some o.ex :=
    get?_if hp hfs (by simp [fields]) (reads_text hp h.ex) Decidable.not_not.mp
  have flags : p.get? (fieldItems o.fields) 4 0 p.word? = some o.flags :=
    get?_if hp hfs (by simp [fields]) (reads_word hp h.flags) Decidable.not_not.mp
  have priv : p.get? (fieldItems o.fields) 5 0 p.word? = some o.priv :=
    get?_if hp hfs (by simp [fields]) (reads_word hp h.priv) Decidable.not_not.mp
  have targ : p.get? (fieldItems o.fields) 6 0 p.int? = some o.targ :=
    get?_if hp hfs (by simp [fields]) (reads_int hp h.targ) Decidable.not_not.mp
  have kids : p.get? (fieldItems o.fields) 7 [] (p.list? 0 p.int?) = some o.kids :=
    get?_if hp hfs (by simp [fields]) (reads_list hp fun k hk => reads_int hp (h.kids k hk)) Decidable.not_not.mp
  have next : p.get? (fieldItems o.fields) 8 0 p.int? = some o.next :=
    get?_if hp hfs (by simp [fields]) (reads_int hp h.next) Decidable.not_not.mp
  have other : p.get? (fieldItems o.fields) 9 0 p.int? = some o.other :=
    get?_if hp hfs (by simp [fields]) (reads_int hp h.other) Decidable.not_not.mp
  have name : p.get? (fieldItems o.fields) 10 [] p.text? = some o.name :=
    get?_if hp hfs (by simp [fields]) (reads_text hp h.name) Decidable.not_not.mp
  have label : p.get? (fieldItems o.fields) 11 [] p.text? = some o.label :=
    get?_if hp hfs (by simp [fields]) (reads_text hp h.label) Decidable.not_not.mp
  have line : p.get? (fieldItems o.fields) 12 0 p.int? = some o.line :=
    get?_if hp hfs (by simp [fields]) (reads_int hp h.line) Decidable.not_not.mp
  have val : (p.field? (fieldItems o.fields) 13).bind (fun c? => c?.elim (some .none) p.any?) = some o.val := by
    have hat : valueAt o.fields 13 = if o.val.isNone = false then some o.val.toCbor else none := by simp [fields]
    rw [hp.field _ _ hfs, Option.bind_some, hat]
    exact any?_at hp h.val
  have path : p.get? (fieldItems o.fields) 14 [] (p.list? {} (record? (SnapItem.ofItems? p))) = some o.path :=
    get?_if hp hfs (by simp [fields]) (reads_list hp fun it hit => SnapItem.reads_toCbor hp (h.path it hit))
      Decidable.not_not.mp
  refine reads_record hp o.fields ?_
  simp only [ofItems?, id, type, ex, flags, priv, targ, kids, next, other, name, label, line, val, path,
    Option.bind_eq_bind, Option.bind_some]
  rfl

end SnapOp

namespace Snapshot

@[mk_iff]
structure IsSound (s : Snapshot) : Prop where
  name : IsText s.name
  root : IsInt64 s.root
  start : IsInt64 s.start
  opCount : s.ops.length < 2 ^ 63
  ops : ∀ o ∈ s.ops, o.IsSound

/-- Are all lists of a snapshot no longer than the package reads. -/
def isSmall (s : Snapshot) : Bool := s.ops.length ≤ Cbor.Limits.usual.elements && s.ops.all SnapOp.isSmall

instance (s : Snapshot) : Decidable s.IsSound := decidable_of_iff' _ (isSound_iff s)

variable {s : Snapshot}

open Cbor in
def fields (s : Snapshot) : List (Nat × Cbor) :=
  [(1, .text s.name), (2, ofInt s.root), (3, ofInt s.start),
    (4, if s.ops.isEmpty then .simple 22 else .array (s.ops.map SnapOp.toCbor))]

open Cbor in
theorem plain_toCbor (h : s.IsSound) : s.toCbor.IsPlain := by
  refine plain_ofFields s.fields (by simp [fields]) ?_
  simp only [fields, List.forall_mem_cons, List.not_mem_nil, false_imp_iff, implies_true, and_true]
  refine ⟨⟨by decide, plain_text h.name⟩, ⟨by decide, plain_ofInt h.root⟩, ⟨by decide, plain_ofInt h.start⟩,
    by decide, ?_⟩
  split
  · exact Or.inl (by decide)
  · exact plain_array h.opCount fun o ho => SnapOp.plain_toCbor (h.ops o ho)

open Cbor in
theorem within_toCbor : within .usual Limits.usual.levels s.toCbor = s.isSmall := by
  have small : (fun o => within .usual 30 (SnapOp.toCbor o)) = SnapOp.isSmall :=
    funext fun o => SnapOp.within_toCbor
  have ops : within .usual 31 (if s.ops.isEmpty then .simple 22 else .array (s.ops.map SnapOp.toCbor)) =
      s.isSmall := by
    cases hops : s.ops with
    | nil => simp [isSmall, hops, within]
    | cons o os =>
      rw [List.isEmpty_cons, if_neg Bool.false_ne_true, within_array_eq, List.length_map, List.all_map, ← hops, isSmall]
      exact congrArg _ (congrArg _ small)
  have hlen : s.fields.length ≤ Limits.usual.pairs := by simp [fields, Limits.usual]
  change within .usual (31 + 1) (ofFields s.fields) = _
  rw [within_ofFields, decide_eq_true hlen]
  simp only [fields, List.all_cons, List.all_nil, within_text, within_ofInt, ops, Bool.true_and, Bool.and_true]

section Package

open Cbor

variable {p : Package}

theorem reads_toCbor (hp : p.Lawful) (h : s.IsSound) : Reads p (record? (ofItems? p)) s.toCbor s := by
  have hfs : (s.fields.map Prod.fst).Nodup := by simp [fields]
  have name : p.get? (fieldItems s.fields) 1 [] p.text? = some s.name :=
    get?_some hp hfs (by simp [fields]) (reads_text hp h.name)
  have root : p.get? (fieldItems s.fields) 2 0 p.int? = some s.root :=
    get?_some hp hfs (by simp [fields]) (reads_int hp h.root)
  have start : p.get? (fieldItems s.fields) 3 0 p.int? = some s.start :=
    get?_some hp hfs (by simp [fields]) (reads_int hp h.start)
  have ops : p.get? (fieldItems s.fields) 4 [] (p.list? {} (record? (SnapOp.ofItems? p))) = some s.ops := by
    cases hops : s.ops with
    | nil => exact get?_null hp hfs (by simp [fields, hops])
    | cons o os =>
      rw [← hops]
      exact get?_some hp hfs (by simp [fields, hops]) (reads_list hp fun o ho => SnapOp.reads_toCbor hp (h.ops o ho))
  refine reads_record hp s.fields ?_
  simp only [ofItems?, name, root, start, ops, Option.bind_eq_bind, Option.bind_some]
  rfl

theorem spells_marshal (hp : p.Lawful) (h : s.IsSound) : Spells [s.toCbor] (s.marshal p) := by
  rw [marshal, hp.canonical _ (plain_toCbor h)]
  exact spells_encode (plain_toCbor h)

/-- A snapshot is read back from its bytes if and only if no list of it is too long. -/
theorem unmarshal?_marshal (hp : p.Lawful) (h : s.IsSound) :
    unmarshal? p (s.marshal p) = if s.isSmall then some s else none := by
  have hspells := spells_marshal hp h
  split
  · rename_i hsmall
    have hdecode : p.decode? (s.marshal p) = some s.toCbor :=
      (hp.decode _ _).mpr ⟨hspells, by rw [within_toCbor, hsmall]⟩
    have hread := reads_toCbor hp h
    rw [unmarshal?, hdecode]
    simp [Package.value?, hread.content, hread.read]
  · rename_i hlong
    rw [unmarshal?, Option.bind_eq_none_iff]
    intro c hc
    -- whatever is read is spelled by the same bytes, so it is the same item
    obtain ⟨hc, hwithin⟩ := (hp.decode _ _).mp hc
    rw [← List.append_nil (s.marshal p)] at hc
    obtain ⟨rfl, -⟩ := hspells.eq_of_append hc
    rw [within_toCbor] at hwithin
    exact absurd hwithin hlong

theorem unmarshal?_cut (hp : p.Lawful) (h : s.IsSound) {b t : Bytes} (hb : b ++ t = s.marshal p) (ht : t ≠ []) :
    unmarshal? p b = none := by
  rw [unmarshal?, Option.bind_eq_none_iff]
  intro c hc
  have hspells := spells_marshal hp h
  rw [← hb] at hspells
  exact absurd (((hp.decode _ _).mp hc).1.eq_of_append hspells).2 ht

theorem unmarshal?_trailing (hp : p.Lawful) (h : s.IsSound) {t : Bytes} (ht : t ≠ []) :
    unmarshal? p (s.marshal p ++ t) = none := by
  rw [unmarshal?, Option.bind_eq_none_iff]
  intro c hc
  exact absurd ((spells_marshal hp h).eq_of_append ((hp.decode _ _).mp hc).1).2 ht

/-- A snapshot whose lists are not too long is read back from its bytes. No part of the bytes of a snapshot is
read as a whole one, nor are they read with anything behind them. -/
theorem unmarshal?_marshal_whole (hp : p.Lawful) (h : s.IsSound) :
    (s.isSmall = true → unmarshal? p (s.marshal p) = some s) ∧
      (∀ b t, b ++ t = s.marshal p → t ≠ [] → unmarshal? p b = none) ∧
      ∀ t, t ≠ [] → unmarshal? p (s.marshal p ++ t) = none := by
  refine ⟨fun hsmall => ?_, fun b t hb ht => unmarshal?_cut hp h hb ht, fun t ht => unmarshal?_trailing hp h ht⟩
  rw [unmarshal?_marshal hp h, if_pos hsmall]

/-- A return of an element of an array, by a path with one level. -/
theorem unmarshal?_marshal_element : ∃ s : Snapshot,
    s = { name := utf8 "main", root := 3, start := 1, ops := [
      { id := 3, type := utf8 "return", flags := 5, kids := [1, 2], line := 1, val := .bool false },
      { id := 1, type := utf8 "multideref", priv := 32768, next := 2, val := .int 0,
        path := [{ act := utf8 "pav_aelem", targ := 1, name := utf8 "é", index := -1 }] },
      { id := 2, type := utf8 "const", next := 3, val := .float 0x3ff8000000000000 }] } ∧
    Package.standIn.Lawful ∧ s.IsSound ∧ unmarshal? .standIn (s.marshal .standIn) = some s ∧
      (∀ b t, b ++ t = s.marshal .standIn → t ≠ [] → unmarshal? .standIn b = none) ∧
      ∀ t, t ≠ [] → unmarshal? .standIn (s.marshal .standIn ++ t) = none := by
  have hsound : IsSound { name := utf8 "main", root := 3, start := 1, ops := [
      { id := 3, type := utf8 "return", flags := 5, kids := [1, 2], line := 1, val := .bool false },
      { id := 1, type := utf8 "multideref", priv := 32768, next := 2, val := .int 0,
        path := [{ act := utf8 "pav_aelem", targ := 1, name := utf8 "é", index := -1 }] },
      { id := 2, type := utf8 "const", next := 3, val := .float 0x3ff8000000000000 }] } := by decide +kernel
  obtain ⟨hread, hrest⟩ := unmarshal?_marshal_whole Package.standIn_lawful hsound
  exact ⟨_, rfl, Package.standIn_lawful, hsound, hread (by decide +kernel), hrest⟩

/-- An op with more kids than the package reads is written, but not read back, whatever package does what is
documented. -/
theorem not_unmarshal?_marshal_long : ∃ s : Snapshot, s = { ops := [{ id := 1, kids := List.replicate 131073 0 }] } ∧
    s.IsSound ∧ s.ops ≠ [] ∧ Package.standIn.Lawful ∧ ∀ p : Package, p.Lawful → unmarshal? p (s.marshal p) ≠ some s := by
  have hlong : ∀ n, Limits.usual.elements < n →
      isSmall { ops := [{ id := 1, kids := List.replicate n 0 }] } = false := by
    intro n hn
    simp [isSmall, SnapOp.isSmall, Nat.not_le.mpr hn]
  have hsound : ∀ n, n < 2 ^ 63 → IsSound { ops := [{ id := 1, kids := List.replicate n 0 }] } := by
    intro n hn
    have hop : SnapOp.IsSound { id := 1 } := by decide +kernel
    have hempty : IsSound {} := by decide +kernel
    have hzero : ∀ k ∈ List.replicate n (0 : Int), IsInt64 k := fun k hk => by
      obtain rfl := List.eq_of_mem_replicate hk
      decide
    refine { hempty with opCount := Nat.one_lt_two_pow (by decide), ops := List.forall_mem_singleton.mpr ?_ }
    exact { hop with kidCount := by simpa using hn, kids := hzero }
  refine ⟨_, rfl, hsound _ (by decide), List.cons_ne_nil _ _, Package.standIn_lawful, fun p hp => ?_⟩
  rw [unmarshal?_marshal hp (hsound _ (by decide)), hlong _ (by decide), if_neg Bool.false_ne_true]
  intro h
  cases h

end Package

end Snapshot

end OpTree
