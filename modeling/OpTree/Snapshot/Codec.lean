import OpTree.Snapshot.Package

/-!
# Snapshots as CBOR

Records are maps from field numbers to values. Fields that hold nothing are mostly left out, and a
field that is missing or null holds nothing; fields with unknown numbers are passed over.
-/

namespace OpTree

set_option autoImplicit false

namespace Cbor

/-- A map from field numbers. -/
def ofFields (fields : List (Nat × Cbor)) : Cbor := .map (fieldItems fields)

/-- A field unless it holds nothing. -/
def field (n : Nat) (holds : Bool) (c : Cbor) : List (Nat × Cbor) := if holds then [(n, c)] else []

def intField (n : Nat) (v : Int) : List (Nat × Cbor) := field n (v ≠ 0) (ofInt v)

def textField (n : Nat) (s : Bytes) : List (Nat × Cbor) := field n (!s.isEmpty) (text s)

namespace Package

variable {α : Type} (p : Package)

/-- Reads a value, which is empty if null. -/
def value? (empty : α) (read : Cbor → Option α) (c : Cbor) : Option α :=
  (p.content? c).bind fun c? => c?.elim (some empty) read

/-- Reads a field, which is empty if missing or null. -/
def get? (items : List Cbor) (n : Nat) (empty : α) (read : Cbor → Option α) : Option α :=
  (p.field? items n).bind fun c? => c?.elim (some empty) (p.value? empty read)

def list? (empty : α) (read : Cbor → Option α) : Cbor → Option (List α)
  | array cs => cs.mapM (p.value? empty read)
  | _ => none

end Package

def record? {α : Type} (read : List Cbor → Option α) : Cbor → Option α
  | map items => read items
  | _ => none

end Cbor

namespace SnapItem

open Cbor in
def toCbor (it : SnapItem) : Cbor :=
  ofFields ((1, .text it.act) :: intField 2 it.targ ++ textField 3 it.name ++
    intField 4 it.idxTarg ++ intField 5 it.index ++ textField 6 it.key)

def ofItems? (p : Cbor.Package) (cs : List Cbor) : Option SnapItem := do
  return {
    act := ← p.get? cs 1 [] p.text?
    targ := ← p.get? cs 2 0 p.int?
    name := ← p.get? cs 3 [] p.text?
    idxTarg := ← p.get? cs 4 0 p.int?
    index := ← p.get? cs 5 0 p.int?
    key := ← p.get? cs 6 [] p.text? }

end SnapItem

namespace SnapOp

open Cbor in
def toCbor (o : SnapOp) : Cbor :=
  ofFields ((1, ofInt o.id) :: (2, .text o.type) :: textField 3 o.ex ++
    intField 4 o.flags ++ intField 5 o.priv ++ intField 6 o.targ ++
    field 7 (!o.kids.isEmpty) (.array (o.kids.map ofInt)) ++
    intField 8 o.next ++ intField 9 o.other ++ textField 10 o.name ++ textField 11 o.label ++
    intField 12 o.line ++ field 13 (!o.val.isNone) o.val.toCbor ++
    field 14 (!o.path.isEmpty) (.array (o.path.map SnapItem.toCbor)))

open Cbor in
def ofItems? (p : Package) (cs : List Cbor) : Option SnapOp := do
  return {
    id := ← p.get? cs 1 0 p.int?
    type := ← p.get? cs 2 [] p.text?
    ex := ← p.get? cs 3 [] p.text?
    flags := ← p.get? cs 4 0 p.word?
    priv := ← p.get? cs 5 0 p.word?
    targ := ← p.get? cs 6 0 p.int?
    kids := ← p.get? cs 7 [] (p.list? 0 p.int?)
    next := ← p.get? cs 8 0 p.int?
    other := ← p.get? cs 9 0 p.int?
    name := ← p.get? cs 10 [] p.text?
    label := ← p.get? cs 11 [] p.text?
    line := ← p.get? cs 12 0 p.int?
    val := ← (p.field? cs 13).bind fun c? => c?.elim (some .none) p.any?
    path := ← p.get? cs 14 [] (p.list? {} (record? (SnapItem.ofItems? p))) }

end SnapOp

namespace Snapshot

open Cbor in
/-- A snapshot with no ops at all has none rather than an empty list of them. -/
def toCbor (s : Snapshot) : Cbor :=
  ofFields [(1, .text s.name), (2, ofInt s.root), (3, ofInt s.start),
    (4, if s.ops.isEmpty then .simple 22 else .array (s.ops.map SnapOp.toCbor))]

open Cbor in
def ofItems? (p : Package) (cs : List Cbor) : Option Snapshot := do
  return {
    name := ← p.get? cs 1 [] p.text?
    root := ← p.get? cs 2 0 p.int?
    start := ← p.get? cs 3 0 p.int?
    ops := ← p.get? cs 4 [] (p.list? {} (record? (SnapOp.ofItems? p))) }

def marshal (p : Cbor.Package) (s : Snapshot) : Bytes := p.encode s.toCbor

def unmarshal? (p : Cbor.Package) (b : Bytes) : Option Snapshot :=
  (p.decode? b).bind (p.value? {} (Cbor.record? (ofItems? p)))

/-- The bytes that the program writes. -/
def encode (s : Snapshot) : Bytes := s.marshal .standIn

def decode? (b : Bytes) : Option Snapshot := unmarshal? .standIn b

end Snapshot

end OpTree
