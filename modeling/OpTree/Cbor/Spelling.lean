import OpTree.Cbor

/-!
# Well-formed CBOR

Which bytes stand for which items. An item can be spelled in many ways: a head may be wider than it has to be, a
double may be written in any format that holds it, and the length of a string or a collection may be left open.
-/

namespace OpTree

set_option autoImplicit false

namespace Cbor

/-- A head of a kind with an argument, in one of the widths that hold the argument. -/
inductive Leads (major n : Nat) : Bytes → Prop where
  | short (h : n < 24) : Leads major n [lead major n]
  | wide {k : Nat} (hk : k < 4) (h : n < Nat.pow 256 (Nat.pow 2 k)) :
      Leads major n (lead major (24 + k) :: bigEndian (Nat.pow 2 k) n)

/-- The pieces of a string of open length, each with a head of its own. -/
inductive Chunks (major : Nat) : List Bytes → Bytes → Prop where
  | nil : Chunks major [] []
  | cons {s b t : Bytes} {ss : List Bytes} (h : Leads major s.length b) (hs : Chunks major ss t) :
      Chunks major (s :: ss) (b ++ s ++ t)

/-- Items that hold no others. -/
inductive Atom : Cbor → Bytes → Prop where
  | nat {n : Nat} {b : Bytes} (h : Leads 0 n b) : Atom (.nat n) b
  | neg {n : Nat} {b : Bytes} (h : Leads 1 n b) : Atom (.neg n) b
  | bytes {s b : Bytes} (h : Leads 2 s.length b) : Atom (.bytes s) (b ++ s)
  | openBytes {ss : List Bytes} {t : Bytes} (h : Chunks 2 ss t) :
      Atom (.bytes ss.flatten) (lead 2 31 :: (t ++ [breakByte]))
  | text {s b : Bytes} (h : Leads 3 s.length b) : Atom (.text s) (b ++ s)
  | openText {ss : List Bytes} {t : Bytes} (h : Chunks 3 ss t) :
      Atom (.pieces ss) (lead 3 31 :: (t ++ [breakByte]))
  | simple {n : Nat} (h : n < 24) : Atom (.simple n) [lead 7 n]
  | wideSimple {n : Nat} (h : 32 ≤ n) (h' : n < 256) : Atom (.simple n) (lead 7 24 :: bigEndian 1 n)
  | half {n : Nat} (h : n < Nat.pow 2 16) : Atom (.float (FloatFormat.half.widen n)) (lead 7 25 :: bigEndian 2 n)
  | single {n : Nat} (h : n < Nat.pow 2 32) : Atom (.float (FloatFormat.single.widen n)) (lead 7 26 :: bigEndian 4 n)
  | double {n : Nat} (h : n < Nat.pow 2 64) : Atom (.float n.toUInt64) (lead 7 27 :: bigEndian 8 n)

/-- A row of items and the bytes of them all. -/
inductive Spells : List Cbor → Bytes → Prop where
  | nil : Spells [] []
  | atom {c : Cbor} {cs : List Cbor} {b t : Bytes} (h : Atom c b) (hs : Spells cs t) : Spells (c :: cs) (b ++ t)
  | array {ds cs : List Cbor} {b s t : Bytes} (h : Leads 4 ds.length b) (hd : Spells ds s) (hs : Spells cs t) :
      Spells (.array ds :: cs) (b ++ s ++ t)
  | openArray {ds cs : List Cbor} {s t : Bytes} (hd : Spells ds s) (hs : Spells cs t) :
      Spells (.array ds :: cs) (lead 4 31 :: (s ++ [breakByte]) ++ t)
  | map {ds cs : List Cbor} {n : Nat} {b s t : Bytes} (h : Leads 5 n b) (hn : ds.length = 2 * n) (hd : Spells ds s)
      (hs : Spells cs t) : Spells (.map ds :: cs) (b ++ s ++ t)
  | openMap {ds cs : List Cbor} {n : Nat} {s t : Bytes} (hn : ds.length = 2 * n) (hd : Spells ds s)
      (hs : Spells cs t) : Spells (.map ds :: cs) (lead 5 31 :: (s ++ [breakByte]) ++ t)
  | tag {n : Nat} {c : Cbor} {cs : List Cbor} {b s t : Bytes} (h : Leads 6 n b) (hc : Spells [c] s)
      (hs : Spells cs t) : Spells (.tag n c :: cs) (b ++ s ++ t)

mutual

/-- Is an item of a kind that records are made of, with lengths that a head can tell. -/
def IsPlain : Cbor → Prop
  | nat n | neg n => n < Nat.pow 2 64
  | bytes b | text b => b.length < Nat.pow 2 64
  | array cs => cs.length < Nat.pow 2 64 ∧ AllPlain cs
  | map cs => cs.length % 2 = 0 ∧ cs.length / 2 < Nat.pow 2 64 ∧ AllPlain cs
  | simple n => n < 24 ∨ 32 ≤ n ∧ n < 256
  | float bits => Binary64.ofBits bits ≠ .nan
  | pieces _ | tag .. => False

def AllPlain : List Cbor → Prop
  | [] => True
  | c :: cs => IsPlain c ∧ AllPlain cs

end

/-- The limits of a reader: entries of an array, pairs of a map, and levels of nesting. -/
structure Limits where
  elements : Nat
  pairs : Nat
  levels : Nat
  deriving Repr, DecidableEq

/-- The limits that hold unless others are set. -/
def Limits.usual : Limits := ⟨131072, 131072, 32⟩

def isTag : Cbor → Bool
  | tag .. => true
  | _ => false

mutual

/-- Is an item within the limits, with some levels left. A tag inside of a tag counts as a level. -/
def within (l : Limits) (levels : Nat) : Cbor → Bool
  | array cs => 0 < levels && cs.length ≤ l.elements && allWithin l (levels - 1) cs
  | map cs => 0 < levels && cs.length / 2 ≤ l.pairs && allWithin l (levels - 1) cs
  | tag _ c => if c.isTag then 0 < levels && within l (levels - 1) c else within l levels c
  | _ => true

def allWithin (l : Limits) (levels : Nat) : List Cbor → Bool
  | [] => true
  | c :: cs => within l levels c && allWithin l levels cs

end

end Cbor

end OpTree
