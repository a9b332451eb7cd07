import OpTree.Cbor.Spelling

/-!
# Reading CBOR

One well-formed item is read off the front of a text, within the limits of the reader. Lengths may be
left open, so that a break byte ends the item.
-/

namespace OpTree

set_option autoImplicit false

namespace Cbor

def ofBigEndian (b : Bytes) : Nat := b.foldl (fun n x => n * 256 + x.toNat) 0

def split? (n : Nat) (s : Bytes) : Option (Bytes × Bytes) :=
  if n ≤ s.length then some (s.take n, s.drop n) else none

structure Head where
  major : Nat
  info : Nat
  arg : Nat
  deriving Repr, DecidableEq

namespace Head

def isOpen (h : Head) : Bool := h.info == 31

end Head

def readHead : Bytes → Option (Head × Bytes)
  | [] => none
  | b :: s =>
    let major := b.toNat / 32
    let info := b.toNat % 32
    if info < 24 then some (⟨major, info, info⟩, s)
    else if info < 28 then do
      let (a, s) ← split? (Nat.pow 2 (info - 24)) s
      return (⟨major, info, ofBigEndian a⟩, s)
    else if info < 31 then none
    else some (⟨major, info, 0⟩, s)

/-- The pieces of a string of open length, each with a known length. -/
def chunks? (major : Nat) : Nat → Bytes → Option (List Bytes × Bytes)
  | 0, _ => none
  | fuel + 1, s =>
    if s.head? == some breakByte then some ([], s.tail)
    else do
      let (h, s) ← readHead s
      if h.major ≠ major || h.isOpen then none
      else
        let (a, s) ← split? h.arg s
        let (b, s) ← chunks? major fuel s
        return (a :: b, s)

def bytes? (h : Head) (s : Bytes) : Option (Cbor × Bytes) :=
  if h.isOpen then (chunks? h.major (s.length + 1) s).map fun (ps, s) => (.bytes ps.flatten, s)
  else (split? h.arg s).map fun (b, s) => (.bytes b, s)

def text? (h : Head) (s : Bytes) : Option (Cbor × Bytes) :=
  if h.isOpen then (chunks? h.major (s.length + 1) s).map fun (ps, s) => (.pieces ps, s)
  else (split? h.arg s).map fun (b, s) => (.text b, s)

def many? (one : Bytes → Option (Cbor × Bytes)) : Nat → Bytes → Option (List Cbor × Bytes)
  | 0, s => some ([], s)
  | count + 1, s => do
    let (c, s) ← one s
    let (cs, s) ← many? one count s
    return (c :: cs, s)

/-- Items up to a break byte. -/
def untilBreak? (one : Bytes → Option (Cbor × Bytes)) : Nat → Bytes → Option (List Cbor × Bytes)
  | 0, _ => none
  | fuel + 1, s =>
    if s.head? == some breakByte then some ([], s.tail)
    else do
      let (c, s) ← one s
      let (cs, s) ← untilBreak? one fuel s
      return (c :: cs, s)

/-- The items of a collection with at most `most` entries. -/
def items? (one : Bytes → Option (Cbor × Bytes)) (most : Nat) (h : Head) (perEntry : Nat) (s : Bytes) :
    Option (List Cbor × Bytes) :=
  if h.isOpen then do
    let (cs, s) ← untilBreak? one (s.length + 1) s
    if cs.length % perEntry = 0 && cs.length / perEntry ≤ most then some (cs, s) else none
  else if h.arg ≤ most then many? one (perEntry * h.arg) s
  else none

/-- An item without content, or a floating point number. -/
def primitive? (h : Head) : Option Cbor :=
  match h.info with
  | 25 => some (.float (FloatFormat.half.widen h.arg))
  | 26 => some (.float (FloatFormat.single.widen h.arg))
  | 27 => some (.float h.arg.toUInt64)
  | 31 => none
  | 24 => if h.arg < 32 then none else some (.simple h.arg)
  | _ => some (.simple h.arg)

/-- Does a tag follow. -/
def startsTag (s : Bytes) : Bool := s.head?.any fun b => b.toNat / 32 == 6

/-- One item. `fuel` is more than the length of the text; `levels` collections may still be
entered. A tag inside of a tag counts as a level. -/
def item? (l : Limits) : Nat → Nat → Bytes → Option (Cbor × Bytes)
  | 0, _, _ => none
  | fuel + 1, levels, s => do
    let (h, s) ← readHead s
    match h.major with
    | 0 => if h.isOpen then none else some (.nat h.arg, s)
    | 1 => if h.isOpen then none else some (.neg h.arg, s)
    | 2 => bytes? h s
    | 3 => text? h s
    | 4 =>
      if levels = 0 then none
      else (items? (item? l fuel (levels - 1)) l.elements h 1 s).map fun (cs, s) => (.array cs, s)
    | 5 =>
      if levels = 0 then none
      else (items? (item? l fuel (levels - 1)) l.pairs h 2 s).map fun (cs, s) => (.map cs, s)
    | 6 =>
      if h.isOpen || (startsTag s && levels = 0) then none
      else
        (item? l fuel (if startsTag s then levels - 1 else levels) s).map fun (c, s) =>
          (.tag h.arg c, s)
    | _ => (primitive? h).map fun c => (c, s)

/-- The item that makes up the whole text. -/
def decode? (l : Limits) (s : Bytes) : Option Cbor := do
  let (c, rest) ← item? l (s.length + 1) l.levels s
  if rest.isEmpty then some c else none

end Cbor

end OpTree
