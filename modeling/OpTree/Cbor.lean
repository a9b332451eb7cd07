import OpTree.Text.Bytes
import OpTree.Number.FloatFormat

/-!
# CBOR items

A data item and its canonical bytes: heads and floating point numbers take the shortest form that
keeps their value.
-/

namespace OpTree

set_option autoImplicit false

inductive Cbor where
  | nat (n : Nat)
  /-- The number `-1 - n`. -/
  | neg (n : Nat)
  | bytes (b : Bytes)
  | text (b : Bytes)
  /-- A text whose length is left open, so that it comes in pieces. -/
  | pieces (parts : List Bytes)
  | array (items : List Cbor)
  /-- Keys and values in turn. -/
  | map (items : List Cbor)
  | tag (n : Nat) (item : Cbor)
  /-- Truth values, null and other items without content. -/
  | simple (n : Nat)
  /-- A double, given by its bits. -/
  | float (bits : UInt64)
  deriving Repr, Inhabited

namespace Cbor

def ofBool (b : Bool) : Cbor := simple (if b then 21 else 20)

def ofInt : Int → Cbor
  | .ofNat n => nat n
  | .negSucc n => neg n

/-- The low `width` bytes of `n`, high byte first. -/
def bigEndian : Nat → Nat → Bytes
  | 0, _ => []
  | width + 1, n => (n / Nat.pow 256 width % 256).toUInt8 :: bigEndian width n

/-- A first byte: the kind of the item in the upper three bits, `info` in the others. -/
def lead (major info : Nat) : UInt8 := (major * 32 + info).toUInt8

/-- A byte that ends an item of open length. -/
def breakByte : UInt8 := 0xff

/-- Kind and argument of an item in as few bytes as possible. -/
def head (major n : Nat) : Bytes :=
  if n < 24 then [lead major n]
  else if n < Nat.pow 2 8 then lead major 24 :: bigEndian 1 n
  else if n < Nat.pow 2 16 then lead major 25 :: bigEndian 2 n
  else if n < Nat.pow 2 32 then lead major 26 :: bigEndian 4 n
  else lead major 27 :: bigEndian 8 n

/-- A double in the narrowest format that holds it. There is one value that is no number. -/
def floatBytes (bits : UInt64) : Bytes :=
  match Binary64.ofBits bits with
  | .nan => lead 7 25 :: bigEndian 2 0x7e00
  | .infinite minus => lead 7 25 :: bigEndian 2 (if minus then 0xfc00 else 0x7c00)
  | .finite minus mant exp =>
    match FloatFormat.half.encode? minus mant exp, FloatFormat.single.encode? minus mant exp with
    | some h, _ => lead 7 25 :: bigEndian 2 h
    | none, some s => lead 7 26 :: bigEndian 4 s
    | none, none => lead 7 27 :: bigEndian 8 bits.toNat

mutual

def encode : Cbor → Bytes
  | nat n => head 0 n
  | neg n => head 1 n
  | bytes b => head 2 b.length ++ b
  | text b => head 3 b.length ++ b
  | pieces parts =>
    lead 3 31 :: parts.flatMap (fun b => head 3 b.length ++ b) ++ [breakByte]
  | array items => head 4 items.length ++ encodeAll items
  | map items => head 5 (items.length / 2) ++ encodeAll items
  | tag n item => head 6 n ++ encode item
  | simple n => head 7 n
  | float bits => floatBytes bits

def encodeAll : List Cbor → Bytes
  | [] => []
  | c :: cs => encode c ++ encodeAll cs

end

theorem bigEndian_length (width n : Nat) : (bigEndian width n).length = width := by
  induction width with
  | zero => rfl
  | succ w ih => simp [bigEndian, ih]

end Cbor

end OpTree
