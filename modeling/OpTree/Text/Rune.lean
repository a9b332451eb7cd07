import OpTree.Text.Bytes

/-!
# Code points in byte strings

Decoding never fails: a byte that begins no valid UTF-8 sequence is read alone as the
replacement character. Overlong forms, surrogates and values above U+10FFFF are invalid.
-/

namespace OpTree

set_option autoImplicit false

/-- A code point; only values that `Rune.valid` accepts have an encoding of their own. -/
abbrev Rune := Nat

namespace Rune

def replacement : Rune := 0xFFFD

def valid (r : Rune) : Bool := r < 0xD800 || (0xE000 ≤ r && r ≤ 0x10FFFF)

/-- UTF-8 of a code point; anything that has none is written as the replacement character. -/
def encode (r : Rune) : Bytes :=
  let r := if valid r then r else replacement
  if r < 0x80 then [r.toUInt8]
  else if r < 0x800 then [(0xC0 + r / 64).toUInt8, (0x80 + r % 64).toUInt8]
  else if r < 0x10000 then
    [(0xE0 + r / 4096).toUInt8, (0x80 + r / 64 % 64).toUInt8, (0x80 + r % 64).toUInt8]
  else
    [(0xF0 + r / 262144).toUInt8, (0x80 + r / 4096 % 64).toUInt8,
      (0x80 + r / 64 % 64).toUInt8, (0x80 + r % 64).toUInt8]

end Rune

/-- What stands at the head of a text: a code point, its width in bytes and whether the
bytes were a valid sequence. -/
structure Decoded where
  rune : Rune
  width : Nat
  ok : Bool
  deriving Repr, DecidableEq

namespace Decoded

def bad : Decoded := ⟨Rune.replacement, 1, false⟩

end Decoded

namespace Bytes

def isTail (b : UInt8) : Bool := 0x80 ≤ b && b ≤ 0xBF

def tailBits (b : UInt8) : Nat := b.toNat - 0x80

/-- Decodes the code point that starts with `b` and goes on in `rest`. -/
def decodeHead (b : UInt8) (rest : Bytes) : Decoded :=
  if b < 0x80 then ⟨b.toNat, 1, true⟩
  else if b < 0xC2 then .bad
  else if b < 0xE0 then
    match rest with
    | c :: _ => if isTail c then ⟨(b.toNat - 0xC0) * 64 + tailBits c, 2, true⟩ else .bad
    | _ => .bad
  else if b < 0xF0 then
    match rest with
    | c :: d :: _ =>
      let lo := if b == 0xE0 then 0xA0 else 0x80
      let hi := if b == 0xED then 0x9F else 0xBF
      if lo ≤ c && c ≤ hi && isTail d then
        ⟨(b.toNat - 0xE0) * 4096 + tailBits c * 64 + tailBits d, 3, true⟩
      else .bad
    | _ => .bad
  else if b < 0xF5 then
    match rest with
    | c :: d :: e :: _ =>
      let lo := if b == 0xF0 then 0x90 else 0x80
      let hi := if b == 0xF4 then 0x8F else 0xBF
      if lo ≤ c && c ≤ hi && isTail d && isTail e then
        ⟨(b.toNat - 0xF0) * 262144 + tailBits c * 4096 + tailBits d * 64 + tailBits e, 4, true⟩
      else .bad
    | _ => .bad
  else .bad

def decode : Bytes → List Decoded
  | [] => []
  | b :: rest =>
    let d := decodeHead b rest
    d :: decode (rest.drop (d.width - 1))
termination_by s => s.length
decreasing_by simp only [List.length_drop, List.length_cons]; omega

def runes (s : Bytes) : List Rune := (decode s).map (·.rune)

def runeCount (s : Bytes) : Nat := (decode s).length

def isUtf8 (s : Bytes) : Bool := (decode s).all (·.ok)

def ofRunes (rs : List Rune) : Bytes := rs.flatMap Rune.encode

theorem decode_cons (b : UInt8) (rest : Bytes) :
    decode (b :: rest) =
      decodeHead b rest :: decode (rest.drop ((decodeHead b rest).width - 1)) := by
  rw [decode]

theorem decodeHead_ascii {b : UInt8} (h : b < 0x80) (rest : Bytes) :
    decodeHead b rest = ⟨b.toNat, 1, true⟩ := by
  simp [decodeHead, h]

theorem decode_ascii_cons {b : UInt8} (h : b < 0x80) (rest : Bytes) :
    decode (b :: rest) = ⟨b.toNat, 1, true⟩ :: decode rest := by
  simp [decode_cons, decodeHead_ascii h]

end Bytes

end OpTree
