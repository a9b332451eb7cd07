/-!
# Byte strings

Every text of the system is a list of bytes. No encoding is imposed: a text may hold
bytes that are not UTF-8, and each operation says how it treats them.
-/

namespace OpTree

set_option autoImplicit false

abbrev Bytes := List UInt8

/-- The UTF-8 bytes of a character string. -/
def utf8 (s : String) : Bytes :=
  s.toList.flatMap String.utf8EncodeChar

namespace Bytes

def digits (base n : Nat) : Bytes :=
  (Nat.toDigits base n).map fun c => c.toNat.toUInt8

def ofNat (n : Nat) : Bytes := digits 10 n

/-- Decimal text with a leading minus sign for negative numbers. -/
def ofInt : Int → Bytes
  | .ofNat n => ofNat n
  | .negSucc n => 45 :: ofNat (n + 1)

def hexByte (b : UInt8) : Bytes :=
  let d := digits 16 b.toNat
  List.replicate (2 - d.length) 48 ++ d

def hexPadded (width n : Nat) : Bytes :=
  let d := digits 16 n
  List.replicate (width - d.length) 48 ++ d

def isDigit (b : UInt8) : Bool := 48 ≤ b && b ≤ 57

def isLetter (b : UInt8) : Bool := (97 ≤ b && b ≤ 122) || (65 ≤ b && b ≤ 90)

/-- Letters, digits and the underscore. -/
def isWord (b : UInt8) : Bool := isLetter b || isDigit b || b == 95

def isAscii (s : Bytes) : Bool := s.all fun b => b < 128

def lowerByte (b : UInt8) : UInt8 := if 65 ≤ b && b ≤ 90 then b + 32 else b

def upperByte (b : UInt8) : UInt8 := if 97 ≤ b && b ≤ 122 then b - 32 else b

/-- `a` joined with `sep` between neighbours. -/
def intercalate (sep : Bytes) : List Bytes → Bytes
  | [] => []
  | [a] => a
  | a :: b :: r => a ++ sep ++ intercalate sep (b :: r)

/-- Removes the bytes of `set` from both ends. -/
def trim (set : Bytes) (s : Bytes) : Bytes :=
  ((s.dropWhile set.contains).reverse.dropWhile set.contains).reverse

/-- Bytewise order, a proper beginning first. -/
def lt : Bytes → Bytes → Bool
  | [], [] => false
  | [], _ :: _ => true
  | _ :: _, [] => false
  | a :: r, b :: s => a < b || (a == b && lt r s)

/-- The pieces between the occurrences of `sep`; there is always at least one. -/
def splitOn (sep : UInt8) : Bytes → List Bytes
  | [] => [[]]
  | b :: r =>
    if b == sep then [] :: splitOn sep r
    else match splitOn sep r with
      | [] => [[b]]
      | p :: ps => (b :: p) :: ps

def padLeft (width : Nat) (fill : UInt8) (s : Bytes) : Bytes :=
  List.replicate (width - s.length) fill ++ s

theorem lt_irrefl (s : Bytes) : lt s s = false := by
  induction s with
  | nil => rfl
  | cons b r ih => simp [lt, ih]

end Bytes

end OpTree
