import OpTree.Snapshot
import OpTree.Cbor.Reader
import OpTree.Text.Rune
import OpTree.Text.Timestamp

/-!
# A package for CBOR

Snapshots are written and read with a package for CBOR that is no part of the program. What they ask of it is a
parameter: the bytes of an item and the item of some bytes, and what items mean as values of the types that
snapshots are made of. The functions of the last section stand in for the package when the program is run.
-/

namespace OpTree

set_option autoImplicit false

/-- The range of machine integers. -/
def IsInt64 (v : Int) : Prop := -9223372036854775808 ≤ v ∧ v < 9223372036854775808

instance (v : Int) : Decidable (IsInt64 v) := inferInstanceAs (Decidable (_ ∧ _))

/-- Characters in UTF-8, no more than memory holds. -/
structure IsText (s : Bytes) : Prop where
  utf8 : Bytes.isUtf8 s = true
  short : s.length < Nat.pow 2 63

instance (s : Bytes) : Decidable (IsText s) :=
  decidable_of_iff (Bytes.isUtf8 s = true ∧ s.length < Nat.pow 2 63)
    ⟨fun h => ⟨h.1, h.2⟩, fun h => ⟨h.utf8, h.short⟩⟩

namespace SnapValue

/-- A value that a field can hold. -/
def IsSound : SnapValue → Prop
  | none | bool _ => True
  | int v => IsInt64 v
  | float bits => Binary64.ofBits bits ≠ .nan
  | str s => IsText s

instance (v : SnapValue) : Decidable v.IsSound :=
  match v with
  | none => isTrue trivial
  | bool _ => isTrue trivial
  | int v => inferInstanceAs (Decidable (IsInt64 v))
  | float bits => inferInstanceAs (Decidable (Binary64.ofBits bits ≠ .nan))
  | str s => inferInstanceAs (Decidable (IsText s))

def toCbor : SnapValue → Cbor
  | none => .simple 22
  | bool b => .ofBool b
  | int v => .ofInt v
  | float bits => .float bits
  | str s => .text s

def isNone : SnapValue → Bool
  | none => true
  | _ => false

end SnapValue

namespace Cbor

def isNull : Cbor → Bool
  | simple n => n == 22 || n == 23
  | _ => false

def fieldItems (fs : List (Nat × Cbor)) : List Cbor := fs.flatMap fun f => [.nat f.1, f.2]

/-- What a list of fields has for a number. -/
def valueAt (fs : List (Nat × Cbor)) (n : Nat) : Option Cbor := (fs.find? (·.1 == n)).map Prod.snd

structure Package where
  encode : Cbor → Bytes
  /-- The item that some bytes are, from the first to the last. -/
  decode? : Bytes → Option Cbor
  /-- What stands for a value: an item, or nothing if it is null. -/
  content? : Cbor → Option (Option Cbor)
  /-- What the items of a map have for the field of a record, if they have anything for it. -/
  field? : List Cbor → Nat → Option (Option Cbor)
  int? : Cbor → Option Int
  word? : Cbor → Option Nat
  text? : Cbor → Option Bytes
  /-- A value of any type. -/
  any? : Cbor → Option SnapValue

namespace Package

/-- What is documented of the package. It writes the canonical bytes of an item: heads and doubles in the shortest
form that keeps their value. It reads the well-formed spellings of the items within its limits, and no other bytes.
Integers, texts and values of any type are read as what was written, null as nothing, and a field of a map as what
stands at its number. -/
structure Lawful (p : Package) : Prop where
  canonical : ∀ c, c.IsPlain → p.encode c = c.encode
  decode : ∀ c b, p.decode? b = some c ↔ Spells [c] b ∧ within .usual Limits.usual.levels c = true
  null : p.content? (.simple 22) = some none
  content : ∀ c, c.isTag = false → c.isNull = false → p.content? c = some (some c)
  field : ∀ fs n, (fs.map Prod.fst).Nodup → p.field? (fieldItems fs) n = some (valueAt fs n)
  int : ∀ v, IsInt64 v → p.int? (ofInt v) = some v
  word : ∀ n, n < Nat.pow 2 16 → p.word? (.nat n) = some n
  text : ∀ s, IsText s → p.text? (.text s) = some s
  any : ∀ v : SnapValue, v.IsSound → p.any? v.toCbor = some v

end Package

/-! ### A stand-in -/

/-- The characters of a text. Each piece has to be UTF-8 on its own. -/
def chars? : Cbor → Option Bytes
  | text s => if Bytes.isUtf8 s then some s else none
  | pieces ps => if ps.all Bytes.isUtf8 then some ps.flatten else none
  | _ => none

/-- Does a key name field `n`, by number or by its decimal text. -/
def isKey (n : Nat) : Cbor → Bool
  | nat m => m == n
  | c => chars? c == some (Bytes.ofNat n)

/-- Can a key name a field at all. A number below the 64-bit range cannot. -/
def keyOk : Cbor → Bool
  | nat _ => true
  | neg n => n < Nat.pow 2 63
  | c => (chars? c).isSome

/-- The pairs of a record; null is a record without fields. -/
def pairs? : List Cbor → Option (List (Cbor × Cbor))
  | [] => some []
  | [_] => none
  | k :: v :: rest => if keyOk k then (pairs? rest).map ((k, v) :: ·) else none

/-- The content of a tag for a time: a text, or a number of seconds. -/
def isTimeContent (n : Nat) : Cbor → Bool
  | text _ | pieces _ => n == 0
  | nat _ | neg _ | float _ => n == 1
  | _ => false

/-- The item under its tags. Tags of times and of big numbers ask for content of their kind, and a
big number that fits into 64 bits stands for itself. -/
def untagged? : Cbor → Option Cbor
  | tag n c =>
    match n, c with
    | 0, c => if isTimeContent 0 c then some c else none
    | 1, c => if isTimeContent 1 c then some c else none
    | 2, bytes b => if ofBigEndian b < Nat.pow 2 64 then some (nat (ofBigEndian b)) else none
    | 2, _ => none
    | 3, bytes b => if ofBigEndian b < Nat.pow 2 63 then some (neg (ofBigEndian b)) else none
    | 3, _ => none
    | _, c => untagged? c
  | c => some c

/-- Can an item be the key of a map without fixed fields: collections and big numbers cannot. -/
def canKey : Cbor → Bool
  | array _ | map _ => false
  | neg n => n < Nat.pow 2 63
  | tag n c => n == 0 || n == 1 || (n != 2 && n != 3 && canKey c)
  | _ => true

mutual

/-- Is an item meaningful in all its parts: texts are UTF-8, tags of times and big numbers hold
such, and maps have keys that can be one. -/
def isSound : Cbor → Bool
  | nat _ | neg _ | bytes _ | simple _ | float _ => true
  | text s => Bytes.isUtf8 s
  | pieces ps => ps.all Bytes.isUtf8
  | array cs => allSound cs
  | map cs => pairsSound cs
  | tag n c =>
    match n, c with
    | 0, c => (chars? c).any Timestamp.isMoment
    | 1, neg m => m < Nat.pow 2 63
    | 1, c => isTimeContent 1 c
    | 2, bytes _ | 3, bytes _ => true
    | 2, _ | 3, _ => false
    | _, c => isSound c

def allSound : List Cbor → Bool
  | [] => true
  | c :: cs => isSound c && allSound cs

def pairsSound : List Cbor → Bool
  | k :: v :: cs => isSound k && canKey k && isSound v && pairsSound cs
  | _ => true

end

/-- What stands at a field; the first of several counts. -/
def fieldOf? (pairs : List (Cbor × Cbor)) (n : Nat) : Option Cbor :=
  (pairs.find? fun p => isKey n p.1).map (·.2)

/-- Numbers without a name of their own count as numbers. -/
def nat? : Cbor → Option Nat
  | nat n => some n
  | simple n => if n < 20 || 32 ≤ n then some n else none
  | _ => none

def int? : Cbor → Option Int
  | neg n => if n < Nat.pow 2 63 then some (Int.negSucc n) else none
  | c => (nat? c).bind fun n => if n < Nat.pow 2 63 then some n else none

def word? (c : Cbor) : Option Nat :=
  (nat? c).bind fun n => if n < Nat.pow 2 16 then some n else none

end Cbor

namespace SnapValue

/-- The value that an item stands for; collections and byte strings stand for none. -/
def ofCbor : Cbor → SnapValue
  | .nat n => int n
  | .neg n => int (Int.negSucc n)
  | .simple n =>
    if n == 22 || n == 23 then none
    else if n == 20 then bool false
    else if n == 21 then bool true
    else int n
  | .float bits => float bits
  | .text s => str s
  | .pieces ps => str ps.flatten
  | .tag 2 (.bytes b) => int (Cbor.ofBigEndian b)
  | .tag 3 (.bytes b) => int (Int.negSucc (Cbor.ofBigEndian b))
  | .tag _ c => ofCbor c
  | _ => none

end SnapValue

namespace Cbor

def Package.standIn : Package where
  encode := Cbor.encode
  decode? := Cbor.decode? .usual
  content? c := (untagged? c).map fun c => if isNull c then none else some c
  field? items n := (pairs? items).map fun ps => fieldOf? ps n
  int? := Cbor.int?
  word? := Cbor.word?
  text? := chars?
  any? c := if c.isSound then some (.ofCbor c) else none

end Cbor

end OpTree
