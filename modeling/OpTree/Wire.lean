import OpTree.Cbor.Reader
import OpTree.Op.Node
import OpTree.IdSet
import OpTree.Peephole.State

/-!
# Log encodings

The bytes by which ops, values, id sets and statistics appear in a log. Heads are those of CBOR,
but a negative number is written as its magnitude plus one.
-/

namespace OpTree

set_option autoImplicit false

namespace Wire

def int (v : Int) : Bytes :=
  if 0 ≤ v then Cbor.head 0 v.toNat else Cbor.head 1 (v.natAbs + 1)

def text (s : Bytes) : Bytes := Cbor.head 3 s.length ++ s

def nothing : Bytes := [0xf6]

def map (entries : List (Bytes × Bytes)) : Bytes :=
  Cbor.head 5 entries.length ++ entries.flatMap fun e => text e.1 ++ e.2

def value : Value → Bytes
  | .undefined => nothing
  | .int v => int v.toInt
  | v => text v.text

def opcode (n : Nat) : Bytes := text (Opcode.nameOfNat n)

def node : Option Node → Bytes
  | none => nothing
  | some n =>
    map [(utf8 "id", int n.id), (utf8 "op", text n.code.nameBytes), (utf8 "targ", int n.targ)]

/-- The members between the brackets of an open list; a set that was never written is nothing. -/
def idSet (s : IdSet) : Bytes :=
  if s.words.isEmpty then nothing
  else [0x9f] ++ s.toList.flatMap (fun n : Nat => int n) ++ [Cbor.breakByte]

/-- Statistics; the kinds of changes are sorted. -/
def stats (s : PeepStats) : Bytes :=
  let changes := (s.changes.mergeSort fun a b => !Bytes.lt b.1 a.1).map fun r => (r.1, int r.2)
  map [(utf8 "visited", int s.visited), (utf8 "deferred", int s.deferred),
    (utf8 "max_depth", int s.maxDepth), (utf8 "rewrites", map changes)]

end Wire

end OpTree
