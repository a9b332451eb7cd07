import OpTree.Op.Arena
import OpTree.IdSet
import OpTree.Number.Decimal
import OpTree.Text.Quoted

/-!
# Printed trees and chains

A node is one line. A tree lists every node with its kids indented below it. A chain lists the
nodes in the order of execution: first the main path, then the branches in the order in which they
were met. A node that was listed before is named by a goto.
-/

namespace OpTree

set_option autoImplicit false

namespace Node

def bitNames (n : Node) : List Bytes :=
  ((Flags.names.filter fun p => n.flags.has p.1).map fun p => utf8 p.2) ++
    ((Priv.names.filter fun p => n.priv.has p.1).map fun p => utf8 p.2)

def bitsText (n : Node) : Bytes :=
  if n.bitNames.isEmpty then []
  else utf8 " [" ++ Bytes.intercalate [44] n.bitNames ++ utf8 "]"

end Node

namespace Payload

/-- A value outside of a scalar. -/
def bareText : Value → Bytes
  | .bool b => utf8 (if b then "true" else "false")
  | .float f => FloatStyle.general.format false Option.none (utf8 "+Inf") f
  | v => v.text

def print : Payload → Bytes
  | none => []
  | scalar .undefined => utf8 " (undef)"
  | scalar (.str s) => utf8 " (" ++ Quoted.text s ++ utf8 ")"
  | scalar v => utf8 " (" ++ v.text ++ utf8 ")"
  | bare .undefined => []
  | bare v => utf8 " (" ++ bareText v ++ utf8 ")"

end Payload

namespace Path

def printItem (p : Path) (it : PathItem) : Bytes :=
  let source : Bytes :=
    if !it.name.isEmpty then utf8 "(*" ++ it.name ++ utf8 ")"
    else if it.act.isStart then utf8 "(t" ++ Bytes.ofInt it.targ ++ utf8 ")"
    else []
  let index : Bytes :=
    if it.act.index == Action.idxConst then
      if it.act.isHash then [0x7b] ++ Quoted.text (p.keyAt it) ++ [0x7d]
      else utf8 "[" ++ Bytes.ofInt it.index.toInt ++ utf8 "]"
    else if it.act.index == Action.idxPadsv then
      utf8 "[t" ++ Bytes.ofInt it.idxTarg ++ utf8 "]"
    else []
  it.act.name ++ source ++ index

def print (p : Path) : Bytes :=
  if p.items.isEmpty then []
  else [32] ++ Bytes.intercalate (utf8 "->") (p.items.map p.printItem)

end Path

namespace Node

/-- What the class of a node adds to its line. -/
def detail (n : Node) : Bytes :=
  let targ : Bytes := if n.targ ≠ 0 then utf8 " targ " ++ Bytes.ofInt n.targ else []
  match n.opClass with
  | .padop =>
    if n.code = .padrange then
      utf8 " targ " ++ Bytes.ofInt n.targ ++ utf8 ".." ++
        Bytes.ofInt (Pad.slotAfter n.targ (n.count - 1))
    else targ
  | .svop => if !n.name.isEmpty then utf8 " *" ++ n.name else n.val.print
  | .cop =>
    (if n.label.isEmpty then [] else [32] ++ n.label ++ [58]) ++ utf8 " line " ++
      Bytes.ofInt n.line
  | .loop => targ
  | .auxop =>
    match n.path with
    | some p => p.print
    | none => utf8 " <no aux>"
  | _ => []

def print (n : Node) : Bytes :=
  let name := if n.isEx then utf8 "ex-" ++ n.ex.nameBytes else n.code.nameBytes
  let want : Bytes := if n.want = .unknown then [] else [32] ++ utf8 n.want.name
  name ++ utf8 " #" ++ Bytes.ofNat n.id ++ want ++ n.bitsText ++ n.detail

end Node

namespace Arena

/-- The nodes on a stack and everything below, parents before kids, each with its depth. -/
def preorderStack (a : Arena) : Nat → List (RecId × Nat) → List (RecId × Nat)
  | _, [] => []
  | 0, _ :: _ => []
  | fuel + 1, (r, d) :: stack =>
    (r, d) :: a.preorderStack fuel ((a.kids r).map (fun k => (k, d + 1)) ++ stack)

def preorder (a : Arena) (root : Option RecId) : List (RecId × Nat) :=
  match root with
  | none => []
  | some r => a.preorderStack (a.bound * a.bound) [(r, 0)]

def printTree (a : Arena) (root : Option RecId) : Bytes :=
  (a.preorder root).flatMap fun (r, d) => List.replicate d 9 ++ (a.node r).print ++ [10]

end Arena

/-- One line of a printed chain. -/
inductive ChainLine where
  /-- The branch that starts at a node follows. -/
  | branch (r : RecId)
  | op (r : RecId)
  /-- The path goes on at a node that is listed already. -/
  | jump (r : RecId)
  deriving Repr, DecidableEq, Inhabited

namespace Arena

/-- A path of a chain: its lines, the branches met on it and the ids listed so far. -/
structure ChainPath where
  lines : List ChainLine
  branches : List RecId
  seen : IdSet

/-- Follows one path. Every step lists a new id or ends the path. -/
def chainPath (a : Arena) : Nat → IdSet → Option RecId → ChainPath
  | _, seen, none => ⟨[], [], seen⟩
  | 0, seen, some _ => ⟨[], [], seen⟩
  | fuel + 1, seen, some r =>
    let n := a.node r
    match seen.mark n.id with
    | (false, seen) => ⟨[.jump r], [], seen⟩
    | (true, seen) =>
      let rest := a.chainPath fuel seen n.next
      ⟨.op r :: rest.lines, n.other.toList ++ rest.branches, rest.seen⟩

/-- Lists the branches of a queue, and those met on the way after them. -/
def chainBranches (a : Arena) : Nat → IdSet → List RecId → List ChainLine
  | _, _, [] => []
  | 0, _, _ :: _ => []
  | fuel + 1, seen, r :: queue =>
    let p := a.chainPath a.bound seen (some r)
    .branch r :: p.lines ++ a.chainBranches fuel p.seen (queue ++ p.branches)

/-- The lines of the chain from `start`. -/
def chainLines (a : Arena) (start : Option RecId) : List ChainLine :=
  let p := a.chainPath a.bound .empty start
  p.lines ++ a.chainBranches a.bound p.seen p.branches

def printChainLine (a : Arena) : ChainLine → Bytes
  | .branch r => utf8 "branch #" ++ Bytes.ofNat (a.node r).id ++ utf8 ":\n"
  | .jump r => utf8 "\tgoto #" ++ Bytes.ofNat (a.node r).id ++ utf8 "\n"
  | .op r =>
    let n := a.node r
    let other := match n.other with
      | some o => utf8 " other #" ++ Bytes.ofNat (a.node o).id
      | none => []
    [9] ++ n.print ++ other ++ [10]

def printChain (a : Arena) (start : Option RecId) : Bytes :=
  (a.chainLines start).flatMap a.printChainLine

end Arena

end OpTree
