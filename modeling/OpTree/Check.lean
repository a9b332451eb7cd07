import OpTree.Op.Arena
import OpTree.IdSet

/-!
# Checking a finished tree

Every op that can be reached through kids has to have the shape its class asks for, and none may
be reached twice. The first complaint is reported.
-/

namespace OpTree

set_option autoImplicit false

namespace Node

/-- How many kids a node may have; there may be no upper bound. -/
def kidRange (n : Node) : Nat × Option Nat :=
  match n.code with
  | .condExpr => (3, some 3)
  | .leavesub => (1, some 1)
  | .enteriter => (2, some 2)
  | .lineseq | .scope => (0, none)
  | _ =>
    match n.opClass with
    | .base | .padop | .svop | .cop | .freed => (0, some 0)
    | .unop => (0, some 1)
    | .binop | .logop => (2, some 2)
    | .listop => (1, none)
    | .auxop => (1, some 1)
    | .loop => (0, none)

def kidCountOk (n : Node) (count : Nat) : Bool :=
  let (lo, hi?) := n.kidRange
  decide (lo ≤ count) && hi?.all fun hi => decide (count ≤ hi)

def missing? (n : Node) : Option Bytes :=
  match n.opClass with
  | .logop => if n.other.isNone then some (utf8 " has no other") else none
  | .auxop =>
    if n.path.all fun p => p.items.isEmpty then some (utf8 " has no side table") else none
  | _ => none

end Node

namespace Arena

/-- What is wrong with a single node. -/
def complaint? (a : Arena) (r : RecId) : Option Bytes :=
  let n := a.node r
  let kids := a.kids r
  let count := Bytes.ofNat kids.length
  if n.code = .freed then
    some (utf8 "finalize: freed op #" ++ Bytes.ofNat n.id ++ utf8 " (ex-" ++ n.ex.nameBytes ++
      utf8 ") is reachable")
  else if n.flags.has Flags.kids ≠ !kids.isEmpty then
    some (utf8 "finalize: " ++ n.tag ++ utf8 ": kids flag does not match " ++ count ++
      utf8 " kids")
  else
    let last := kids.getLast?
    match last.filter fun k => (a.node k).sib.parent? ≠ some r with
    | some k =>
      some (utf8 "finalize: " ++ n.tag ++ utf8 ": last kid " ++ (a.node k).tag ++
        utf8 " does not lead back")
    | none =>
      if n.opClass.tracksLast && n.last ≠ last then
        some (utf8 "finalize: " ++ n.tag ++ utf8 ": stale last kid")
      else if n.code = .null then none
      else if !n.kidCountOk kids.length then
        some (utf8 "finalize: " ++ n.tag ++ utf8 " (" ++ utf8 n.opClass.name ++ utf8 ") has " ++
          count ++ utf8 " kids")
      else n.missing?.map fun what => utf8 "finalize: " ++ n.tag ++ what

/-- Checks the nodes on the stack and everything below. Every visit either meets a new id or ends
the walk, so `fuel` bounds the number of ids. -/
def checkStack (a : Arena) : Nat → IdSet → List RecId → Option Bytes
  | _, _, [] => none
  | 0, _, _ :: _ => some []
  | fuel + 1, seen, r :: stack =>
    let n := a.node r
    match seen.mark n.id with
    | (false, _) => some (utf8 "finalize: " ++ n.tag ++ utf8 " reached twice")
    | (true, seen) =>
      match a.complaint? r with
      | some msg => some msg
      | none => a.checkStack fuel seen ((a.kids r).reverse ++ stack)

/-- The first complaint about the tree under `root`. -/
def check? (a : Arena) (root : RecId) : Option Bytes := a.checkStack a.bound .empty [root]

end Arena

namespace TreeM

/-- Fails unless the tree under `root` is well formed. -/
def check (root : RecId) : TreeM Unit := do
  match (← get).check? root with
  | some msg => broken msg
  | none => pure ()

end TreeM

end OpTree
