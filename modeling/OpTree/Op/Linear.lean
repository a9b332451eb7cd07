import OpTree.Op.Arena

/-!
# Linearizing

Threads the order of execution through a tree: kids from left to right, then the op itself.
A finished subtree floats: the `next` of its root is where it starts, and a leaf starts at itself.
Subtrees that are linked already are passed over, so doing it again changes nothing.
-/

namespace OpTree

set_option autoImplicit false

namespace TreeM

/-- Links the successive kids in `ks`; `prev` is the one before. -/
def linkKids (r prev : RecId) : List RecId → TreeM Unit
  | [] => setNext prev (some r)
  | k :: ks => do
    setNext prev (← node k).next
    linkKids r k ks

/-- Chains the linked kids of a node, which then floats at the start of the first one. -/
def link (r : RecId) : TreeM Unit := do
  match ← kids r with
  | [] => float r (some r)
  | k :: ks =>
    float r (← node k).next
    linkKids r k ks

/-- The walk behind `linearize`, standing at `o`. -/
def linearizeFrom (root : RecId) : Nat → RecId → TreeM (Option RecId)
  | 0, _ => fatal
  | fuel + 1, o => do
    let n ← node o
    match n.next, n.first with
    | none, some k => linearizeFrom root fuel k
    | next, _ =>
      if next.isNone then float o (some o)
      if o = root then return (← node o).next
      if n.sib.more then linearizeFrom root fuel (← need n.sib.target)
      else match n.sib.target with
        | none => broken (utf8 "linearize: " ++ (← node root).tag ++ utf8 ": lost parent")
        | some p =>
          let m ← node p
          if m.next.isSome then
            broken (utf8 "linearize: " ++ m.tag ++ utf8 ": parent already linked")
          link p
          linearizeFrom root fuel p

/-- Threads the subtree under `root` and answers with its start. -/
def linearize (root : RecId) : TreeM (Option RecId) := do
  linearizeFrom root (4 * (← get).bound) root

end TreeM

end OpTree
