import OpTree.Op.Slab

/-!
# Releasing nodes

Destroying a node drops its payload, freeing a tree frees every node below it. A sub that is still
referenced only loses a reference and keeps its tree.
-/

namespace OpTree

set_option autoImplicit false

namespace Node

def destroyed (n : Node) : Node :=
  if n.code == .freed then n
  else { n with path := none, val := .none, name := [], file := [], label := [] }

end Node

namespace TreeM

def destroy (r : RecId) : TreeM Unit := update r Node.destroyed

/-- Frees what is on the stack and everything below. `fuel` bounds the number of visits. -/
def freeStack : Nat → List RecId → TreeM Unit
  | _, [] => pure ()
  | 0, _ :: _ => fatal
  | fuel + 1, r :: stack => do
    let n ← node r
    if n.code = .freed then freeStack fuel stack
    else
      let counted : Bool := n.code = .leavesub && 0 < n.refs
      if counted then update r fun n => { n with refs := n.refs - 1 }
      if counted && 1 < n.refs then freeStack fuel stack
      else
        let ks ← kids r
        destroy r
        free r
        freeStack fuel (ks.reverse ++ stack)

def freeTree (r : RecId) : TreeM Unit := do
  let b := (← get).bound
  freeStack (b * b) [r]

/-- Frees each record of the list that is neither free nor pinned, and counts the pinned ones. -/
def freeUnpinned : List RecId → TreeM Nat
  | [] => pure 0
  | r :: rest => do
    let n ← node r
    if n.static || n.code = .freed then freeUnpinned rest
    else if n.pinned then return (← freeUnpinned rest) + 1
    else
      destroy r
      freeInGroup r
      freeUnpinned rest

/-- Destroys every live node after a failed compilation. Pinned nodes survive and keep the group
alive. -/
def forceFreeAll : TreeM Unit := do
  let g ← group
  if g.released then return
  let pinned ← freeUnpinned (List.range (← get).recs.size)
  if pinned = 0 && (← group).refs = 1 then freeGroup else release

end TreeM

end OpTree
