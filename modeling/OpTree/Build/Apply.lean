import OpTree.Build.Basic

/-!
# Applying an op

A whole unit that does nothing but apply one op to literals.
-/

namespace OpTree

set_option autoImplicit false

/-- A unit made of one op: its root, where it starts, and whether the op was folded. -/
structure Applied where
  root : RecId
  start : Option RecId
  folded : Bool

namespace Build

def apply (t : Opcode) (p : Priv) (ks : List RecId) : TreeM RecId :=
  match t.opClass, ks with
  | .unop, a :: _ => unop t (some a) p
  | .binop, a :: b :: _ => binop t a b
  | .logop, a :: b :: rest =>
    match t, rest with
    | .condExpr, c :: _ => cond a b c
    | .condExpr, [] => TreeM.fatal
    | t, _ => logop t a b
  | .listop, ks => listop t ks
  | _, _ => TreeM.fatal

/-- The unit whose value is an op applied to literals. -/
def applied (t : Opcode) (p : Priv) (vs : List Value) : TreeM Applied := do
  let o ← apply t p (← vs.mapM const)
  let folded := (← TreeM.node o).code == .const
  let root ← sub [{ line := 1, expr? := some o }]
  let start ← TreeM.linearize root
  TreeM.setNext root none
  return ⟨root, start, folded⟩

end Build

end OpTree
