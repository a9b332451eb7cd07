import OpTree.Peephole.State

/-!
# Values used as truths

An op whose value is only tested may answer with a truth value instead. The consumers of the value
are followed through transparent wrappers and short-circuit ops.
-/

namespace OpTree

set_option autoImplicit false

inductive TruthUse where
  | no
  | always
  /-- Only if the caller of the sub wants nothing. -/
  | inVoid
  deriving Repr, DecidableEq

namespace Arena

/-- How the value of `o` is used. -/
def truthUse (a : Arena) : Nat → RecId → TruthUse
  | 0, _ => .no
  | fuel + 1, o =>
    match a.parent? o with
    | none => .no
    | some p =>
      let n := a.node p
      match n.code with
      | .null => if n.ex = .null then a.truthUse fuel p else .no
      | .scalar => a.truthUse fuel p
      | .not => .always
      | .condExpr => if n.first = some o then .always else a.truthUse fuel p
      | .and | .or =>
        match n.want with
        | .void => .always
        | .unknown => .inVoid
        | .list => .no
        | .scalar => a.truthUse fuel p
      | _ => .no

end Arena

namespace Peep

def tagTruth (o : RecId) : Peep Unit := do
  let a ← (get : TreeM Arena)
  match a.truthUse a.bound o with
  | .no => return
  | .always =>
    TreeM.update o fun n =>
      { n with priv := (n.priv ||| Priv.trueBool) &&& ~~~Priv.maybeTrueBool }
  | .inVoid => TreeM.update o fun n => { n with priv := n.priv ||| Priv.maybeTrueBool }
  noteChange "boolean"

end Peep

end OpTree
