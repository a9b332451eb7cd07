import OpTree.Peephole.State

/-!
# Branches and returns

Rules that shorten the order of execution: branching ops skip ops that would decide the same again,
a constant decides a branching op at once, a negation in front of one is absorbed, and a return at
the end of a sub falls through.
-/

namespace OpTree

set_option autoImplicit false

namespace Peep

/-- Moves the successor of a branching op past transparent ops and past ops of its own kind. -/
def threadFrom (o : RecId) (t : Opcode) : Nat → Peep Unit
  | 0 => pure ()
  | fuel + 1 => do
    match (← (TreeM.node o : TreeM Node)).next with
    | none => pure ()
    | some r =>
      let n ← (TreeM.node r : TreeM Node)
      if r ≠ o && (n.code = t || n.transparent) then
        TreeM.setNext o n.next
        if n.code = t then noteChange "thread"
        threadFrom o t fuel

def threadBranch (o : RecId) : Peep Unit := do
  skipNulls (.other o)
  let t := (← (TreeM.node o : TreeM Node)).code
  threadFrom o t (← (get : TreeM Arena)).bound
  match (← (TreeM.node o : TreeM Node)).next with
  | none => pure ()
  | some r =>
    let n ← (TreeM.node r : TreeM Node)
    if n.want = .void && n.other.isSome &&
        ((t = .and && n.code = .or) || (t = .or && n.code = .and)) then
      TreeM.setNext o n.other
      noteChange "thread"

/-- Does a constant first operand already answer a branching op. -/
def answers (t : Opcode) (v : Value) : Option Bool :=
  match t with
  | .and => some (!v.truth)
  | .or => some v.truth
  | .dor => some v.defined
  | _ => none

/-- Removes a branching op whose first operand is the constant `c`. Either the constant stays and
the branch is dropped, or the branch takes the place of both. -/
def constBranch? (c : RecId) (prev : Option RecId) (s : PeepSlot) :
    Peep (Option (Option RecId × Bool)) := do
  let n ← (TreeM.node c : TreeM Node)
  match n.next with
  | none => return none
  | some l =>
    let b ← (TreeM.node l : TreeM Node)
    if b.first ≠ some c then return none
    match answers b.code n.val.value with
    | none => return none
    | some stays =>
      TreeM.update l fun x => { x.neutralized with priv := x.priv ||| Priv.short }
      noteChange "short_circuit"
      if stays then
        TreeM.update c fun x => { x with priv := x.priv ||| Priv.short }
        return some (some l, true)
      else
        TreeM.neutralize c
        relink prev s b.other
        return some (b.other, false)

/-- Absorbs a negation in front of a void branching op by flipping the op. -/
def notBranch? (r : RecId) (prev : Option RecId) (s : PeepSlot) : Peep (Option RecId) := do
  match (← (TreeM.node r : TreeM Node)).next with
  | none => return none
  | some l =>
    let b ← (TreeM.node l : TreeM Node)
    if b.first ≠ some r || b.want ≠ .void then return none
    let flipped? : Option Opcode := match b.code with
      | .and => some .or
      | .or => some .and
      | _ => none
    match flipped? with
    | none => return none
    | some t =>
      TreeM.retype l t
      TreeM.neutralize r
      relink prev s (some l)
      noteChange "not"
      return some l

/-- The return op that a pushmark starts, if it is the last statement of a sub. -/
def tailReturnOf? (a : Arena) (pm : RecId) : Option RecId := do
  let ret ← a.parent? pm
  let n := a.node ret
  guard (n.code = .ret && n.first = some pm && !n.sib.more)
  let seq ← a.parent? ret
  guard ((a.node seq).code = .lineseq)
  let leave ← a.parent? seq
  guard ((a.node leave).code = .leavesub)
  return ret

/-- Lets a return at the end of a sub fall through into the end of the sub. The answer is the op to
go on with. -/
def tailReturn? (pm : RecId) (prev : Option RecId) (s : PeepSlot) :
    Peep (Option (Option RecId)) := do
  let a ← (get : TreeM Arena)
  match tailReturnOf? a pm with
  | none => return none
  | some ret =>
    let after := (a.node ret).next
    let next := (a.node pm).next
    let next := if next = some ret then after else next
    match a.last? ret with
    | some l => if l ≠ pm then TreeM.setNext l after
    | none => (TreeM.fatal : TreeM Unit)
    TreeM.neutralize pm
    TreeM.neutralize ret
    relink prev s next
    noteChange "tail_return"
    return some next

end Peep

end OpTree
