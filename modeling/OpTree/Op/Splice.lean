import OpTree.Op.Release

/-!
# Splicing

The one operation that changes kid lists, and the others by means of it. Splicing never touches
the order of execution and frees nothing.
-/

namespace OpTree

set_option autoImplicit false

namespace TreeM

/-- The last of the kids that are deleted from `k` on; a negative count deletes all. -/
def lastDeleted (a : Arena) : Nat → Int → RecId → RecId
  | 0, _, k => k
  | fuel + 1, del, k =>
    if del = 0 then k
    else match (a.node k).sibling? with
      | some s => lastDeleted a fuel (del - 1) s
      | none => k

/-- Removes `del` kids after `start`, or from the first kid on, and puts the chain `insert` in their
place. A count of -1, or one that is too large, removes all the rest. The removed chain is
answered, sealed. -/
def splice (parent start : Option RecId) (del : Int) (insert : Option RecId) :
    TreeM (Option RecId) := do
  if del < -1 then broken (utf8 "splice: bad count " ++ Bytes.ofInt del)
  let first ← match start, parent with
    | some s, _ => pure (← node s).sibling?
    | none, none => broken (utf8 "splice: nil parent")
    | none, some p => pure (← node p).first
  let lastDel := match first with
    | some f => if del ≠ 0 then some f else none
    | none => none
  let (removed, rest) ← match lastDel with
    | some f => do
      let a ← get
      let l := lastDeleted a a.bound (del - 1) f
      let rest := (a.node l).sibling?
      update l fun n => { n with sib := {} }
      pure (some f, rest)
    | none => pure (none, first)
  let (insert, lastIns) ← match insert with
    | some i => do
      let l := (← get).lastSibling i
      update l fun n => { n with sib := .next rest }
      pure (some i, some l)
    | none => pure (rest, none)
  match start with
  | some s =>
    update s fun n => { n with sib := .next insert }
    if insert.isNone then
      match parent with
      | none => broken (utf8 "splice: nil parent for new last child")
      | some p => update s fun n => { n with sib := .up p }
  | none =>
    let p ← need parent
    update p fun n =>
      { n with first := insert,
               flags := if insert.isSome then n.flags ||| Flags.kids
                        else n.flags &&& ~~~Flags.kids }
  if rest.isNone then
    match parent with
    | none => broken (utf8 "splice: nil parent for last child update")
    | some p =>
      let last := match lastIns with
        | some l => some l
        | none => start
      if (← node p).opClass.tracksLast then update p fun n => { n with last := last }
      match last with
      | some l => update l fun n => { n with sib := .up p }
      | none => pure ()
  return removed

/-- Adds a chain as the last kids. -/
def append (parent : RecId) (kid : Option RecId) : TreeM Unit := do
  let last := (← get).last? parent
  let _ ← splice (some parent) last 0 kid

def prepend (parent : RecId) (kid : Option RecId) : TreeM Unit := do
  let _ ← splice (some parent) none 0 kid

/-- Puts a chain in the place of a kid and answers with the kid, detached. -/
def replace (parent : RecId) (old repl : Option RecId) : TreeM (Option RecId) := do
  let prev := (← get).prevOf? parent old
  splice (some parent) prev 1 repl

def detach (r : RecId) : TreeM (Option RecId) := do
  match ← parent? r with
  | none => broken (utf8 "detach: " ++ (← node r).tag ++ utf8 " has no parent")
  | some p => replace p (some r) none

def merge (first last : Option RecId) : TreeM (Option RecId) := do
  match first, last with
  | none, _ => return last
  | _, none => return first
  | some f, some l =>
    let n ← node f
    let m ← node l
    if n.code ≠ m.code then
      broken (utf8 "merge: " ++ n.code.nameBytes ++ utf8 " and " ++ m.code.nameBytes)
    let ks ← splice (some l) none (-1) none
    if ks.isSome then append f ks
    destroy l
    free l
    return some f

/-- Puts a new unary op between a parent and one of its kids. -/
def wrap (parent kid : RecId) (t : Opcode) : TreeM RecId := do
  let after := (← get).prevOf? parent (some kid)
  let _ ← splice (some parent) after 1 none
  let w ← new t ((← node kid).flags &&& Flags.wantMask)
  let _ ← splice (some w) none 0 (some kid)
  let _ ← splice (some parent) after 0 (some w)
  return w

end TreeM

end OpTree
