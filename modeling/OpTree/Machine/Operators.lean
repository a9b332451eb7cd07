import OpTree.Arith
import OpTree.Machine.Sprintf
import OpTree.Text.Letter

/-!
# Operators

Ops that compute a scalar from scalars: arithmetic, comparison, texts.
-/

namespace OpTree

set_option autoImplicit false

namespace Opcode

/-- Does an outcome of a comparison satisfy a comparing op. What cannot be compared is only
unequal. -/
def accepts (t : Opcode) (c : Option Ordering) : Bool :=
  match t, c with
  | lt, some c => c == .lt
  | gt, some c => c == .gt
  | le, some c => c != .gt
  | ge, some c => c != .lt
  | eq, some c => c == .eq
  | ne, some c => c != .eq
  | ne, none => true
  | _, _ => false

end Opcode

namespace Exec

def popPair : Exec (Option CellId × Option CellId) := do
  let r ← popScalar
  let l ← popScalar
  return (l, r)

def arith (op : ArithOp) (t : Opcode) : Exec Unit := do
  let (l, r) ← popPair
  let a ← toNumber l t
  let b ← toNumber r t
  match op.apply a b with
  | .ok n => pushValue n.toValue
  | .error e => throwAt e.message

def compareNumbers (t : Opcode) : Exec Unit := do
  let (l, r) ← popPair
  let a ← toNumber l t
  let b ← toNumber r t
  pushBool (t.accepts (a.compare? b))

def compareTexts (t : Opcode) : Exec Unit := do
  let (l, r) ← popPair
  let a ← toText l t
  let b ← toText r t
  pushBool ((a == b) == (t == .seq))

def concat (t : Opcode) : Exec Unit := do
  let (l, r) ← popPair
  let a ← toText l t
  let b ← toText r t
  pushValue (.str (a ++ b))

/-- A text that is no number is negated by its sign: a word gets a minus, a leading sign flips. -/
def negatedText? (s : Bytes) : Option Bytes :=
  if s.isEmpty || (Number.ofText s).2 then none
  else match Bytes.runes s with
    | r :: rest =>
      let flips : Bool := match rest with
        | d :: _ => !Rune.isDigit d
        | [] => false
      if Rune.isLetter r || r == 95 then some (45 :: s)
      else if r == 45 && flips then some (43 :: Bytes.ofRunes rest)
      else if r == 43 && flips then some (45 :: Bytes.ofRunes rest)
      else none
    | [] => none

def negate (t : Opcode) : Exec Unit := do
  let c ← popScalar
  let (_, cell) ← cellOf c
  let flipped? := match cell.value with
    | .str s => negatedText? s
    | _ => none
  match flipped? with
  | some s => pushValue (.str s)
  | none => pushValue (← toNumber c t).negated.toValue

def logicalNot : Exec Unit := do
  let v ← valueOf (← popScalar)
  pushBool (!v.truth)

/-- Is only the truth of the op's value used. -/
def onlyTruth (o : Node) : Exec Bool := do
  return o.priv.has Priv.trueBool ||
    (o.priv.has Priv.maybeTrueBool && (← get).gimme == .void)

def length (o : Node) : Exec Unit := do
  let v ← valueOf (← popScalar)
  match v.runeLength with
  | none => pushValue .undefined
  | some n =>
    if ← onlyTruth o then pushBool (n != 0) else pushValue (.int (Int64.ofNat n))

def changeCase (t : Opcode) : Exec Unit := do
  let s ← toText (← popScalar) t
  pushValue (.str (if t == .lc then Bytes.toLower s else Bytes.toUpper s))

def formatItems (t : Opcode) : Exec Unit := do
  match ← items with
  | [] => pushValue (.str [])
  | f :: args =>
    let format ← toText f t
    pushValue (.str (← sprintf format args))

end Exec

end OpTree
