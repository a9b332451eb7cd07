import OpTree.Value

/-!
# Arithmetic

Integers stay integers as long as the exact result fits in 64 bits; everything else is computed
with doubles. The remainder takes the sign of its right operand.
-/

namespace OpTree

set_option autoImplicit false

inductive ArithOp where
  | add
  | subtract
  | multiply
  | divide
  | modulo
  deriving Repr, DecidableEq

inductive ArithError where
  | divisionByZero
  | modulusZero
  deriving Repr, DecidableEq

namespace ArithError

def message : ArithError → Bytes
  | divisionByZero => utf8 "Illegal division by zero"
  | modulusZero => utf8 "Illegal modulus zero"

end ArithError

/-! Words wrap. Each operation looks at what came out to see whether it is exact. -/

namespace Word

/-- The quotient toward zero. There is none over zero; the least word over minus one wraps. -/
def quotient (x y : Int64) (_ : y ≠ 0) : Int64 := x / y

/-- What the quotient leaves, with the sign of the left operand. -/
def remainder (x y : Int64) (_ : y ≠ 0) : Int64 := x % y

/-- The sum, unless its sign shows that it wrapped. -/
def sum? (x y : Int64) : Option Int64 :=
  let r := x + y
  if (0 < x ∧ 0 < y ∧ r < 0) ∨ (x < 0 ∧ y < 0 ∧ 0 ≤ r) then none else some r

/-- The difference, unless its sign shows that it wrapped. -/
def difference? (x y : Int64) : Option Int64 :=
  let r := x - y
  if (0 ≤ x ∧ y < 0 ∧ r < 0) ∨ (x < 0 ∧ 0 < y ∧ 0 ≤ r) then none else some r

/-- The product, unless dividing it does not give the left operand back. The division itself wraps
for the least word and minus one. -/
def product? (x y : Int64) : Option Int64 :=
  if h : x = 0 ∨ y = 0 then some 0
  else
    let r := x * y
    if quotient r y (fun e => h (.inr e)) ≠ x ∨ (x = -1 ∧ y = Int64.minValue) ∨
        (y = -1 ∧ x = Int64.minValue) then none
    else some r

def ratio? (x y : Int64) (h : y ≠ 0) : Option Int64 :=
  if remainder x y h = 0 ∧ ¬ (x = Int64.minValue ∧ y = -1) then some (quotient x y h) else none

/-- The remainder with the sign of the right operand. -/
def modulus (x y : Int64) (h : y ≠ 0) : Int64 :=
  let r := remainder x y h
  if r ≠ 0 ∧ decide (r < 0) ≠ decide (y < 0) then r + y else r

end Word

namespace ArithOp

/-- An operation on words; no result where doubles have to take over. -/
def onWords (op : ArithOp) (x y : Int64) : Except ArithError (Option Int64) :=
  match op with
  | add => .ok (Word.sum? x y)
  | subtract => .ok (Word.difference? x y)
  | multiply => .ok (Word.product? x y)
  | divide => if h : y = 0 then .error .divisionByZero else .ok (Word.ratio? x y h)
  | modulo => if h : y = 0 then .error .modulusZero else .ok (some (Word.modulus x y h))

def onFloats (op : ArithOp) (f g : Float) : Except ArithError Number :=
  match op with
  | add => .ok (.float (f + g))
  | subtract => .ok (.float (f - g))
  | multiply => .ok (.float (f * g))
  | divide => if g == 0.0 then .error .divisionByZero else .ok (.float (f / g))
  | modulo => .error .modulusZero

/-- Two words stay words if they can; only the remainder makes words of doubles. -/
def apply (op : ArithOp) (a b : Number) : Except ArithError Number :=
  let words? : Option (Int64 × Int64) := match op, a, b with
    | modulo, a, b => some (a.toInt64, b.toInt64)
    | _, .int x, .int y => some (x, y)
    | _, _, _ => none
  match words? with
  | none => op.onFloats a.toFloat b.toFloat
  | some (x, y) =>
    match op.onWords x y with
    | .error e => .error e
    | .ok (some r) => .ok (.int r)
    | .ok none => op.onFloats a.toFloat b.toFloat

end ArithOp

/-- How two numbers compare; `none` if one of them is no number. -/
def Number.compare? (a b : Number) : Option Ordering :=
  match a, b with
  | .int x, .int y => some (if x < y then .lt else if y < x then .gt else .eq)
  | a, b =>
    let f := a.toFloat
    let g := b.toFloat
    if f.isNaN || g.isNaN then none
    else some (if f < g then .lt else if f > g then .gt else .eq)

/-- The negated number. The least integer has no counterpart and becomes a double. -/
def Number.negated : Number → Number
  | .int v => if v = Int64.minValue then .float (-(Number.int v).toFloat) else .int (-v)
  | .float f => .float (-f)

end OpTree
