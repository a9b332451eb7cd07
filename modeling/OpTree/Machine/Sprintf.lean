import OpTree.Machine.Convert
import OpTree.Format.Directive
import OpTree.Format.Field

/-!
# Formatted printing

Directives take their arguments from a list of scalars. The first failed conversion is kept and
ends the formatting, but the directive it belongs to still takes the rest of its arguments.
-/

namespace OpTree

set_option autoImplicit false

structure Formatting where
  args : List (Option CellId)
  failure? : Option Failure := none
  /-- Printed pieces, last first. -/
  pieces : List Bytes := []

abbrev FormatM := StateT Formatting Exec

namespace FormatM

variable {α : Type}

def emit (b : Bytes) : FormatM Unit := modify fun s => { s with pieces := b :: s.pieces }

def keep (why : Failure) : FormatM Unit :=
  modify fun s => { s with failure? := s.failure?.or (some why) }

/-- Runs a conversion; a failure is kept and answered with `none`. -/
def attempt (x : Exec α) : FormatM (Option α) := do
  let r : Except Failure α ← (tryCatch (do return .ok (← x)) fun e => return .error e : Exec _)
  match r with
  | .ok a => return some a
  | .error e =>
    keep e
    return none

/-- The next argument; a missing one is undefined and worth a warning. -/
def next : FormatM (Option CellId) := do
  match (← get).args with
  | c :: rest =>
    modify fun s => { s with args := rest }
    return c
  | [] =>
    let _ ← attempt (Exec.warn (utf8 "Missing argument in sprintf"))
    return none

def replaceStar (sub : Bytes) : Bytes → Bytes
  | [] => []
  | b :: r => if b == 42 then sub ++ r else b :: replaceStar sub r

/-- A width or precision with its first star taken from the arguments. -/
def resolveStar (spec : Bytes) : FormatM Bytes := do
  if spec.contains 42 then
    let c ← next
    let v ← attempt (Exec.toInt c .sprintf)
    return replaceStar (Bytes.ofInt (v.getD 0).toInt) spec
  else return spec

/-- An integer argument; a failed conversion counts as zero. -/
def intArg : FormatM Int64 := do
  return (← attempt (Exec.toInt (← next) .sprintf)).getD 0

def low32 (v : Int64) : Int := v.toInt.bmod (Nat.pow 2 32)

/-- All code points of the next argument as numbers, with points between them. -/
def vector (spec : Bytes) : FormatM Unit := do
  let v ← (Exec.valueOf (← next) : Exec _)
  let fields := (Bytes.runes v.text).map fun r : Nat => Field.print (spec ++ [100]) (.rune r)
  emit (Bytes.intercalate [46] fields)

def directive (d : Directive) : FormatM Unit := do
  if (← get).failure?.isSome then return
  let width ← resolveStar d.width
  let prec ← resolveStar d.prec
  let (flags, width) := match width with
    | 45 :: w => (d.flags ++ [45], w)
    | w => (d.flags, w)
  let spec := flags ++ width ++ prec
  match d.verb.toNat with
  | 37 => emit [37]
  | 99 =>
    let v ← intArg
    emit (Field.print (spec ++ [99]) (.rune (low32 v)))
  | 115 =>
    let s ← attempt (Exec.toText (← next) .sprintf)
    emit (Field.print (spec ++ [115]) (.text (s.getD [])))
  | 100 | 105 | 117 =>
    if d.vector then vector spec
    else
      let v ← intArg
      emit (Field.print (spec ++ [100]) (.int v.toInt))
  | 120 | 88 | 111 | 98 | 66 =>
    let v ← intArg
    let verb := if d.verb == 66 then 98 else d.verb
    emit (Field.print (spec ++ [verb]) (.word v.toUInt64.toNat))
  | 101 | 69 | 102 | 70 | 103 | 71 =>
    match ← attempt (Exec.toNumber (← next) .sprintf) with
    | some n => emit (Field.print (spec ++ [d.verb]) (.float n.toFloat))
    | none => (Exec.fatal : Exec Unit)
  | 110 => return
  | _ =>
    let _ ← attempt (Exec.warn (utf8 "Invalid conversion in sprintf: \"" ++ d.raw ++ [34]))
    emit d.raw

def part : FormatPart → FormatM Unit
  | .text s => emit s
  | .directive d => directive d

end FormatM

namespace Exec

def sprintf (format : Bytes) (args : List (Option CellId)) : Exec Bytes := do
  let (_, s) ← ((FormatPart.parse format).forM FormatM.part).run { args := args }
  match s.failure? with
  | some why => throw why
  | none =>
    if !s.args.isEmpty then warn (utf8 "Redundant argument in sprintf")
    return s.pieces.reverse.flatten

end Exec

end OpTree
