import OpTree.Machine.Stack

/-!
# Conversions with warnings

An op that needs a number or a text warns about what it gets instead, naming itself.
-/

namespace OpTree

set_option autoImplicit false

namespace Opcode

/-- What warnings call an op. -/
def description : Opcode → Bytes
  | add => utf8 "addition (+)"
  | subtract => utf8 "subtraction (-)"
  | multiply => utf8 "multiplication (*)"
  | divide => utf8 "division (/)"
  | modulo => utf8 "modulus (%)"
  | concat => utf8 "concatenation (.) or string"
  | negate => utf8 "negation (-)"
  | lt => utf8 "numeric lt (<)"
  | gt => utf8 "numeric gt (>)"
  | le => utf8 "numeric le (<=)"
  | ge => utf8 "numeric ge (>=)"
  | eq => utf8 "numeric eq (==)"
  | ne => utf8 "numeric ne (!=)"
  | seq => utf8 "string eq"
  | sne => utf8 "string ne"
  | aelem => utf8 "array element"
  | aelemU => utf8 "array element"
  | helem => utf8 "hash element"
  | enteriter => utf8 "foreach loop entry"
  | t => t.nameBytes

end Opcode

namespace Exec

def warnUndefined (t : Opcode) : Exec Unit :=
  warn (utf8 "Use of uninitialized value in " ++ t.description)

def toNumber (c : Option CellId) (t : Opcode) : Exec Number := do
  let v ← valueOf c
  if v.defined then
    let (n, ok) := v.number
    if !ok then
      warn (utf8 "Argument \"" ++ v.text ++ utf8 "\" isn't numeric in " ++ t.description)
    return n
  else
    warnUndefined t
    return .int 0

def toInt (c : Option CellId) (t : Opcode) : Exec Int64 := do
  return (← toNumber c t).toInt64

def toText (c : Option CellId) (t : Opcode) : Exec Bytes := do
  let v ← valueOf c
  if !v.defined then warnUndefined t
  return v.text

end Exec

end OpTree
