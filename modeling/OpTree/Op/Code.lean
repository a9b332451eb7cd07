import OpTree.Text.Bytes

/-!
# Opcodes

The closed list of ops with their names, classes, record sizes and what the folder may do with
them. The order of the list is the numbering of the opcodes.
-/

namespace OpTree

set_option autoImplicit false

/-- The shape of an op: which kids it has and which payload. -/
inductive OpClass where
  | base
  | unop
  | binop
  | logop
  | listop
  | loop
  | cop
  | svop
  | padop
  | auxop
  | freed
  deriving Repr, DecidableEq, Inhabited

namespace OpClass

def name : OpClass → String
  | base => "base"
  | unop => "unop"
  | binop => "binop"
  | logop => "logop"
  | listop => "listop"
  | loop => "loop"
  | cop => "cop"
  | svop => "svop"
  | padop => "padop"
  | auxop => "auxop"
  | freed => "freed"

/-- Record size in units. -/
def size : OpClass → Nat
  | base => 1
  | unop => 2
  | binop => 3
  | logop => 3
  | listop => 3
  | loop => 4
  | cop => 4
  | svop => 2
  | padop => 1
  | auxop => 3
  | freed => 1

/-- Does the op keep a link to its last kid. -/
def tracksLast : OpClass → Bool
  | binop | listop | loop => true
  | _ => false

end OpClass

inductive Opcode where
  | null
  | stub
  | freed
  | scalar
  | pushmark
  | const
  | padsv
  | padav
  | padhv
  | padrange
  | gv
  | rv2sv
  | rv2av
  | rv2hv
  | aelem
  | aelemU
  | helem
  | existsElem
  | deleteElem
  | multideref
  | av2arylen
  | sassign
  | add
  | subtract
  | multiply
  | divide
  | modulo
  | concat
  | negate
  | not
  | lt
  | gt
  | le
  | ge
  | eq
  | ne
  | seq
  | sne
  | length
  | lc
  | uc
  | sprintf
  | and
  | or
  | dor
  | condExpr
  | nextstate
  | lineseq
  | scope
  | enteriter
  | iter
  | unstack
  | leaveloop
  | ret
  | leavesub
  | list
  | say
  | die
  deriving Repr, DecidableEq, Inhabited

namespace Opcode

def all : List Opcode :=
  [null, stub, freed, scalar, pushmark, const, padsv, padav, padhv, padrange, gv, rv2sv, rv2av,
    rv2hv, aelem, aelemU, helem, existsElem, deleteElem, multideref, av2arylen, sassign, add,
    subtract, multiply, divide, modulo, concat, negate, not, lt, gt, le, ge, eq, ne, seq, sne,
    length, lc, uc, sprintf, and, or, dor, condExpr, nextstate, lineseq, scope, enteriter, iter,
    unstack, leaveloop, ret, leavesub, list, say, die]

def toNat (t : Opcode) : Nat := t.ctorIdx

def ofNat? (n : Nat) : Option Opcode := all[n]?

def name : Opcode → String
  | null => "null"
  | stub => "stub"
  | freed => "freed"
  | scalar => "scalar"
  | pushmark => "pushmark"
  | const => "const"
  | padsv => "padsv"
  | padav => "padav"
  | padhv => "padhv"
  | padrange => "padrange"
  | gv => "gv"
  | rv2sv => "rv2sv"
  | rv2av => "rv2av"
  | rv2hv => "rv2hv"
  | aelem => "aelem"
  | aelemU => "aelem_u"
  | helem => "helem"
  | existsElem => "exists"
  | deleteElem => "delete"
  | multideref => "multideref"
  | av2arylen => "av2arylen"
  | sassign => "sassign"
  | add => "add"
  | subtract => "subtract"
  | multiply => "multiply"
  | divide => "divide"
  | modulo => "modulo"
  | concat => "concat"
  | negate => "negate"
  | not => "not"
  | lt => "lt"
  | gt => "gt"
  | le => "le"
  | ge => "ge"
  | eq => "eq"
  | ne => "ne"
  | seq => "seq"
  | sne => "sne"
  | length => "length"
  | lc => "lc"
  | uc => "uc"
  | sprintf => "sprintf"
  | and => "and"
  | or => "or"
  | dor => "dor"
  | condExpr => "cond_expr"
  | nextstate => "nextstate"
  | lineseq => "lineseq"
  | scope => "scope"
  | enteriter => "enteriter"
  | iter => "iter"
  | unstack => "unstack"
  | leaveloop => "leaveloop"
  | ret => "return"
  | leavesub => "leavesub"
  | list => "list"
  | say => "say"
  | die => "die"

def nameBytes (t : Opcode) : Bytes := utf8 t.name

/-- The opcode of a name. -/
def ofName? (s : Bytes) : Option Opcode := all.find? fun t => t.nameBytes == s

/-- The name of a number; numbers without an opcode show themselves. -/
def nameOfNat (n : Nat) : Bytes :=
  match ofNat? n with
  | some t => t.nameBytes
  | none => utf8 "op" ++ Bytes.ofNat n

def opClass : Opcode → OpClass
  | null | scalar | rv2sv | rv2av | rv2hv | existsElem | deleteElem | av2arylen | negate | not
  | length | lc | uc | leavesub => .unop
  | stub | pushmark | iter | unstack => .base
  | freed => .freed
  | const | gv => .svop
  | padsv | padav | padhv | padrange => .padop
  | aelem | aelemU | helem | sassign | add | subtract | multiply | divide | modulo | concat | lt
  | gt | le | ge | eq | ne | seq | sne | leaveloop => .binop
  | multideref => .auxop
  | and | or | dor | condExpr => .logop
  | nextstate => .cop
  | enteriter => .loop
  | sprintf | lineseq | scope | ret | list | say | die => .listop

def size (t : Opcode) : Nat := t.opClass.size

/-- May the op be replaced by its value when its operands are constants. -/
def foldable : Opcode → Bool
  | add | subtract | multiply | divide | modulo | concat | lt | gt | le | ge | eq | ne | seq | sne
  | negate | not | length | lc | uc | sprintf => true
  | _ => false

/-- May the op occur inside of a chain that is being folded. -/
def foldSafe : Opcode → Bool
  | null | scalar | pushmark | const | list => true
  | t => t.foldable

def branches : Opcode → Bool
  | and | or | dor | condExpr => true
  | _ => false

def tracksLast (t : Opcode) : Bool := t.opClass.tracksLast

theorem foldSafe_of_foldable {t : Opcode} (h : t.foldable = true) : t.foldSafe = true := by
  cases t <;> simp_all [foldable, foldSafe]

theorem branches_iff_logop (t : Opcode) : t.branches = true ↔ t.opClass = .logop := by
  cases t <;> decide

end Opcode

end OpTree
