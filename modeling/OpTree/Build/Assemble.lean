import OpTree.Build.Basic
import OpTree.Listing.Sub

/-!
# Assembling listings

The forms of a sub become the tree of a unit. A form is a literal, a variable or a list that names
an op; variables that are not declared are package variables.
-/

namespace OpTree

set_option autoImplicit false

namespace Form

mutual

def depth : Form → Nat
  | list _ _ items => depthAll items + 1
  | _ => 1

def depthAll : List Form → Nat
  | [] => 0
  | f :: fs => max (depth f) (depthAll fs)

end

end Form

namespace Assemble

open TreeM

/-- The value of an integer literal. One that is too large for 64 bits is a double, and one that
is no number at all is zero. -/
def intValue (s : Bytes) : Value :=
  match Literal.int? s with
  | some v => .int v
  | none =>
    match Literal.float s with
    | .value f => .float f
    | _ => .int 0

def unops : List (String × Opcode) :=
  [("negate", .negate), ("not", .not), ("length", .length), ("lc", .lc), ("uc", .uc)]

def binops : List (String × Opcode) :=
  [("add", .add), ("subtract", .subtract), ("multiply", .multiply), ("divide", .divide),
    ("modulo", .modulo), ("concat", .concat), ("lt", .lt), ("gt", .gt), ("le", .le), ("ge", .ge),
    ("eq", .eq), ("ne", .ne), ("seq", .seq), ("sne", .sne)]

def listops : List (String × Opcode) :=
  [("list", .list), ("return", .ret), ("say", .say), ("die", .die), ("sprintf", .sprintf)]

def logops : List (String × Opcode) := [("and", .and), ("or", .or), ("dor", .dor)]

/-- What the head of a list asks for. -/
inductive Head where
  | unop (t : Opcode)
  | binop (t : Opcode)
  | listop (t : Opcode)
  | logop (t : Opcode)
  | const
  | stub
  | scalar
  | my
  | pad (t : Opcode)
  | gv
  | rv2 (t : Opcode)
  | aelem
  | helem
  | existsElem
  | deleteElem
  | arylen
  | sassign
  | cond
  | foreach
  | unknown
  deriving Repr, DecidableEq

def lookup (table : List (String × Opcode)) (s : Bytes) : Option Opcode :=
  (table.find? fun p => utf8 p.1 == s).map (·.2)

def others : List (String × Head) :=
  [("const", .const), ("stub", .stub), ("scalar", .scalar), ("my", .my), ("padsv", .pad .padsv),
    ("padav", .pad .padav), ("padhv", .pad .padhv), ("gv", .gv), ("rv2sv", .rv2 .rv2sv),
    ("rv2av", .rv2 .rv2av), ("rv2hv", .rv2 .rv2hv), ("aelem", .aelem), ("helem", .helem),
    ("exists", .existsElem), ("delete", .deleteElem), ("arylen", .arylen), ("sassign", .sassign),
    ("if", .cond), ("foreach", .foreach)]

def headOf (s : Bytes) : Head :=
  match lookup unops s, lookup binops s, lookup listops s, lookup logops s with
  | some t, _, _, _ => .unop t
  | _, some t, _, _ => .binop t
  | _, _, some t, _ => .listop t
  | _, _, _, some t => .logop t
  | _, _, _, _ => ((others.find? fun p => utf8 p.1 == s).map (·.2)).getD .unknown

structure Modifiers where
  intro : Bool := false
  locale : Bool := false
  deriving Repr, DecidableEq

/-- Takes modifiers off the end; `args` are in reverse. -/
def takeModifiers (src : Source) (mods : Modifiers) : List Form → List Form × Modifiers
  | .atom p s :: rest =>
    let t := slice src.text p s
    if t == utf8 "intro" then takeModifiers src { mods with intro := true } rest
    else if t == utf8 "locale" then takeModifiers src { mods with locale := true } rest
    else (.atom p s :: rest, mods)
  | args => (args, mods)

def complain {α : Type} (src : Source) (f : Form) (msg : Bytes) : TreeM α :=
  throw (Sub.complain src f msg)

def splitList (src : Source) (l : Form) (items : List Form) :
    TreeM (Bytes × List Form × Modifiers) :=
  match items with
  | [] => complain src l (utf8 "empty form")
  | .atom p s :: rest =>
    let (args, mods) := takeModifiers src {} rest.reverse
    return (slice src.text p s, args.reverse, mods)
  | _ => complain src l (utf8 "op name expected")

/-- A lexical variable if the name is declared, else a package variable. -/
def readVar (name : Bytes) : TreeM RecId := do
  let sigil := name.head?.getD 0
  let targ := (← get).pad.find name
  if targ ≠ 0 then Build.pad (Build.padOp sigil) targ 0
  else
    let rv : Opcode := if sigil == 64 then .rv2av else if sigil == 37 then .rv2hv else .rv2sv
    let g ← Build.gv name.tail
    Build.rv2 rv g

/-- Takes a scalar that holds a reference as the container it refers to. -/
def container (c : RecId) (rv : Opcode) : TreeM RecId := do
  match (← node c).code with
  | .padav | .padhv | .rv2av | .rv2hv => return c
  | _ => Build.rv2 rv c

def floatFailure (why text : Bytes) : Bytes :=
  utf8 "bad float: strconv.ParseFloat: parsing " ++ Quoted.text text ++ utf8 ": " ++ why

def checkCount (src : Source) (l : Form) (head : Bytes) (n lo : Nat) (hi? : Option Nat) :
    TreeM Unit :=
  if n < lo || (hi?.any fun hi => decide (hi < n)) then
    complain src l (head ++ utf8 ": wrong number of arguments: " ++ Bytes.ofNat n)
  else pure ()

def lineOf (src : Source) (f : Form) : Int :=
  match f.span? with
  | some (p, _) => src.line p
  | none => 0

/-- Label and expression of a statement form. -/
def splitStmt (src : Source) (f : Form) : Except Failure (Bytes × Option Form) :=
  match f with
  | .list _ _ (.atom p s :: items) =>
    if slice src.text p s == utf8 "stmt" then
      let (label, items) := match items with
        | .atom p s :: rest =>
          match slice src.text p s with
          | 58 :: l => (l, rest)
          | _ => (([] : Bytes), items)
        | _ => (([] : Bytes), items)
      match items with
      | [] => .ok (label, none)
      | [e] => .ok (label, some e)
      | _ => .error (Sub.complain src f (utf8 "one expression per statement"))
    else .ok ([], some f)
  | _ => .ok ([], some f)

def shapeOf (src : Source) (f : Form) : TreeM Int :=
  match f with
  | .int p s =>
    match Literal.decimalInt? (slice src.text p s) with
    | some v =>
      if 0 ≤ v then return v.toInt else complain src f (utf8 "my: bad array shape")
    | none => complain src f (utf8 "my: bad array shape")
  | _ => complain src f (utf8 "my: array shape expected")

/-- The ops whose operands are plain expressions. -/
def operator (src : Source) (l : Form) (head : Head) (mods : Modifiers) (kids : List RecId) :
    TreeM RecId := do
  match head, kids with
  | .unop t, [a] => Build.unop t (some a) (if mods.locale then Priv.locale else 0)
  | .binop t, [a, b] => Build.binop t a b
  | .listop t, ks => Build.listop t ks
  | .logop t, [a, b] => Build.logop t a b
  | .const, [a] =>
    if (← node a).code = .const then return a
    else complain src l (utf8 "literal expected")
  | .scalar, [a] => Build.scalar a
  | .rv2 t, [a] => Build.rv2 t a
  | .aelem, [a, b] => do Build.aelem (← container a .rv2av) b
  | .helem, [a, b] => do Build.helem (← container a .rv2hv) b
  | .existsElem, [a] =>
    match (← node a).code with
    | .aelem | .helem => Build.existsElem a
    | _ => complain src l (utf8 "exists argument is not an element")
  | .deleteElem, [a] =>
    match (← node a).code with
    | .aelem | .helem => Build.deleteElem a
    | _ => complain src l (utf8 "delete argument is not an element")
  | .arylen, [a] => do Build.arylen (← container a .rv2av)
  | .sassign, [a, b] => Build.sassign a b
  | .cond, [a, b] => do Build.cond a b (← Build.stub)
  | .cond, [a, b, c] => Build.cond a b c
  | _, _ => fatal

/-- How many operands an op takes; `none` as the upper bound stands for any number. -/
def arity : Head → Nat × Option Nat
  | .unop _ | .const | .scalar | .rv2 _ | .existsElem | .deleteElem | .arylen => (1, some 1)
  | .binop _ | .logop _ | .aelem | .helem | .sassign => (2, some 2)
  | .cond => (2, some 3)
  | _ => (0, none)

/-- A declaration: a variable with an initial value, an array with a shape, or just a name. `sub`
builds the operands here and below. -/
def declare (src : Source) (sub : Form → TreeM RecId) (l : Form) (args : List Form) :
    TreeM RecId := do
  match args with
  | .var p s :: rest =>
    let name := slice src.text p s
    match rest with
    | [] => Build.my name (-1)
    | [x] =>
      match name.head? with
      | some 64 => do Build.my name (← shapeOf src x)
      | some 36 =>
        let init ← sub x
        let o ← Build.my name (-1)
        Build.sassign init o
      | _ => complain src l (utf8 "my: unexpected initializer")
    | _ => complain src l (utf8 "my: variable expected")
  | [x] | [x, _] => complain src x (utf8 "my: variable expected")
  | _ => complain src l (utf8 "my: variable expected")

def stmt (src : Source) (sub : Form → TreeM RecId) (f : Form) : TreeM Stmt := do
  match splitStmt src f with
  | .error why => throw why
  | .ok (label, none) => return { label := label, line := lineOf src f }
  | .ok (label, some e) =>
    return { label := label, line := lineOf src f, expr? := some (← sub e) }

/-- A loop over a range. Its bounds do not see its variable. -/
def loop (src : Source) (sub : Form → TreeM RecId) (l : Form) (args : List Form) :
    TreeM RecId := do
  match args with
  | .var p s :: lo :: hi :: body =>
    let name := slice src.text p s
    if name.head? ≠ some 36 then
      complain src (.var p s) (utf8 "foreach: scalar variable expected")
    else
      let lo ← sub lo
      let hi ← sub hi
      let targ ← addPad name (-1)
      let body ← body.mapM (stmt src sub)
      Build.foreach targ lo hi body
  | v :: _ :: _ :: _ => complain src v (utf8 "foreach: scalar variable expected")
  | _ => complain src l (utf8 "foreach: variable and range expected")

def readPad (src : Source) (l : Form) (t : Opcode) (args : List Form) (mods : Modifiers) :
    TreeM RecId := do
  match args with
  | [.var p s] =>
    let v := slice src.text p s
    let targ := (← get).pad.find v
    if targ = 0 then complain src (.var p s) (v ++ utf8 " is not declared")
    else Build.pad t targ (if mods.intro then Priv.intro else 0)
  | [x] => complain src x (utf8 "variable expected")
  | _ => complain src l (t.nameBytes ++ utf8 ": one variable expected")

def readGlob (src : Source) (l : Form) (args : List Form) : TreeM RecId :=
  match args with
  | [.atom p s] => Build.gv (slice src.text p s)
  | [.str _ _ v] => Build.gv v
  | [x] => complain src x (utf8 "gv: name expected")
  | _ => complain src l (utf8 "gv: name expected")

def list (src : Source) (sub : Form → TreeM RecId) (l : Form) (items : List Form) :
    TreeM RecId := do
  let (name, args, mods) ← splitList src l items
  match headOf name with
  | .unknown => complain src l (utf8 "unknown op " ++ Quoted.text name)
  | .stub => Build.stub
  | .my => declare src sub l args
  | .pad t => readPad src l t args mods
  | .gv => readGlob src l args
  | .foreach => loop src sub l args
  | head =>
    let (lo, hi?) := arity head
    checkCount src l name args.length lo hi?
    operator src l head mods (← args.mapM sub)

def float (src : Source) (f : Form) (text : Bytes) : TreeM RecId :=
  match Literal.float text with
  | .value v => Build.const (.float v)
  | .tooLarge _ => complain src f (floatFailure (utf8 "value out of range") text)
  | .malformed => complain src f (floatFailure (utf8 "invalid syntax") text)

/-- The tree of an expression. `fuel` is at least the depth of the form. -/
def expr (src : Source) : Nat → Form → TreeM RecId
  | 0, _ => fatal
  | fuel + 1, f =>
    match f with
    | .int p s => Build.const (intValue (slice src.text p s))
    | .float p s => float src f (slice src.text p s)
    | .str _ _ v => Build.const (.str v)
    | .var p s => readVar (slice src.text p s)
    | .atom p s =>
      let t := slice src.text p s
      if t == utf8 "undef" then Build.stub
      else complain src f (utf8 "unexpected atom " ++ Quoted.text t)
    | .list _ _ items => list src (expr src fuel) f items
    | .fixed _ => complain src f (utf8 "unexpected parse.Const")
    | .word _ => complain src f (utf8 "unexpected parse.Ident")

end Assemble

namespace TreeM

/-- Builds the body of a sub; the answer is the root of its unit. -/
def assemble (src : Source) (s : Sub) : TreeM RecId := do
  let stmts ← s.body.mapM (Assemble.stmt src (Assemble.expr src (Form.depthAll s.body + 1)))
  let stmts ← if stmts.isEmpty then pure [{ expr? := some (← Build.stub) }] else pure stmts
  Build.sub stmts

end TreeM

end OpTree
