import OpTree.Build.Fold

/-!
# Building trees

Constructors take finished subtrees, put them under a new op, note the context each operand is
wanted in and fold the result where they can. Branching constructors thread the order of execution
themselves, because kids alone do not determine it.
-/

namespace OpTree

set_option autoImplicit false

structure Stmt where
  label : Bytes := []
  line : Int := 0
  expr? : Option RecId := none
  deriving Repr, Inhabited

namespace Build

open TreeM

def wrongType {α : Type} (what : String) (t : Opcode) : TreeM α :=
  broken (utf8 what ++ utf8 " of type " ++ t.nameBytes)

/-- Wants a scalar unless the context is known already. -/
def scalarOperand (r : RecId) : TreeM Unit :=
  update r fun n => if n.want = .unknown then n.withWant .scalar else n

def listOperand (r : RecId) : TreeM Unit :=
  update r fun n => if n.want = .unknown then n.withWant .list else n

def appendScalar (o k : RecId) : TreeM Unit := do
  scalarOperand k
  append o (some k)

def setFlag (r : RecId) (f : Flags) : TreeM Unit :=
  update r fun n => { n with flags := n.flags ||| f }

def const (v : Value) : TreeM RecId := do
  let o ← new .const 0
  update o fun n => { n with val := .scalar v }
  return o

def pad (t : Opcode) (targ : Int) (p : Priv) : TreeM RecId := do
  match t with
  | .padsv | .padav | .padhv =>
    let o ← new t 0
    update o fun n => { n with targ := targ, priv := p }
    return o
  | _ => wrongType "pad op" t

def padOp (sigil : UInt8) : Opcode :=
  if sigil == 64 then .padav else if sigil == 37 then .padhv else .padsv

/-- Declares a new lexical variable. Only arrays have a shape. -/
def my (name : Bytes) (shape : Int) : TreeM RecId := do
  match name.head? with
  | none => fatal
  | some sigil =>
    let t := padOp sigil
    let targ ← addPad name (if t = .padav then shape else -1)
    pad t targ Priv.intro

def gv (name : Bytes) : TreeM RecId := do
  let o ← new .gv 0
  update o fun n => { n with name := name }
  return o

def checkRv2 (t : Opcode) : TreeM Unit :=
  match t with
  | .rv2sv | .rv2av | .rv2hv => pure ()
  | _ => wrongType "rv2" t

def rv2 (t : Opcode) (kid : RecId) : TreeM RecId := do
  checkRv2 t
  let o ← new t 0
  appendScalar o kid
  return o

def stub : TreeM RecId := new .stub 0

/-- Forces scalar context with a transparent op. -/
def scalar (kid : RecId) : TreeM RecId := do
  let o ← new .scalar (Want.toBits .scalar)
  appendScalar o kid
  return o

def checkClass (c : OpClass) (what : String) (t : Opcode) : TreeM Unit :=
  if t.opClass = c then pure () else wrongType what t

/-- A unary op. Its private bits are known before it is folded. -/
def unop (t : Opcode) (kid? : Option RecId) (p : Priv) : TreeM RecId := do
  checkClass .unop "unop" t
  let o ← new t 0
  update o fun n => { n with priv := p }
  match kid? with
  | some k => appendScalar o k
  | none => pure ()
  fold o

def binop (t : Opcode) (l r : RecId) : TreeM RecId := do
  checkClass .binop "binop" t
  let o ← new t 0
  appendScalar o l
  appendScalar o r
  fold o

/-- A list op: a pushmark, then the operands. -/
def listop (t : Opcode) (kids : List RecId) : TreeM RecId := do
  checkClass .listop "listop" t
  let o ← new t 0
  append o (some (← new .pushmark 0))
  kids.forM fun k => do
    listOperand k
    append o (some k)
  fold o

/-- An element op. The container is taken as it is, and an element that feeds it is told to make
a container of the right kind. -/
def elem (t : Opcode) (c key : RecId) (deref : Priv) : TreeM RecId := do
  setFlag c Flags.ref
  let n ← node c
  match n.code, n.first with
  | .rv2av, some k | .rv2hv, some k =>
    if (← node k).code ≠ .gv then update k fun n => { n with priv := n.priv ||| deref }
  | _, _ => pure ()
  let o ← new t 0
  append o (some c)
  appendScalar o key
  return o

def aelem (c key : RecId) : TreeM RecId := elem .aelem c key Priv.derefAV

def helem (c key : RecId) : TreeM RecId := elem .helem c key Priv.derefHV

/-- A test or a removal of an element. The element op stays in the tree as a null op. -/
def elemop (t : Opcode) (e : RecId) : TreeM RecId := do
  let n ← node e
  match n.code with
  | .aelem | .helem =>
    neutralize e
    let o ← new t 0
    append o (some e)
    return o
  | c => broken (t.nameBytes ++ utf8 " of " ++ c.nameBytes)

def existsElem (e : RecId) : TreeM RecId := elemop .existsElem e

def deleteElem (e : RecId) : TreeM RecId := elemop .deleteElem e

def arylen (av : RecId) : TreeM RecId := do
  setFlag av Flags.ref
  let o ← new .av2arylen 0
  append o (some av)
  return o

def sassign (src dst : RecId) : TreeM RecId := do
  setFlag dst Flags.mod
  let o ← new .sassign 0
  appendScalar o src
  appendScalar o dst
  return o

def checkLogop (t : Opcode) : TreeM Unit :=
  match t with
  | .and | .or | .dor => pure ()
  | _ => wrongType "logop" t

/-- A short-circuit op under a null op. The first operand leads to the op, the op to the null or to
the second operand, and that to the null. -/
def logop (t : Opcode) (first other : RecId) : TreeM RecId := do
  checkLogop t
  let l ← new t 0
  appendScalar l first
  append l (some other)
  let o ← linearize other
  update l fun n => { n with other := o }
  let s ← linearize first
  float l s
  setNext first (some l)
  let n ← new .null 0
  append n (some l)
  setNext other (some n)
  return n

def cond (first t f : RecId) : TreeM RecId := do
  let l ← new .condExpr 0
  appendScalar l first
  append l (some t)
  append l (some f)
  let start ← linearize first
  setNext first (some l)
  let o ← linearize t
  update l fun n => { n with other := o }
  setNext l (← linearize f)
  let n ← new .null 0
  append n (some l)
  setNext t (some n)
  setNext f (some n)
  float n start
  return n

def nextstate (label : Bytes) (line : Int) : TreeM RecId := do
  let o ← new .nextstate 0
  let file := (← get).file
  update o fun n => { n with label := label, line := line, file := file }
  return o

mutual

/-- Marks a node as evaluated for its side effects only. The depth of the tree bounds the walk. -/
def voidFrom : Nat → RecId → TreeM Unit
  | 0, _ => fatal
  | fuel + 1, o => do
    setWant o .void
    match (← node o).code with
    | .null =>
      match (← node o).first with
      | some k => if (← node k).opClass = .logop then voidFrom fuel k
      | none => pure ()
    | .and | .or | .dor => voidFrom fuel (← need (← kid? o 1))
    | .condExpr =>
      voidFrom fuel (← need (← kid? o 1))
      voidFrom fuel (← need (← kid? o 2))
    | .list | .lineseq | .scope => voidAll fuel (← kids o)
    | _ => pure ()

def voidAll : Nat → List RecId → TreeM Unit
  | _, [] => pure ()
  | 0, _ :: _ => fatal
  | fuel + 1, k :: ks => do
    if (← node k).code ≠ .pushmark then voidFrom fuel k
    voidAll fuel ks

end

def void (o : RecId) : TreeM Unit := do voidFrom (2 * (← get).bound) o

/-- Adds the statements of a block to `seq`. Only the last one of a tail keeps its context. -/
def blockItems (seq : RecId) (tail : Bool) : List Stmt → TreeM Unit
  | [] => pure ()
  | s :: rest => do
    append seq (some (← nextstate s.label s.line))
    match s.expr? with
    | none => pure ()
    | some e =>
      if !tail || !rest.isEmpty then void e
      append seq (some e)
    blockItems seq tail rest

def block (stmts : List Stmt) (tail : Bool) : TreeM RecId := do
  let seq ← new .lineseq 0
  blockItems seq tail stmts
  return seq

/-- A loop over an integer range: the loop is entered, then each round is tested, run and cleaned
up until the test fails. -/
def foreach (targ : Int) (lo hi : RecId) (body : List Stmt) : TreeM RecId := do
  let ent ← new .enteriter 0
  update ent fun n => { n with targ := targ }
  appendScalar ent lo
  appendScalar ent hi
  let seq ← block body false
  let unstack ← new .unstack 0
  append seq (some unstack)
  let iter ← new .iter 0
  let wrap ← logop .and iter seq
  setNext unstack (← linearize wrap)
  let o ← new .leaveloop 0
  append o (some ent)
  append o (some wrap)
  return o

def sub (stmts : List Stmt) : TreeM RecId := do
  let o ← new .leavesub 0
  append o (some (← block stmts true))
  update o fun n => { n with refs := 1 }
  return o

end Build

end OpTree
