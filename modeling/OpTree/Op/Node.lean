import OpTree.Op.Code
import OpTree.Op.Flags
import OpTree.Op.Action
import OpTree.Value

/-!
# Nodes

One op is one record. The links `first`, `last` and `sib` make the tree, `next` and `other` make the
order of execution. A node whose `real` flag is off is the root of a floating subtree: its `next`
is then where the subtree starts.
-/

namespace OpTree

set_option autoImplicit false

/-- A record, named by its number in the arena. A record outlives the node it holds. -/
abbrev RecId := Nat

/-- Either the next sibling (`more`) or, for the last kid, the parent. -/
structure Sib where
  target : Option RecId := none
  more : Bool := false
  deriving Repr, DecidableEq, Inhabited

namespace Sib

def sibling? (s : Sib) : Option RecId := if s.more then s.target else none

def parent? (s : Sib) : Option RecId := if s.more then none else s.target

/-- The link to a sibling; there may be none. -/
def next (r : Option RecId) : Sib := ⟨r, r.isSome⟩

/-- The link of a last kid. -/
def up (r : RecId) : Sib := ⟨some r, false⟩

end Sib

/-- The value a node carries: a read-only scalar, or a value that is not wrapped into one. -/
inductive Payload where
  | none
  | scalar (v : Value)
  | bare (v : Value)
  deriving Repr, Inhabited

namespace Payload

def value : Payload → Value
  | none => .undefined
  | scalar v => v
  | bare v => v

end Payload

structure Node where
  code : Opcode := .null
  /-- The opcode before the node was neutralized or freed. -/
  ex : Opcode := .null
  flags : Flags := 0
  priv : Priv := 0
  targ : Int := 0
  first : Option RecId := .none
  last : Option RecId := .none
  sib : Sib := {}
  next : Option RecId := .none
  real : Bool := false
  /-- The second successor of a branching op. -/
  other : Option RecId := .none
  val : Payload := .none
  path : Option Path := .none
  name : Bytes := []
  file : Bytes := []
  line : Int := 0
  label : Bytes := []
  count : Int := 0
  refs : Int := 0
  id : Nat := 0
  processed : Bool := false
  pinned : Bool := false
  /-- Static records belong to no slab. -/
  static : Bool := false
  size : Int := 0
  deriving Repr, Inhabited

namespace Node

def want (n : Node) : Want := Want.ofBits n.flags

def withWant (n : Node) (w : Want) : Node := { n with flags := n.flags.withWant w }

/-- Was the node something else before it was neutralized. -/
def isEx (n : Node) : Bool := n.code == .null && n.ex != .null

/-- The class of the node, or of what it was before it was neutralized. -/
def opClass (n : Node) : OpClass := if n.isEx then n.ex.opClass else n.code.opClass

/-- `name#id`. -/
def tag (n : Node) : Bytes := n.code.nameBytes ++ [35] ++ Bytes.ofNat n.id

def sibling? (n : Node) : Option RecId := n.sib.sibling?

def isNull (n : Node) (exs : List Opcode) : Bool :=
  n.code == .null && (exs.isEmpty || exs.contains n.ex)

/-- Makes a null op of the node. Links stay, so that jumps to it still land somewhere. -/
def neutralized (n : Node) : Node :=
  if n.code == .null then n else { n with ex := n.code, code := .null }

/-- Passes control on without doing anything. -/
def transparent (n : Node) : Bool :=
  match n.code with
  | .null | .scalar | .lineseq | .scope => true
  | _ => false

/-- A read of a lexical scalar without side effects. -/
def isPlainPadsv (n : Node) : Bool :=
  n.code == .padsv && !n.flags.has (Flags.mod ||| Flags.ref) &&
    !n.priv.has (Priv.intro ||| Priv.derefAV ||| Priv.derefHV)

/-- The integer a const op holds. -/
def constInt? (n : Node) : Option Int64 :=
  if n.code == .const then
    match n.val.value with
    | .int v => some v
    | _ => none
  else none

theorem const_of_constInt? {n : Node} {v : Int64} (h : n.constInt? = some v) :
    n.code = .const ∧ n.val.value = .int v := by
  unfold constInt? at h
  split at h
  · rename_i hcode
    split at h
    · rename_i hv
      obtain rfl := Option.some.inj h
      exact ⟨by simpa using hcode, hv⟩
    · cases h
  · cases h

@[simp] theorem neutralized_next (n : Node) : n.neutralized.next = n.next := by
  unfold neutralized
  split <;> rfl

theorem neutralized_code (n : Node) : n.neutralized.code = .null := by
  unfold neutralized
  split
  · simp_all
  · rfl

end Node

end OpTree
