/-!
# Flags and contexts

An op carries public flags, whose two low bits are the context its value is wanted in, and private
bits whose meaning belongs to the op.
-/

namespace OpTree

set_option autoImplicit false

/-- The context a value is wanted in; `unknown` is decided by the caller of the sub. -/
inductive Want where
  | unknown
  | void
  | scalar
  | list
  deriving Repr, DecidableEq, Inhabited

namespace Want

def name : Want → String
  | unknown => "unknown"
  | void => "void"
  | scalar => "scalar"
  | list => "list"

def toBits : Want → UInt16
  | unknown => 0
  | void => 1
  | scalar => 2
  | list => 3

/-- The context in the two low bits. -/
def ofBits (b : UInt16) : Want :=
  match (b &&& 3).toNat with
  | 0 => unknown
  | 1 => void
  | 2 => scalar
  | _ => list

theorem ofBits_toBits (w : Want) : ofBits w.toBits = w := by cases w <;> rfl

end Want

/-- Public flags of an op. -/
abbrev Flags := UInt16

namespace Flags

def wantMask : Flags := 3
def kids : Flags := 4
def parens : Flags := 8
def ref : Flags := 16
def mod : Flags := 32
def stacked : Flags := 64
def special : Flags := 128

def names : List (Flags × String) :=
  [(kids, "KIDS"), (parens, "PARENS"), (ref, "REF"), (mod, "MOD"), (stacked, "STACKED"),
    (special, "SPECIAL")]

def has (f bit : Flags) : Bool := (f &&& bit) != 0

def withWant (f : Flags) (w : Want) : Flags := (f &&& ~~~wantMask) ||| w.toBits

end Flags

/-- Private bits of an op. -/
abbrev Priv := UInt16

namespace Priv

def intro : Priv := 1
def derefAV : Priv := 2
def derefHV : Priv := 4
def trueBool : Priv := 8
def maybeTrueBool : Priv := 16
def existsElem : Priv := 32
def deleteElem : Priv := 64
def short : Priv := 128
def folded : Priv := 256
def locale : Priv := 512

def names : List (Priv × String) :=
  [(intro, "intro"), (derefAV, "deref_av"), (derefHV, "deref_hv"), (trueBool, "bool"),
    (maybeTrueBool, "maybe_bool"), (existsElem, "exists"), (deleteElem, "delete"),
    (short, "short"), (folded, "folded"), (locale, "locale")]

def has (p bit : Priv) : Bool := (p &&& bit) != 0

/-- Does the op vivify a container in its value. -/
def derefs (p : Priv) : Bool := p.has (derefAV ||| derefHV)

end Priv

end OpTree
