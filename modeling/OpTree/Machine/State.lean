import OpTree.Heap
import OpTree.Op.Node
import OpTree.Op.Pad
import OpTree.Failure

/-!
# The machine

A machine runs chains of ops. It has a stack of items, a stack of marks into it, a stack of open
loops, a pad of lexical variables and a heap. Stack slots keep what was last written to them, so a
stack that is cut to a larger height than it has shows old items again.
-/

namespace OpTree

set_option autoImplicit false

/-- What the stack holds. A scalar, an array or a hash may be missing: a pad slot was asked for as
something it is not. -/
inductive Item where
  | scalar (c : Option CellId)
  | array (a : Option ArrayId)
  | hash (h : Option TableId)
  | glob (g : GlobId)
  /-- A slot that was never written. -/
  | vacant
  deriving Repr, DecidableEq, Inhabited

namespace Item

/-- The name of the item's type in messages. -/
def typeName : Item → Bytes
  | scalar _ => utf8 "*run.Scalar"
  | array _ => utf8 "*run.Array"
  | hash _ => utf8 "*run.Hash"
  | glob _ => utf8 "*run.Glob"
  | vacant => utf8 "<nil>"

end Item

inductive PadSlot where
  | scalar (c : CellId)
  | array (a : ArrayId)
  | hash (h : TableId)
  deriving Repr, DecidableEq, Inhabited

namespace PadSlot

def toItem : PadSlot → Item
  | scalar c => .scalar (some c)
  | array a => .array (some a)
  | hash h => .hash (some h)

def scalar? : PadSlot → Option CellId
  | scalar c => some c
  | _ => none

def array? : PadSlot → Option ArrayId
  | array a => some a
  | _ => none

def hash? : PadSlot → Option TableId
  | hash h => some h
  | _ => none

end PadSlot

/-- An open loop: the stack height at its entry, its variable, what the variable held before, and
the range still to run. -/
structure Loop where
  height : Nat
  targ : Int
  saved : PadSlot
  cur : Int64
  hi : Int64
  deriving Repr, Inhabited

structure Machine where
  heap : Heap := {}
  /-- Stack slots; `height` of them are in use. -/
  slots : Array Item := #[]
  height : Nat := 0
  /-- Innermost first. -/
  marks : List Nat := []
  /-- Innermost first. -/
  loops : List Loop := []
  pad : Array PadSlot := #[]
  /-- The context of the caller. -/
  gimme : Want := .void
  /-- The op that ends the running sub. -/
  leave : Option RecId := none
  /-- File and line of the current statement. -/
  place? : Option (Bytes × Int) := none
  hook : WarnHook := .record
  noWarn : Bool := false
  /-- Recorded warnings, last first. -/
  warnings : List Bytes := []
  /-- Warnings that were handed to the hook, last first. -/
  heard : List Bytes := []
  /-- Answers to a text, after those that it got before, why it cannot be written if so. -/
  writer : List Bytes → Bytes → Option Bytes := fun _ _ => none
  /-- Texts that were handed to the writer, last first. -/
  out : List Bytes := []
  result : List Value := []
  /-- The cells that const ops push, by the ids of the ops. -/
  kept : Nat → Option CellId := fun _ => none
  /-- How many ops were executed. -/
  steps : Nat := 0
  deriving Inhabited

abbrev Exec := EStateM Failure Machine

namespace Machine

/-- The shared cells of the two truth values. -/
def yes : CellId := 0
def no : CellId := 1

def ofBool (b : Bool) : CellId := if b then yes else no

/-- A heap that holds nothing but the truth values. -/
def initialHeap : Heap := { cells := #[⟨.bool true, true⟩, ⟨.bool false, true⟩] }

/-- Does memory hold the container of a slot. -/
def canFill (names? : Option Pad) (targ : Int) : Bool :=
  names?.all fun p => p.sigil? targ != some 64 || Arr.canHave (p.shape targ)

/-- The container a slot starts with, made on the heap. -/
def fresh (names? : Option Pad) (h : Heap) (targ : Int) : PadSlot × Heap :=
  let scalar : PadSlot × Heap := let (c, h) := h.newCell .undefined false; (.scalar c, h)
  match names? with
  | none => scalar
  | some p =>
    match p.sigil? targ with
    | some 64 => let (a, h) := h.newArray (.ofShape (p.shape targ)); (.array a, h)
    | some 37 => let (t, h) := h.newTable; (.hash t, h)
    | _ => scalar

/-- A machine on a heap, whose pad has a fresh container for every slot, if memory holds them all. -/
def ofPadOn? (base : Heap) (p : Pad) : Option Machine :=
  let step (s : Array PadSlot × Heap) (i : Nat) : Array PadSlot × Heap :=
    let (x, h) := fresh (some p) s.2 i
    (s.1.push x, h)
  if (List.range p.size).all fun (i : Nat) => canFill (some p) i then
    let (slots, h) := (List.range p.size).foldl step (#[], base)
    some { heap := h, pad := slots }
  else none

/-- A machine on a heap of its own. -/
def ofPad? (p : Pad) : Option Machine := ofPadOn? initialHeap p

def bare : Machine := { heap := initialHeap }

def outText (m : Machine) : Bytes := m.out.reverse.flatten

def warningTexts (m : Machine) : List Bytes := m.warnings.reverse

def stack (m : Machine) : List Item := (m.slots.extract 0 m.height).toList

end Machine

end OpTree
