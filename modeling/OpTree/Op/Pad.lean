import OpTree.Text.Bytes

/-!
# Pads

The lexical variables of a sub by slot. Slot zero is never handed out; a later variable of the
same name hides an earlier one.
-/

namespace OpTree

set_option autoImplicit false

structure PadName where
  name : Bytes
  /-- The fixed size of a shaped array, -1 if there is none. -/
  shape : Int
  deriving Repr, DecidableEq, Inhabited

/-- The names of all slots. -/
structure Pad where
  names : Array PadName := #[⟨[], -1⟩]
  deriving Repr, DecidableEq, Inhabited

namespace Pad

/-- The slot that follows a run of `count` slots from `targ` on. Slots are numbered in 64 bits. -/
def slotAfter (targ count : Int) : Int := (targ + count).bmod (Nat.pow 2 64)

def size (p : Pad) : Nat := p.names.size

/-- Reserves a slot at the end. -/
def add (p : Pad) (name : Bytes) (shape : Int) : Nat × Pad :=
  (p.names.size, ⟨p.names.push ⟨name, shape⟩⟩)

/-- The last slot of a name, or zero. -/
def find (p : Pad) (name : Bytes) : Nat :=
  ((List.range p.names.size).reverse.find? fun i =>
    i != 0 && (p.names.getD i default).name == name).getD 0

/-- The name at a slot that was handed out. -/
def get? (p : Pad) (targ : Int) : Option PadName :=
  if targ ≤ 0 then none else p.names[targ.toNat]?

/-- The first byte of the name, which tells the kind of the variable. -/
def sigil? (p : Pad) (targ : Int) : Option UInt8 := (p.get? targ).bind (·.name.head?)

def shape (p : Pad) (targ : Int) : Int := ((p.get? targ).map (·.shape)).getD (-1)

end Pad

end OpTree
