import OpTree.Text.Bytes

/-!
# Access paths

A fused access chain is a list of items, one per level. The action of an item is a byte: its low
four bits say which container the level starts from, the next two what the index is, and one bit
drops the bounds check.
-/

namespace OpTree

set_option autoImplicit false

structure Action where
  byte : UInt8
  deriving Repr, DecidableEq, Inhabited

namespace Action

def padavAelem : Action := ⟨1⟩
def padhvHelem : Action := ⟨2⟩
def gvavAelem : Action := ⟨3⟩
def gvhvHelem : Action := ⟨4⟩
def padsvRv2avAelem : Action := ⟨5⟩
def padsvRv2hvHelem : Action := ⟨6⟩
def rv2avAelem : Action := ⟨7⟩
def rv2hvHelem : Action := ⟨8⟩

def idxConst : UInt8 := 16
def idxPadsv : UInt8 := 32
def uncheckedBit : UInt8 := 64

def kind (a : Action) : UInt8 := a.byte &&& 15

def index (a : Action) : UInt8 := a.byte &&& 48

def unchecked (a : Action) : Bool := (a.byte &&& uncheckedBit) != 0

/-- Adds an index kind or the unchecked bit. -/
def or (a : Action) (bits : UInt8) : Action := ⟨a.byte ||| bits⟩

def isHash (a : Action) : Bool :=
  match a.kind.toNat with
  | 2 | 4 | 6 | 8 => true
  | _ => false

/-- Does the level begin a chain. -/
def isStart (a : Action) : Bool :=
  match a.kind.toNat with
  | 7 | 8 => false
  | _ => true

def kindName (a : Action) : String :=
  match a.kind.toNat with
  | 1 => "padav_aelem"
  | 2 => "padhv_helem"
  | 3 => "gvav_aelem"
  | 4 => "gvhv_helem"
  | 5 => "padsv_rv2av_aelem"
  | 6 => "padsv_rv2hv_helem"
  | 7 => "rv2av_aelem"
  | 8 => "rv2hv_helem"
  | _ => "bad"

def name (a : Action) : Bytes :=
  let idx := match a.index.toNat with
    | 16 => "_const"
    | 32 => "_padsv"
    | _ => ""
  utf8 a.kindName ++ utf8 idx ++ utf8 (if a.unchecked then "_u" else "")

end Action

/-- One level of an access path. -/
structure PathItem where
  act : Action
  /-- Pad slot of the container a chain starts from. -/
  targ : Int := 0
  /-- Name of the global a chain starts from. -/
  name : Bytes := []
  /-- Pad slot of the index variable. -/
  idxTarg : Int := 0
  /-- Constant array index. -/
  index : Int64 := 0
  /-- Where the constant key starts in the key bytes, and its length. -/
  key : Nat := 0
  keyLen : Nat := 0
  deriving Repr, DecidableEq, Inhabited

/-- The side table of a fused chain: its levels and the bytes of all constant keys. -/
structure Path where
  items : List PathItem
  keys : Bytes := []
  deriving Repr, DecidableEq, Inhabited

namespace Path

def keyAt (p : Path) (it : PathItem) : Bytes := (p.keys.drop it.key).take it.keyLen

end Path

end OpTree
