import OpTree.Tuning
import OpTree.Failure
import OpTree.Toml.Reader
import OpTree.Toml.Document

/-!
# Tuning files

A tuning file is a TOML text. Only the table `tuning` matters; unknown keys and tables are skipped.
A malformed text, a place that is defined twice and a value of the wrong type make the file
unreadable.
-/

namespace OpTree

set_option autoImplicit false

namespace Tuning

namespace File

/-- A name without regard to letter case. A long s and the kelvin sign count as s and k. -/
def foldCase : Bytes → Bytes
  | 0xc5 :: 0xbf :: r => 115 :: foldCase r
  | 0xe2 :: 0x84 :: 0xaa :: r => 107 :: foldCase r
  | b :: r => Bytes.lowerByte b :: foldCase r
  | [] => []

def isNamed (name : String) (key : Bytes) : Bool := foldCase key == utf8 name

def setInt (s : Toml.Slot) (put : Int → Tuning) : Option Tuning :=
  match s with
  | .scalar (.int v) => some (put v.toInt)
  | _ => none

def setBool (s : Toml.Slot) (put : Bool → Tuning) : Option Tuning :=
  match s with
  | .scalar (.bool v) => some (put v)
  | _ => none

/-- Sets a field by its key; unknown keys change nothing. -/
def assign? (t : Tuning) (key : Bytes) (s : Toml.Slot) : Option Tuning :=
  if isNamed "slab_units" key then setInt s fun n => { t with slabUnits := n }
  else if isNamed "slab_max_units" key then setInt s fun n => { t with slabMaxUnits := n }
  else if isNamed "slab_growth" key then setInt s fun n => { t with slabGrowth := n }
  else if isNamed "free_scan" key then setInt s fun n => { t with freeScan := n }
  else if isNamed "defer_queue" key then setInt s fun n => { t with deferQueue := n }
  else if isNamed "padrange_max" key then setInt s fun n => { t with padrangeMax := n }
  else if isNamed "fold" key then setBool s fun b => { t with fold := b }
  else if isNamed "mderef" key then setBool s fun b => { t with mderef := b }
  else if isNamed "warnings" key then setBool s fun b => { t with warnings := b }
  else some t

/-- Takes over what stands at one place: the tuning has to be a table, and its fields are values. -/
def takePlace? (t : Tuning) (place : Toml.Path × Toml.Slot) : Option Tuning :=
  match place.1 with
  | [k] => if isNamed "tuning" k && place.2 != .table then none else some t
  | [k, f] => if isNamed "tuning" k then assign? t f place.2 else some t
  | _ => some t

end File

/-- Why a tuning file was refused. -/
inductive FileError where
  | unreadable
  | invalid (complaint : Bytes)

/-- The fields that a text sets, before defaults and checks. -/
def read? (s : Bytes) : Option Tuning := do
  let d ← Toml.Document.ofEntries? (← Toml.read? s)
  d.slots.foldlM File.takePlace? {}

/-- The tuning a file describes; missing keys keep their defaults. -/
def ofFile (s : Bytes) : Except FileError Tuning :=
  match read? s with
  | none => .error .unreadable
  | some t =>
    let t := t.withDefaults
    match t.complaint? with
    | some c => .error (.invalid c)
    | none => .ok t

end Tuning

end OpTree
