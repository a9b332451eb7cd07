import OpTree.Toml

/-!
# Documents

The tables that the entries of a text describe. Every table and value has a place, given by its full
path. A table that was made only because something stands below it is implied; it may be defined
once more, by a header or by a pair, and it keeps its contents then. Any other place is defined
once, except that a list gives way to a later definition.
-/

namespace OpTree

set_option autoImplicit false

namespace Toml

/-- What stands at a place. -/
inductive Slot where
  | table
  /-- A list of tables, of which the last one is open. -/
  | tables
  | list
  | scalar (v : Scalar)
  deriving DecidableEq

/-- Everything that stands somewhere, the tables that are only implied, and the places that were
last written as lists. -/
structure Document where
  slots : List (Path × Slot) := []
  implied : List Path := []
  lists : List Path := []

namespace Document

def find? (d : Document) (p : Path) : Option Slot :=
  (d.slots.find? fun s => s.1 == p).map (·.2)

/-- Puts `s` at a place, and nothing below it. -/
def put (d : Document) (p : Path) (s : Slot) : Document :=
  { d with slots := d.slots.filter (fun x => !p.isPrefixOf x.1) ++ [(p, s)] }

def imply (d : Document) (p : Path) : Document := { d with implied := p :: d.implied }

/-- Makes a table one that is no longer just implied. -/
def confirm (d : Document) (p : Path) : Document :=
  { d with implied := d.implied.filter (· != p) }

/-- Notes whether the last definition of a key is a list. A key without a name counts for its
table. -/
def note (d : Document) (context : Path) (key : Bytes) (isList : Bool) : Document :=
  let p := if context.isEmpty || !key.isEmpty then context ++ [key] else context
  { d with lists := if isList then p :: d.lists else d.lists.filter (· != p) }

/-- Can there be anything below a place. -/
def isOpen (d : Document) (p : Path) : Bool :=
  p.isEmpty || d.find? p == some .table || d.find? p == some .tables

/-- Defines a key of the table at `context`. -/
def set? (d : Document) (context : Path) (key : Bytes) (s : Slot) : Option Document :=
  let p := context ++ [key]
  if !d.isOpen context then none
  else if d.find? p == none then some (d.put p s)
  else if d.lists.contains p then some ((d.confirm p).put p s)
  else if d.implied.contains p then some (d.confirm p)
  else none

/-- Makes the tables that are missing on the way down from `done`. -/
def reach? (d : Document) (done : Path) : Path → Option Document
  | [] => some d
  | k :: r =>
    let p := done ++ [k]
    if d.find? p == none then reach? ((d.imply p).put p .table) p r
    else if d.isOpen p then reach? d p r
    else none

/-- Opens the table at a path. -/
def table? (d : Document) (p : Path) : Option Document :=
  (d.reach? [] p.dropLast).bind fun d => d.set? p.dropLast (p.getLast?.getD []) .table

/-- Opens a new table at the end of the list of tables at a path. -/
def nextTable? (d : Document) (p : Path) : Option Document :=
  (d.reach? [] p.dropLast).bind fun d =>
    if d.find? p == none || d.find? p == some .tables then some (d.put p .tables) else none

def descend? (d : Document) (context : Path) : Path → Option (Document × Path)
  | [] => some (d, context)
  | k :: r =>
    let p := context ++ [k]
    ((d.imply p).table? p).bind fun d => descend? d p r

mutual

/-- What a value puts at a key. The pairs of a table are defined on the way; a table that is an item
of a list adds itself to a list of tables as long as the list is being read. -/
def value? (d : Document) (context : Path) (key : Bytes) (isItem : Bool) :
    Expr → Option (Document × Slot)
  | .scalar v => some (d, .scalar v)
  | .list items => do
    let d ← items? (d.note context key true) context key items
    return (d, .list)
  | .table pairs => do
    let p := context ++ [key]
    let d := d.imply p
    let d ← if isItem then d.nextTable? p else d.table? p
    let d ← pairs? d p pairs
    return (d, .table)

def items? (d : Document) (context : Path) (key : Bytes) : List Expr → Option Document
  | [] => some d
  | e :: r => do
    let (d, _) ← value? d context key true e
    items? d context key r

def pairs? (d : Document) (context : Path) : List (Path × Expr) → Option Document
  | [] => some d
  | (path, e) :: r => do
    let (d, p) ← d.descend? context path.dropLast
    let key := path.getLast?.getD []
    let (d, s) ← value? d p key false e
    let d ←
      if s == .table && d.lists.contains (p ++ [key]) then some (d.confirm (p ++ [key]))
      else d.set? p key s
    pairs? (d.note p key (s == .list)) context r

end

/-- Adds an entry; `context` is the path of the open table. -/
def add? (d : Document) (context : Path) : Entry → Option (Document × Path)
  | .header p => (d.table? p).map fun d => (d.note p [] false, p)
  | .listHeader p => (d.nextTable? p).map fun d => (d.note p [] false, p)
  | .pair p e => (d.pairs? context [(p, e)]).map fun d => (d, context)

def addAll? (d : Document) (context : Path) : List Entry → Option Document
  | [] => some d
  | e :: r => (d.add? context e).bind fun (d, context) => addAll? d context r

/-- The document that entries describe. -/
def ofEntries? (es : List Entry) : Option Document := addAll? {} [] es

end Document

end Toml

end OpTree
