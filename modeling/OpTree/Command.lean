import OpTree.Program
import OpTree.Snapshot.Codec
import OpTree.Tuning.File

/-!
# Commands

What the command line does, as functions of the files it may read. A command gives the bytes it
prints and, if it stopped early, why.
-/

namespace OpTree

set_option autoImplicit false

/-- The content of a file, or why it cannot be read. -/
abbrev Files := Bytes → Except Bytes Bytes

structure Job where
  tuningFile? : Option Bytes := none
  files : List Bytes := []
  deriving Repr

structure Report where
  out : Bytes := []
  failure? : Option Failure := none

namespace Report

def ofFailure (why : Failure) : Report := { failure? := some why }

/-- Goes on with `r` unless something went wrong. -/
def andThen (r : Report) (next : Unit → Report) : Report :=
  match r.failure? with
  | some _ => r
  | none => let s := next (); { s with out := r.out ++ s.out }

end Report

namespace Files

def missing (name : Bytes) : Bytes := utf8 "open " ++ name ++ utf8 ": no such file or directory"

def ofList (files : List (Bytes × Bytes)) : Files := fun name =>
  match files.reverse.find? (·.1 == name) with
  | some f => .ok f.2
  | none => .error (missing name)

def tuning (files : Files) (name : Bytes) : Except Failure Tuning :=
  match files name with
  | .error why => .error (.during (utf8 "read " ++ name) (.plain why))
  | .ok text =>
    match Tuning.ofFile text with
    | .ok t => .ok t
    | .error .unreadable => .error (.during (utf8 "parse toml") (.plain (utf8 "malformed file")))
    | .error (.invalid complaint) => .error (.plain complaint)

def compile (files : Files) (name : Bytes) (t : Tuning) : Except Failure Program :=
  match files name with
  | .error why => .error (.during (utf8 "read file") (.plain why))
  | .ok text => Program.compile name text t

end Files

namespace Job

def tuning (j : Job) (files : Files) : Except Failure Tuning :=
  match j.tuningFile? with
  | none => .ok {}
  | some name =>
    match files.tuning name with
    | .ok t => .ok t
    | .error why => .error (.during (utf8 "config") why)

/-- Compiles each file in turn and hands it to `use`; the first failure ends the job. -/
def forEach (files : Files) (t : Tuning) (use : Bytes → Program → Report) : List Bytes → Report
  | [] => {}
  | name :: rest =>
    match files.compile name t with
    | .error why => .ofFailure (.during (utf8 "compile " ++ name) why)
    | .ok p => (use name p).andThen fun () => forEach files t use rest

def perform (j : Job) (files : Files) (use : Bytes → Program → Report) : Report :=
  match j.tuning files with
  | .error why => .ofFailure why
  | .ok t => forEach files t use j.files

end Job

namespace Program

/-- Far more ops than any run executes. -/
def stepLimit : Nat := Nat.pow 10 18

structure Run where
  out : Bytes
  values : Except Failure (List Value)

def runSub (p : Program) (name : Bytes) : Run :=
  match p.unit? name with
  | none => ⟨[], .error (.plain (utf8 "no sub " ++ name))⟩
  | some u =>
    match SubUnit.machine u with
    | .error why _ => ⟨[], .error why⟩
    | .ok m _ =>
      match u.run stepLimit .list m with
      | .ok vs m => ⟨m.outText, .ok vs⟩
      | .error why m => ⟨m.outText, .error why⟩

def dump (p : Program) (chain : Bool) : Bytes :=
  p.units.toList.flatMap fun u =>
    utf8 "sub " ++ u.name ++ utf8 ":\n" ++ u.arena.printTree u.root ++
      (if chain then utf8 "chain:\n" ++ u.arena.printChain u.start else []) ++ [10]

def snapshots (p : Program) : Bytes :=
  p.units.toList.flatMap fun u => (u.arena.snapshot u.name u.root u.start).encode

end Program

namespace Command

def printValues (vs : List Value) : Bytes :=
  vs.flatMap fun v => (if v.defined then v.text else utf8 "undef") ++ [10]

def run (files : Files) (j : Job) (name : Bytes) (print : Bool) : Report :=
  j.perform files fun file p =>
    let r := p.runSub name
    match r.values with
    | .error why => ⟨r.out, some (.during (utf8 "run " ++ file) why)⟩
    | .ok vs => ⟨r.out ++ if print then printValues vs else [], none⟩

def dump (files : Files) (j : Job) (cbor chain : Bool) : Report :=
  j.perform files fun _ p => ⟨if cbor then p.snapshots else p.dump chain, none⟩

/-- The listing an entered text stands for: bare statements are put into a sub. -/
def listingOf (text : Bytes) : Bytes :=
  if (utf8 "(sub ").isPrefixOf text then text else utf8 "(sub repl " ++ text ++ utf8 ")"

/-- Runs the first sub of an entered text and prints its values. -/
def enter (text : Bytes) (t : Tuning) : Report :=
  match Program.compile (utf8 "(repl)") (listingOf text) t with
  | .error why => .ofFailure why
  | .ok p =>
    match p.units[0]? with
    | none => {}
    | some u =>
      let r := p.runSub u.name
      match r.values with
      | .error why => ⟨r.out, some why⟩
      | .ok vs => ⟨r.out ++ printValues vs, none⟩

/-- Is an entered text the beginning of something longer. -/
def isUnfinished (text : Bytes) : Bool :=
  match (Source.ofFile [] text).forms with
  | .error why => why.isUnfinished
  | .ok _ => false

end Command

end OpTree
