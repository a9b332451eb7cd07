import OpTree.Text.Bytes

/-!
# Failures

Every way in which reading, building, optimizing or running can go wrong. A failure may be
wrapped in what was being done at the time; its kind is that of the innermost cause.
-/

namespace OpTree

set_option autoImplicit false

inductive Failure where
  /-- A broken invariant of the op tree or of the evaluation stack. -/
  | broken (msg : Bytes)
  /-- An operation that has no meaning for its operand, such as storing through a missing cell.
  Nothing recovers from it. -/
  | fatal (msg : Option Bytes)
  /-- A malformed form of a listing. -/
  | malformed (file : Bytes) (line : Nat) (msg : Bytes)
  /-- An exception of a running program with the statement it came from. -/
  | thrown (msg file : Bytes) (line : Int)
  /-- A grammar that read nothing although there was text left. -/
  | partialRead (stop : Nat)
  /-- The text ended inside of a form. -/
  | unfinished (pos : Int)
  | plain (msg : Bytes)
  /-- A cause together with what was being done. -/
  | during (what : Bytes) (cause : Failure)
  deriving Repr, DecidableEq

namespace Failure

/-- The failure inside of all wrappings. -/
def cause : Failure → Failure
  | during _ c => c.cause
  | f => f

/-- What was being done, outermost first. -/
def doing : Failure → List Bytes
  | during what c => what :: c.doing
  | _ => []

def isUnfinished (f : Failure) : Bool :=
  match f.cause with
  | unfinished _ => true
  | _ => false

def thrownText (msg file : Bytes) (line : Int) : Bytes :=
  if msg.getLast? == some 10 then msg.dropLast
  else if file.isEmpty then msg
  else msg ++ utf8 " at " ++ file ++ utf8 " line " ++ Bytes.ofInt line ++ utf8 "."

def text : Failure → Bytes
  | broken msg => msg
  | fatal msg => msg.getD []
  | malformed file line msg =>
    let place := if file.isEmpty then utf8 " at line " else utf8 " at " ++ file ++ utf8 " line "
    msg ++ place ++ Bytes.ofNat line
  | thrown msg file line => thrownText msg file line
  | partialRead stop => utf8 "partial read at " ++ Bytes.ofNat stop
  | unfinished pos => utf8 "unexpected end of text in form started at " ++ Bytes.ofInt pos
  | plain msg => msg
  | during what c => what ++ utf8 ": " ++ c.text

inductive Kind where
  | internal
  | fatal
  | form
  | runtime
  | partialRead
  | incomplete
  | other
  deriving Repr, DecidableEq

def kind (f : Failure) : Kind :=
  match f.cause with
  | broken _ => .internal
  | fatal _ => .fatal
  | malformed .. => .form
  | thrown .. => .runtime
  | .partialRead _ => .partialRead
  | unfinished _ => .incomplete
  | _ => .other

/-- The text of a report: a broken invariant and a fatal operation are told without what was
being done. -/
def message? (f : Failure) : Option Bytes :=
  match f.cause with
  | broken msg => some msg
  | fatal msg => msg
  | _ => some f.text

/-- Fatal operations and raised broken invariants end a sequence of requests. -/
def isFatal (f : Failure) : Bool :=
  match f.cause with
  | fatal _ => true
  | _ => false

@[simp] theorem cause_during (what : Bytes) (f : Failure) : (during what f).cause = f.cause := rfl

end Failure

/-- What happens to a warning. -/
inductive WarnHook where
  | record
  /-- A function answers to every warning, after those that it got before; its answer may be a failure. -/
  | handle (answer : List Bytes → Bytes → Option Failure)
  deriving Inhabited

namespace WarnHook

/-- Every warning becomes a failure. -/
def escalate : WarnHook := handle fun _ text => some (.plain text)

def ignore : WarnHook := handle fun _ _ => none

end WarnHook

end OpTree
