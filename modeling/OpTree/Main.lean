import OpTree.Command

/-!
# The command line

`run`, `dump` and `repl`. All work is done in `OpTree.Command`; this module reads arguments, files
and lines, and writes what it is given.
-/

namespace OpTree

set_option autoImplicit false

structure Call where
  job : Job := {}
  sub : Bytes := utf8 "main"
  print : Bool := false
  cbor : Bool := false
  chain : Bool := true

namespace Call

def ofArgs (c : Call) : List String → Call
  | [] => { c with job := { c.job with files := c.job.files.reverse } }
  | "--config" :: f :: rest | "-c" :: f :: rest =>
    ofArgs { c with job := { c.job with tuningFile? := some (utf8 f) } } rest
  | "--sub" :: s :: rest => ofArgs { c with sub := utf8 s } rest
  | "--print" :: rest | "-p" :: rest => ofArgs { c with print := true } rest
  | "--cbor" :: rest => ofArgs { c with cbor := true } rest
  | "--chain=false" :: rest => ofArgs { c with chain := false } rest
  | f :: rest => ofArgs { c with job := { c.job with files := utf8 f :: c.job.files } } rest

end Call

def writeBytes (h : IO.FS.Stream) (b : Bytes) : IO Unit := do
  h.write ⟨b.toArray⟩
  h.flush

def loadFiles (names : List Bytes) : IO Files := do
  let found ← names.filterMapM fun name => do
    try
      let path := String.fromUTF8? ⟨name.toArray⟩
      let data ← IO.FS.readBinFile (path.getD "")
      return some (name, data.data.toList)
    catch _ => return none
  return Files.ofList found

def finishReport (r : Report) : IO UInt32 := do
  writeBytes (← IO.getStdout) r.out
  match r.failure? with
  | none => return 0
  | some why =>
    writeBytes (← IO.getStderr) (why.text ++ [10])
    return 1

/-- Reads lines until they make complete forms. -/
partial def readForms (h : IO.FS.Stream) (sofar : Bytes) : IO (Option Bytes) := do
  writeBytes (← IO.getStdout) (utf8 (if sofar.isEmpty then "> " else ". "))
  let line := utf8 (← h.getLine)
  if line.isEmpty then return none
  let text := sofar ++ line
  if Command.isUnfinished text then readForms h text else return some text

partial def repl (t : Tuning) : IO Unit := do
  match ← readForms (← IO.getStdin) [] with
  | none => return
  | some text =>
    let text := Bytes.trim [32, 9, 10, 13] text
    if text == utf8 ":quit" || text == utf8 ":q" then return
    if !text.isEmpty then
      let _ ← finishReport (Command.enter text t)
    repl t

end OpTree

open OpTree in
def main (args : List String) : IO UInt32 := do
  match args with
  | cmd :: rest =>
    let c := Call.ofArgs {} rest
    let files ← loadFiles (c.job.tuningFile?.toList ++ c.job.files)
    match cmd with
    | "run" => finishReport (Command.run files c.job c.sub c.print)
    | "dump" => finishReport (Command.dump files c.job c.cbor c.chain)
    | "repl" =>
      match c.job.tuning files with
      | .error why => finishReport (.ofFailure why)
      | .ok t =>
        repl t
        return 0
    | _ => finishReport (.ofFailure (.plain (utf8 "unknown command " ++ utf8 cmd)))
  | [] => finishReport (.ofFailure (.plain (utf8 "no command")))
