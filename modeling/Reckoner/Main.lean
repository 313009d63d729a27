import Reckoner.CommandLine

open Reckoner

def readText (path : String) : IO (Option String) :=
  try
    return some (← IO.FS.readFile path)
  catch _ =>
    return none

def write (t : Transcript) : IO Unit := do
  IO.print t.out
  (← IO.getStdout).flush
  IO.eprint t.err

/-- Answers each line as soon as it has been read, until there is none left. -/
partial def converse (prompt : Bool) (env : Environment) : IO Unit := do
  if prompt then
    IO.print "> "
    (← IO.getStdout).flush
  let line ← try (← IO.getStdin).getLine catch _ => pure ""
  if line.isEmpty then return
  let (answer,env) := Session.answer line env
  write answer
  converse prompt env

def finish (report : CommandLine.Report) : IO UInt32 := do
  write report.transcript
  return report.status.toUInt32

def main (arguments : List String) : IO UInt32 := do
  match CommandLine.parse? arguments with
  | none =>
    IO.eprint CommandLine.usage
    finish (CommandLine.run (fun _ => none) "" arguments)
  | some .session =>
    converse (← (← IO.getStdin).isTty) .empty
    return 0
  | some (.batch (.file path)) | some (.lastValue (.file path)) =>
    let contents ← readText path
    finish (CommandLine.run (fun _ => contents) "" arguments)
  | some _ => finish (CommandLine.run (fun _ => none) "" arguments)
