import Reckoner.Session

namespace Reckoner

namespace CommandLine

structure Arguments where
  file : Bool
  pipeMode : Bool
  contents : Option String
deriving DecidableEq

namespace Arguments

def setFlag (a : Arguments) : Char → Option Arguments
  | 'f' => if a.file then none else some { a with file := true }
  | 'p' => if a.pipeMode then none else some { a with pipeMode := true }
  | _ => none

def setContents (a : Arguments) (text : String) : Option Arguments :=
  if a.contents.isSome then none else some { a with contents := some text }

/-- Takes one argument. What starts with a dash is a flag, or several in one; a dash alone is
not. -/
def add (a : Arguments) (argument : String) : Option Arguments :=
  if argument = "--file" then a.setFlag 'f'
  else if argument = "--pipe-mode" then a.setFlag 'p'
  else
    match argument.toList with
    | '-' :: c :: cs => (c :: cs).foldlM setFlag a
    | _ => a.setContents argument

/-- Takes the arguments in order. Behind `--` none is a flag. -/
def addAll (a : Arguments) : List String → Option Arguments
  | [] => some a
  | argument :: rest =>
    if argument = "--" then rest.foldlM setContents a
    else (a.add argument).bind (fun a => a.addAll rest)

end Arguments

inductive Source where
  | text (script : String)
  | file (path : String)
deriving DecidableEq

/-- What a command line asks for. Without arguments the program holds a session. Otherwise it
evaluates the lines of its contents, or with `--file` those of the file that they name; with
`--pipe-mode` it writes the last value only. -/
inductive Request where
  | session
  | batch (source : Source)
  | lastValue (source : Source)
deriving DecidableEq

/-- The request of complete arguments. Flags say what to do with the contents, so there is none
without. -/
def Arguments.request? (a : Arguments) : Option Request :=
  match a.contents with
  | none => if a.file || a.pipeMode then none else some .session
  | some text =>
    let source := if a.file then .file text else .text text
    some (if a.pipeMode then .lastValue source else .batch source)

/-- What a list of arguments asks for, if it is accepted. The requests for help and for the version
(`--help`, `-h`, `--version` and `-V`) are left out: a text and status 0 belong to them, and here
they are not accepted, like any unknown flag. -/
def parse? (arguments : List String) : Option Request :=
  ((Arguments.mk false false none).addAll arguments).bind Arguments.request?

def usage : String := "usage: reckoner [-f | --file] [-p | --pipe-mode] [CONTENTS]\n"

/-- What the program writes and the status it ends with. -/
structure Report where
  status : Nat
  transcript : Transcript
deriving DecidableEq

/-- The text of a script, where `readFile` gives the text of each file that can be read. -/
def Source.load (readFile : String → Option String) : Source → Except String String
  | text script => .ok script
  | file path =>
    match readFile path with
    | some script => .ok script
    | none =>
      .error ("Failed to read the input file '" ++ path ++ "'. Perhaps this file does not exist?\n")

/-- The report in pipe mode: the last value, if there is one, or the first fault. -/
def pipeReport (script : String) : Report :=
  match Script.value script with
  | .ok (some x) => ⟨0,⟨Number.text x ++ "\n",""⟩⟩
  | .ok none => ⟨0,.empty⟩
  | .error f => ⟨1,⟨"",f.message ++ "\n"⟩⟩

def Request.report (readFile : String → Option String) (input : String) : Request → Report
  | session => ⟨0,Session.interactive input⟩
  | batch source =>
    match source.load readFile with
    | .ok script => ⟨0,Session.batch script⟩
    | .error complaint => ⟨1,⟨"",complaint⟩⟩
  | lastValue source =>
    match source.load readFile with
    | .ok script => pipeReport script
    | .error complaint => ⟨1,⟨"",complaint⟩⟩

/-- The report on a list of arguments. Arguments that are not accepted end with status 2, and the
hint on them is not part of the report. -/
def run (readFile : String → Option String) (input : String) (arguments : List String) : Report :=
  match parse? arguments with
  | some request => request.report readFile input
  | none => ⟨2,.empty⟩

end CommandLine

end Reckoner
