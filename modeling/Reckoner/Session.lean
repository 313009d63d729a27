import Reckoner.Evaluation.Climb
import Reckoner.Text

namespace Reckoner

namespace Script

/-- Evaluates lines in order. A line without a value leaves the last one; a fault ends the
script. -/
def lastValue (last : Option Float) : List String → Environment → Outcome
  | [], _ => .ok last
  | line :: lines, env =>
    match evaluate line env with
    | (.ok x,env) => lastValue (x.or last) lines env
    | (.error f,_) => .error f

/-- The value of a script, whose lines start with no variables. -/
def value (source : String) : Outcome := lastValue none (Text.lines source) .empty

end Script

/-- What is written for the results and what is written for the faults. -/
structure Transcript where
  out : String
  err : String
deriving DecidableEq

namespace Transcript

def empty : Transcript := ⟨"",""⟩

def append (a b : Transcript) : Transcript := ⟨a.out ++ b.out,a.err ++ b.err⟩

end Transcript

namespace Session

/-- Evaluates a line and repeats it in the answer, without the white space around it. A line without
lexemes has no answer. One at fault is answered with the fault, and the session goes on. -/
def evaluateLine (line : String) (env : Environment) : Transcript × Environment :=
  let expression := Text.trim line
  match evaluate expression env with
  | (.ok (some x),env) => (⟨expression ++ " => " ++ Number.text x ++ "\n",""⟩,env)
  | (.ok none,env) => (.empty,env)
  | (.error f,env) => (⟨"",expression ++ " => error: " ++ f.message ++ "\n"⟩,env)

def helpText : String :=
  "operators: + - * / % ^ = ( )\n" ++
  "functions: " ++ " ".intercalate (Builtin.Function.all.map Builtin.Function.name) ++ "\n" ++
  "constants: " ++ " ".intercalate (Builtin.Constant.all.map Builtin.Constant.name) ++ "\n" ++
  "commands:  :clear :help\n"

/-- A line of a session is a command or an expression. -/
def answer (line : String) (env : Environment) : Transcript × Environment :=
  if Text.trim line = ":clear" then (.empty,.empty)
  else if Text.trim line = ":help" then (⟨helpText,""⟩,env)
  else evaluateLine line env

/-- Takes one more line, with the variables that the lines before it left. -/
def advance (step : String → Environment → Transcript × Environment)
    (past : Transcript × Environment) (line : String) : Transcript × Environment :=
  let (t,env) := past
  let (next,env) := step line env
  (t.append next,env)

def run (step : String → Environment → Transcript × Environment) (lines : List String)
    (env : Environment) : Transcript × Environment :=
  lines.foldl (advance step) (.empty,env)

/-- The transcript of a session with the given input. -/
def interactive (input : String) : Transcript := (run answer (Text.endedLines input) .empty).1

/-- The transcript of a script that is evaluated line by line, without commands. -/
def batch (source : String) : Transcript := (run evaluateLine (Text.lines source) .empty).1

end Session

end Reckoner
