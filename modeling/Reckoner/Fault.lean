import Reckoner.Token.Basic

namespace Reckoner

/-- A reason why an evaluation stops. The positions are those of the lexemes at fault; for a group
that is not closed, of its opening parenthesis. -/
inductive Fault where
  | unbalancedParentheses (position : Nat)
  | unexpectedToken (token : Token) (position : Nat)
  | unexpectedEndOfInput
  | unknownVariable (name : String) (position : Nat)
  | unknownFunction (name : String) (position : Nat)
deriving DecidableEq

namespace Fault

def position? : Fault → Option Nat
  | unbalancedParentheses p => some p
  | unexpectedToken _ p => some p
  | unexpectedEndOfInput => none
  | unknownVariable _ p => some p
  | unknownFunction _ p => some p

def complaint : Fault → String
  | unbalancedParentheses _ => "Unbalanced parentheses."
  | unexpectedToken token _ => "Unexpected token: " ++ token.text ++ "."
  | unexpectedEndOfInput => "Unexpected end of input."
  | unknownVariable name _ => "Unknown variable: " ++ name ++ "."
  | unknownFunction name _ => "Unknown function: " ++ name ++ "."

def message (fault : Fault) : String :=
  match fault.position? with
  | some p => "Error at position " ++ Nat.repr p ++ ": " ++ fault.complaint
  | none => fault.complaint

end Fault

end Reckoner
