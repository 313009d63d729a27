import Reckoner.Token.Scan

namespace Reckoner

namespace Sign

/-- Whether an expression begins after this token. -/
def opens : Option Token → Bool
  | none | some .lparen => true
  | _ => false

/-- Whether an operand ends with this token, so that a subtraction can follow. -/
def closes : Option Token → Bool
  | none | some .lparen => false
  | some t => !t.isOperator

/-- The lexemes that stand for one lexeme after the token `before`. Where an expression begins, a
minus that stands alone is a multiplication by -1. Behind an operand, the sign of a number is a
subtraction. All else stays as it is. -/
def expand (before : Option Token) (l : Lexeme) : List Lexeme :=
  match l.token with
  | .minus => if opens before then [⟨.num (-1),l.position⟩,⟨.star,l.position⟩] else [l]
  | .num x =>
    if Number.negative x && closes before then
      [⟨.minus,l.position⟩,⟨.num (-x),l.position + 1⟩]
    else [l]
  | _ => [l]

/-- The last token that a lexeme leaves behind for the one after it. -/
def lastToken (before : Option Token) (l : Lexeme) : Option Token :=
  (expand before l).getLast?.map Lexeme.token

def resolveFrom : Option Token → List Lexeme → List Lexeme
  | _, [] => []
  | before, l :: ls => expand before l ++ resolveFrom (lastToken before l) ls

def resolve (ls : List Lexeme) : List Lexeme := resolveFrom none ls

end Sign

def lexemes (source : String) : List Lexeme := Sign.resolve (rawLexemes source)

end Reckoner
