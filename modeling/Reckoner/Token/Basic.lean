import Reckoner.Number.Shortest

namespace Reckoner

/-- A word of an expression. What no other token can begin with is kept as `unknown`. -/
inductive Token where
  | num (value : Float)
  | ident (name : String)
  | plus
  | minus
  | star
  | slash
  | percent
  | caret
  | equals
  | lparen
  | rparen
  | unknown (text : String)
deriving DecidableEq

/-- A token and its place: the number of bytes before it, in UTF-8. -/
structure Lexeme where
  token : Token
  position : Nat
deriving DecidableEq

namespace Token

/-- The token that one character stands for by itself. -/
def symbol? : Char → Option Token
  | '+' => some plus
  | '-' => some minus
  | '*' => some star
  | '/' => some slash
  | '%' => some percent
  | '^' => some caret
  | '=' => some equals
  | '(' => some lparen
  | ')' => some rparen
  | _ => none

def text : Token → String
  | num value => Number.text value
  | ident name => name
  | plus => "+"
  | minus => "-"
  | star => "*"
  | slash => "/"
  | percent => "%"
  | caret => "^"
  | equals => "="
  | lparen => "("
  | rparen => ")"
  | unknown text => text

/-- The binary operators and the sign of an assignment. -/
def isOperator : Token → Bool
  | plus | minus | star | slash | percent | caret | equals => true
  | _ => false

def beginsOperand : Token → Bool
  | num _ | lparen | ident _ => true
  | _ => false

/-- Whether two tokens are alike. Numbers are compared by value: 0 is like -0, and NaN like
nothing. -/
def alike : Token → Token → Bool
  | num x, num y => x == y
  | t, u => decide (t = u)

theorem text_of_symbol? {c : Char} {t : Token} (h : symbol? c = some t) :
    t.text = String.singleton c := by
  unfold symbol? at h
  split at h <;> cases h <;> rfl

end Token

end Reckoner
