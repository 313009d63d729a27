import Reckoner.Token.Basic
import Reckoner.Number.Binary

namespace Reckoner

inductive Operator where
  | add
  | sub
  | mul
  | div
  | mod
  | pow
deriving Repr,DecidableEq

namespace Operator

def ofToken? : Token → Option Operator
  | .plus => some add
  | .minus => some sub
  | .star => some mul
  | .slash => some div
  | .percent => some mod
  | .caret => some pow
  | _ => none

def token : Operator → Token
  | add => .plus
  | sub => .minus
  | mul => .star
  | div => .slash
  | mod => .percent
  | pow => .caret

def symbol (op : Operator) : String := op.token.text

/-- An operator of a higher priority binds more tightly. None has priority 0. -/
def priority : Operator → Nat
  | add | sub => 1
  | mul | div | mod => 2
  | pow => 3

/-- Whether equal operators in a row group from the right. -/
def rightAssociative : Operator → Bool
  | pow => true
  | _ => false

/-- The priority above which operators still belong to the right operand. An operator that groups
from the right leaves its equals to its right operand. -/
def rightBound (op : Operator) : Nat :=
  if op.rightAssociative then op.priority - 1 else op.priority

def apply : Operator → Float → Float → Float
  | add, x, y => x + y
  | sub, x, y => x - y
  | mul, x, y => x * y
  | div, x, y => x / y
  | mod, x, y => Number.remainder x y
  | pow, x, y => Float.pow x y

theorem ofToken?_token (op : Operator) : ofToken? op.token = some op := by
  cases op <;> rfl

theorem ofToken?_eq_some_iff {t : Token} {op : Operator} :
    ofToken? t = some op ↔ t = op.token := by
  constructor
  · intro h
    unfold ofToken? at h
    split at h <;> cases h <;> rfl
  · rintro rfl
    exact ofToken?_token op

theorem priority_pos (op : Operator) : 0 < op.priority := by
  cases op <;> decide

end Operator

end Reckoner
