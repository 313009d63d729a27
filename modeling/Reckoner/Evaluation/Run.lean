import Reckoner.Builtin
import Reckoner.Environment

namespace Reckoner

/-- A run over lexemes ends with a value or with a fault. Either way `rest` is what it has not
consumed, and `env` holds the assignments that were made on the way. -/
inductive Run where
  | value (x : Float) (rest : List Lexeme) (env : Environment)
  | fault (fault : Fault) (rest : List Lexeme) (env : Environment)

namespace Run

def outcome : Run → Except Fault Float
  | value x _ _ => .ok x
  | fault f _ _ => .error f

def rest : Run → List Lexeme
  | value _ rest _ => rest
  | fault _ rest _ => rest

def env : Run → Environment
  | value _ _ env => env
  | fault _ _ env => env

/-- Goes on after a value; a fault stays as it is. -/
def andThen : Run → (Float → List Lexeme → Environment → Run) → Run
  | value x rest env, next => next x rest env
  | fault f rest env, _ => fault f rest env

def map (f : Float → Float) : Run → Run
  | value x rest env => value (f x) rest env
  | fault e rest env => fault e rest env

def call (name : String) (position : Nat) : Run → Run
  | value x rest env =>
    match Builtin.call name x position with
    | .ok y => value y rest env
    | .error f => fault f rest env
  | fault f rest env => fault f rest env

/-- Stores the value in a variable. After a fault nothing is stored. -/
def store (name : String) : Run → Run
  | value x rest env => value x rest (env.set name x)
  | fault f rest env => fault f rest env

/-- Consumes the parenthesis that ends the group opened at `position`. Another lexeme in its place
is consumed too, and the group is at fault. -/
def close (position : Nat) : Run → Run
  | value x (⟨.rparen,_⟩ :: rest) env => value x rest env
  | value _ rest env => fault (.unbalancedParentheses position) rest.tail env
  | fault f rest env => fault f rest env

def read (name : String) (position : Nat) (rest : List Lexeme) (env : Environment) : Run :=
  match env.get? name with
  | some x => value x rest env
  | none => fault (.unknownVariable name position) rest env

/-- A run with a value has left fewer than `n` lexemes. -/
def Within (n : Nat) : Run → Prop
  | value _ rest _ => rest.length < n
  | fault _ _ _ => True

@[simp]
theorem andThen_value (x : Float) (rest : List Lexeme) (env : Environment)
    (next : Float → List Lexeme → Environment → Run) :
    (value x rest env).andThen next = next x rest env := rfl

@[simp]
theorem andThen_fault (f : Fault) (rest : List Lexeme) (env : Environment)
    (next : Float → List Lexeme → Environment → Run) :
    (fault f rest env).andThen next = fault f rest env := rfl

theorem call_eq_map {name : String} {f : Builtin.Function} (h : Builtin.function? name = some f)
    (position : Nat) (r : Run) : r.call name position = r.map f.apply := by
  cases r with
  | value x rest env => simp only [call,Builtin.call_of_function? h,map]
  | fault e rest env => rfl

theorem Within.mono {n m : Nat} {r : Run} (h : r.Within n) (hm : n ≤ m) : r.Within m := by
  cases r with
  | value x rest env => exact Nat.lt_of_lt_of_le h hm
  | fault f rest env => trivial

theorem Within.map {n : Nat} {r : Run} (f : Float → Float) (h : r.Within n) :
    (r.map f).Within n := by
  cases r <;> exact h

theorem Within.call {n : Nat} {r : Run} (name : String) (position : Nat) (h : r.Within n) :
    (r.call name position).Within n := by
  cases r with
  | value x rest env =>
    unfold Run.call
    dsimp only
    split
    · exact h
    · trivial
  | fault f rest env => trivial

theorem Within.store {n : Nat} {r : Run} (name : String) (h : r.Within n) :
    (r.store name).Within n := by
  cases r <;> exact h

theorem Within.close {n : Nat} {r : Run} (position : Nat) (h : r.Within n) :
    (r.close position).Within n := by
  unfold Run.close
  split
  · exact Nat.lt_trans (Nat.lt_succ_self _) h
  · trivial
  · trivial

theorem within_read (name : String) (position : Nat) (rest : List Lexeme) (env : Environment) :
    (read name position rest env).Within (rest.length + 1) := by
  unfold read
  split
  · exact Nat.lt_succ_self _
  · trivial

end Run

end Reckoner
