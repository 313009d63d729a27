import Reckoner.Builtin
import Reckoner.Evaluation.Run
import Reckoner.Operator
import Reckoner.Token.Sign

namespace Reckoner

namespace Evaluation

/-- A run with a bound on what it leaves. The runs call each other on what the one before has left.
They end because a run with a value has consumed at least its operand, so each carries the proof of
that with it. -/
abbrev RunWithin (n : Nat) := { r : Run // r.Within n }

mutual

def operandWithin : (ts : List Lexeme) → Environment → RunWithin ts.length
  | [], env => ⟨.fault .unexpectedEndOfInput [] env,trivial⟩
  | ⟨.num x,_⟩ :: ts, env => ⟨.value x ts env,Nat.lt_succ_self _⟩
  | ⟨.lparen,p⟩ :: ts, env =>
    let r := chainWithin 0 ts env
    ⟨r.1.close p,(r.2.close p).mono (Nat.le_succ _)⟩
  | ⟨.ident name,p⟩ :: ts, env =>
    if Builtin.isFunction name then
      let r := operandWithin ts env
      ⟨r.1.call name p,(r.2.call name p).mono (Nat.le_succ _)⟩
    else
      match Builtin.constant? name with
      | some c => ⟨.value c.value ts env,Nat.lt_succ_self _⟩
      | none =>
        match ts with
        | ⟨.equals,_⟩ :: ts =>
          let r := chainWithin 0 ts env
          ⟨r.1.store name,(r.2.store name).mono (Nat.le_add_right _ 2)⟩
        | ts => ⟨.read name p ts env,Run.within_read name p ts env⟩
  | ⟨t,p⟩ :: ts, env => ⟨.fault (.unexpectedToken t p) ts env,trivial⟩
termination_by ts => 2 * ts.length

def chainWithin (bound : Nat) (ts : List Lexeme) (env : Environment) : RunWithin ts.length :=
  match operandWithin ts env with
  | ⟨.fault f rest env,_⟩ => ⟨.fault f rest env,trivial⟩
  | ⟨.value x rest env,h⟩ =>
    have : rest.length < ts.length := h
    let r := climbWithin bound x rest env
    ⟨r.1,r.2.mono this⟩
termination_by 2 * ts.length + 1

def climbWithin (bound : Nat) (x : Float) (ts : List Lexeme) (env : Environment) :
    RunWithin (ts.length + 1) :=
  match ts with
  | [] => ⟨.value x [] env,Nat.lt_succ_self _⟩
  | ⟨t,p⟩ :: ts =>
    match Operator.ofToken? t with
    | none => ⟨.value x (⟨t,p⟩ :: ts) env,Nat.lt_succ_self _⟩
    | some op =>
      if op.priority ≤ bound then ⟨.value x (⟨t,p⟩ :: ts) env,Nat.lt_succ_self _⟩
      else
        match chainWithin op.rightBound ts env with
        | ⟨.fault f rest env,_⟩ => ⟨.fault f rest env,trivial⟩
        | ⟨.value y rest env,h⟩ =>
          have : rest.length < ts.length := h
          let r := climbWithin bound (op.apply x y) rest env
          ⟨r.1,r.2.mono (Nat.le_trans this (Nat.le_add_right _ 2))⟩
termination_by 2 * ts.length

end

end Evaluation

/-- The run over the operand at the front of the lexemes: a number, a group, a constant, a function
with its argument, an assignment or a variable. The theorems named after `operand`, `chain` and
`climb` are their equations, and nothing else about them is needed. -/
def operand (ts : List Lexeme) (env : Environment) : Run := (Evaluation.operandWithin ts env).1

/-- The run over an operand and the operators of a priority above `bound` behind it. -/
def chain (bound : Nat) (ts : List Lexeme) (env : Environment) : Run :=
  (Evaluation.chainWithin bound ts env).1

/-- The run over operators of a priority above `bound`, from the value `x` before them. -/
def climb (bound : Nat) (x : Float) (ts : List Lexeme) (env : Environment) : Run :=
  (Evaluation.climbWithin bound x ts env).1

variable (bound : Nat) (x : Float) (p : Nat) (ts : List Lexeme) (env : Environment)

theorem operand_within : (operand ts env).Within ts.length := (Evaluation.operandWithin ts env).2

theorem chain_within : (chain bound ts env).Within ts.length :=
  (Evaluation.chainWithin bound ts env).2

theorem operand_nil : operand [] env = .fault .unexpectedEndOfInput [] env := by
  rw [operand,Evaluation.operandWithin]

theorem operand_num : operand (⟨.num x,p⟩ :: ts) env = .value x ts env := by
  rw [operand,Evaluation.operandWithin]

/-- A group is a chain of its own. -/
theorem operand_lparen : operand (⟨.lparen,p⟩ :: ts) env = (chain 0 ts env).close p := by
  rw [operand,Evaluation.operandWithin]
  rfl

/-- A function takes a single operand, with parentheses or without. -/
theorem operand_function {name : String} {f : Builtin.Function}
    (h : Builtin.function? name = some f) :
    operand (⟨.ident name,p⟩ :: ts) env = (operand ts env).map f.apply := by
  change (Evaluation.operandWithin _ _).1 = _
  unfold Evaluation.operandWithin
  simp only [Builtin.isFunction,h,Option.isSome_some,if_true]
  exact Run.call_eq_map h p _

theorem operand_constant {name : String} {c : Builtin.Constant}
    (h : Builtin.constant? name = some c) :
    operand (⟨.ident name,p⟩ :: ts) env = .value c.value ts env := by
  change (Evaluation.operandWithin _ _).1 = _
  unfold Evaluation.operandWithin
  simp only [Builtin.isFunction,Builtin.function?_of_constant? h,Option.isSome_none,
    Bool.false_eq_true,if_false,h]

/-- An assignment takes all of the chain behind its sign. -/
theorem operand_assignment {name : String} (q : Nat) (h : Builtin.isReserved name = false) :
    operand (⟨.ident name,p⟩ :: ⟨.equals,q⟩ :: ts) env = (chain 0 ts env).store name := by
  change (Evaluation.operandWithin _ _).1 = _
  unfold Evaluation.operandWithin
  simp only [Builtin.isFunction,Builtin.function?_of_free h,Option.isSome_none,Bool.false_eq_true,
    if_false,Builtin.constant?_of_free h]
  rfl

theorem operand_variable {name : String} (h : Builtin.isReserved name = false)
    (hts : ∀ q rest, ts ≠ ⟨.equals,q⟩ :: rest) :
    operand (⟨.ident name,p⟩ :: ts) env = .read name p ts env := by
  change (Evaluation.operandWithin _ _).1 = _
  unfold Evaluation.operandWithin
  simp only [Builtin.isFunction,Builtin.function?_of_free h,Option.isSome_none,Bool.false_eq_true,
    if_false,Builtin.constant?_of_free h]

theorem operand_unexpected {t : Token} (h : t.beginsOperand = false) :
    operand (⟨t,p⟩ :: ts) env = .fault (.unexpectedToken t p) ts env := by
  cases t with
  | num | lparen | ident => cases h
  | _ => rw [operand,Evaluation.operandWithin] <;> simp

theorem chain_eq : chain bound ts env = (operand ts env).andThen (climb bound) := by
  rw [chain,Evaluation.chainWithin,operand]
  split <;> rename_i he <;> rw [he] <;> rfl

theorem climb_nil : climb bound x [] env = .value x [] env := by
  rw [climb,Evaluation.climbWithin]

theorem climb_other {t : Token} (h : Operator.ofToken? t = none) :
    climb bound x (⟨t,p⟩ :: ts) env = .value x (⟨t,p⟩ :: ts) env := by
  rw [climb,Evaluation.climbWithin]
  simp only [h]

theorem climb_loose {op : Operator} (h : op.priority ≤ bound) :
    climb bound x (⟨op.token,p⟩ :: ts) env = .value x (⟨op.token,p⟩ :: ts) env := by
  rw [climb,Evaluation.climbWithin]
  simp only [Operator.ofToken?_token,h,if_true]

/-- A climb over an operator takes the chain to its right and goes on from the result. -/
theorem climb_operator {op : Operator} (h : bound < op.priority) :
    climb bound x (⟨op.token,p⟩ :: ts) env =
      (chain op.rightBound ts env).andThen (fun y => climb bound (op.apply x y)) := by
  rw [climb,Evaluation.climbWithin]
  simp only [Operator.ofToken?_token,Nat.not_le.mpr h,if_false,chain]
  split <;> rename_i he <;> rw [he] <;> rfl

/-- An expression has a value, or none if it is empty, or it is at fault. -/
abbrev Outcome := Except Fault (Option Float)

/-- Evaluates the chain at the front of the lexemes. What follows it is ignored. The assignments
made before a fault stay. -/
def evaluateLexemes : List Lexeme → Environment → Outcome × Environment
  | [], env => (.ok none,env)
  | ts, env => ((chain 0 ts env).outcome.map some,(chain 0 ts env).env)

def evaluate (source : String) (env : Environment) : Outcome × Environment :=
  evaluateLexemes (lexemes source) env

end Reckoner
