import Reckoner.Proofs.Derivation

namespace Reckoner

variable {name : String} {ts : List Lexeme} {env : Environment}

theorem Run.store_outcome (r : Run) (name : String) : (r.store name).outcome = r.outcome := by
  cases r <;> rfl

/-- An assignment takes the whole chain behind its sign, so no operator is left for it to combine
with whatever bound it is read under. -/
theorem chain_assignment (bound p q : Nat) (hn : Builtin.isReserved name = false) :
    chain bound (⟨.ident name,p⟩ :: ⟨.equals,q⟩ :: ts) env = (chain 0 ts env).store name := by
  rw [chain_eq,operand_assignment p ts env q hn]
  cases hr : chain 0 ts env with
  | fault f rest env' => rfl
  | value x rest env' =>
    have stops : Stops bound rest := (stops_of_chain hr).mono (Nat.zero_le bound)
    exact climb_of_stops stops

theorem evaluateLexemes_assigned (p q : Nat) (hn : Builtin.isReserved name = false)
    (env : Environment) :
    evaluateLexemes (⟨.ident name,p⟩ :: ⟨.equals,q⟩ :: ts) env =
      ((chain 0 ts env).outcome.map some,((chain 0 ts env).store name).env) := by
  rw [evaluateLexemes_eq (List.cons_ne_nil _ _),chain_assignment 0 p q hn,Run.store_outcome]

/-- An assignment has the outcome that the lexemes behind its sign have by themselves, with the
fault in the same place. If that is a value, the variable is set to it after all that they assign,
even where they assign or read the same variable. If it is a fault, the variables are what they
leave. -/
theorem evaluateLexemes_assignment (p q : Nat) (env : Environment)
    (hn : Builtin.isReserved name = false) (hts : ts ≠ []) :
    (evaluateLexemes (⟨.ident name,p⟩ :: ⟨.equals,q⟩ :: ts) env).1 = (evaluateLexemes ts env).1 ∧
    ((∃ x, (evaluateLexemes ts env).1 = .ok (some x) ∧
        (evaluateLexemes (⟨.ident name,p⟩ :: ⟨.equals,q⟩ :: ts) env).2 =
          (evaluateLexemes ts env).2.set name x) ∨
      (∃ f, (evaluateLexemes ts env).1 = .error f ∧
        (evaluateLexemes (⟨.ident name,p⟩ :: ⟨.equals,q⟩ :: ts) env).2 =
          (evaluateLexemes ts env).2)) := by
  rw [evaluateLexemes_assigned p q hn,evaluateLexemes_eq hts]
  refine ⟨rfl,?_⟩
  cases chain 0 ts env with
  | value x rest env' => exact .inl ⟨x,rfl,rfl⟩
  | fault f rest env' => exact .inr ⟨f,rfl,rfl⟩

/-- In `x = (x = 2) * y` the inner assignment is made, and the fault behind it keeps the outer one
from being made. In `x = (x = 2) * x` both are made, the outer one last. -/
theorem evaluateLexemes_assignment_nested :
    Builtin.isReserved "x" = false ∧
    evaluateLexemes [⟨.ident "x",0⟩,⟨.equals,2⟩,⟨.lparen,4⟩,⟨.ident "x",5⟩,⟨.equals,7⟩,⟨.num 2,9⟩,
        ⟨.rparen,10⟩,⟨.star,12⟩,⟨.ident "y",14⟩] (Environment.empty.set "x" 1) =
      (.error (.unknownVariable "y" 14),(Environment.empty.set "x" 1).set "x" 2) ∧
    evaluateLexemes [⟨.ident "x",0⟩,⟨.equals,2⟩,⟨.lparen,4⟩,⟨.ident "x",5⟩,⟨.equals,7⟩,⟨.num 2,9⟩,
        ⟨.rparen,10⟩,⟨.star,12⟩,⟨.ident "x",14⟩] .empty =
      (.ok (some (2 * 2)),(Environment.empty.set "x" 2).set "x" (2 * 2)) := by
  have free : Builtin.isReserved "x" = false := by decide
  refine ⟨free,?_,?_⟩
  · have inner : evaluateLexemes [⟨.lparen,4⟩,⟨.ident "x",5⟩,⟨.equals,7⟩,⟨.num 2,9⟩,⟨.rparen,10⟩,
        ⟨.star,12⟩,⟨.ident "y",14⟩] (Environment.empty.set "x" 1) =
        (.error (.unknownVariable "y" 14),(Environment.empty.set "x" 1).set "x" 2) := by
      with_unfolding_all rfl
    have met := evaluateLexemes_assignment 0 2 (Environment.empty.set "x" 1) free
      (List.cons_ne_nil ⟨.lparen,4⟩ [⟨.ident "x",5⟩,⟨.equals,7⟩,⟨.num 2,9⟩,⟨.rparen,10⟩,⟨.star,12⟩,
        ⟨.ident "y",14⟩])
    obtain ⟨same,⟨x,hx,_⟩ | ⟨f,_,left⟩⟩ := met
    · rw [inner] at hx
      cases hx
    · rw [inner] at same left
      exact Prod.ext same left
  · have inner : evaluateLexemes [⟨.lparen,4⟩,⟨.ident "x",5⟩,⟨.equals,7⟩,⟨.num 2,9⟩,⟨.rparen,10⟩,
        ⟨.star,12⟩,⟨.ident "x",14⟩] .empty =
        (.ok (some (2 * 2)),Environment.empty.set "x" 2) := by
      with_unfolding_all rfl
    have met := evaluateLexemes_assignment 0 2 .empty free
      (List.cons_ne_nil ⟨.lparen,4⟩ [⟨.ident "x",5⟩,⟨.equals,7⟩,⟨.num 2,9⟩,⟨.rparen,10⟩,⟨.star,12⟩,
        ⟨.ident "x",14⟩])
    obtain ⟨same,⟨x,hx,set⟩ | ⟨f,hf,_⟩⟩ := met
    · rw [inner] at same hx set
      cases hx
      exact Prod.ext same set
    · rw [inner] at hf
      cases hf

end Reckoner
