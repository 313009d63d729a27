import Reckoner.Proofs.Joints

namespace Reckoner

namespace Sign
variable {before : Option Token} {ls ms : List Lexeme}

/-- A token suits the place behind the token `before`, or the first place if there is none. A minus
has something in front of it that it can subtract from, and a number with the sign bit is behind an
opening parenthesis or an operator, if it is behind anything. -/
def Suits (before : Option Token) : Token → Prop
  | .minus => before ≠ none ∧ before ≠ some .lparen
  | .num x => Number.negative x = true → ∀ u ∈ before, u = .lparen ∨ u.isOperator = true
  | _ => True

/-- Each of the lexemes suits its place, the first of them behind the token `before`. -/
def Settled : Option Token → List Lexeme → Prop
  | _, [] => True
  | before, l :: ls => Suits before l.token ∧ Settled (some l.token) ls

theorem suits_minus : Suits before .minus ↔ opens before = false := by
  cases before with
  | none => simp [Suits,opens]
  | some u => cases u <;> simp [Suits,opens]

theorem suits_num {x : Float} :
    Suits before (.num x) ↔ (Number.negative x = true → closes before = false) := by
  cases before with
  | none => simp [Suits,closes]
  | some u => cases u <;> simp [Suits,closes,Token.isOperator]

/-- What suits its place is kept, and nothing else is. -/
theorem expand_eq_self_iff (l : Lexeme) : expand before l = [l] ↔ Suits before l.token := by
  obtain ⟨t,p⟩ := l
  cases t with
  | minus =>
    simp only [expand,suits_minus]
    cases opens before <;> simp
  | num x =>
    simp only [expand,suits_num]
    cases Number.negative x <;> cases closes before <;> simp
  | _ => simp [expand,Suits]

theorem settled_append :
    Settled before (ls ++ ms) ↔ Settled before ls ∧ Settled (after before ls) ms := by
  induction ls generalizing before with
  | nil => simp [Settled,after]
  | cons l ls ih => simp only [List.cons_append,Settled,ih,after_cons,and_assoc]

theorem closes_of_opens (h : opens before = true) : closes before = false := by
  cases before with
  | none => rfl
  | some t =>
    cases t with
    | lparen => rfl
    | _ => cases h

/-- What takes the place of a lexeme is settled. A number that is put in begins an expression, or it
is behind the minus that was its sign. -/
theorem settled_expand (before : Option Token) (l : Lexeme) : Settled before (expand before l) := by
  by_cases hs : Suits before l.token
  · rw [(expand_eq_self_iff l).mpr hs]
    exact ⟨hs,trivial⟩
  · obtain ⟨t,p⟩ := l
    cases t with
    | minus =>
      have ho : opens before = true := by simpa [suits_minus] using hs
      have he : expand before ⟨.minus,p⟩ = [⟨.num (-1),p⟩,⟨.star,p⟩] := by simp [expand,ho]
      rw [he]
      exact ⟨suits_num.mpr (fun _ => closes_of_opens ho),trivial,trivial⟩
    | num x =>
      have hx : Number.negative x = true ∧ closes before = true := by simpa [suits_num] using hs
      have he : expand before ⟨.num x,p⟩ = [⟨.minus,p⟩,⟨.num (-x),p + 1⟩] := by simp [expand,hx]
      rw [he]
      exact ⟨suits_minus.mpr (opens_of_closes hx.2),suits_num.mpr (fun _ => rfl),trivial⟩
    | _ => exact absurd trivial hs

theorem after_expand (before : Option Token) (l : Lexeme) :
    after before (expand before l) = lastToken before l := by
  rw [after,lastToken]
  rcases expand_cases before l with he | ⟨a,b,he⟩ <;> simp [he]

/-- One pass settles all signs: the token that a lexeme leaves behind is the one that the next is
judged by. -/
theorem settled_resolveFrom (before : Option Token) (ls : List Lexeme) :
    Settled before (resolveFrom before ls) := by
  induction ls generalizing before with
  | nil => trivial
  | cons l ls ih =>
    rw [resolveFrom,settled_append,after_expand]
    exact ⟨settled_expand before l,ih _⟩

theorem resolveFrom_of_settled (h : Settled before ls) : resolveFrom before ls = ls := by
  induction ls generalizing before with
  | nil => rfl
  | cons l ls ih =>
    have kept : expand before l = [l] := (expand_eq_self_iff l).mpr h.1
    rw [resolveFrom_cons,kept,ih h.2,List.singleton_append]

/-- Settled lexemes are those that are left as they are. -/
theorem resolveFrom_eq_self_iff : resolveFrom before ls = ls ↔ Settled before ls :=
  ⟨fun h => h ▸ settled_resolveFrom before ls,resolveFrom_of_settled⟩

/-- In lexemes with resolved signs a minus is neither first nor right behind an opening parenthesis,
and a number with the sign bit is right behind nothing but an opening parenthesis or an operator. To
resolve the signs again changes nothing, not even a place; so the lexemes of a text are left as they
are. -/
theorem resolve_settled (ls : List Lexeme) :
    (∀ front l back, resolve ls = front ++ l :: back →
      Suits (front.getLast?.map Lexeme.token) l.token) ∧
    resolve (resolve ls) = resolve ls ∧ ∀ source, resolve (lexemes source) = lexemes source := by
  have settled := settled_resolveFrom none
  refine ⟨?_,resolveFrom_of_settled (settled ls),?_⟩
  · intro front l back he
    have parts := settled ls
    rw [← resolve,he,settled_append,after,Option.or_none] at parts
    exact parts.2.1
  · intro source
    exact resolveFrom_of_settled (settled (rawLexemes source))

/-- In `(--2 a-0` the first minus becomes a factor, and of the zero the sign is cut off. -/
theorem resolve_settled_zero :
    let ls : List Lexeme := [⟨.lparen,0⟩,⟨.minus,1⟩,⟨.num (-2),2⟩,⟨.ident "a",5⟩,⟨.num (-0),6⟩]
    resolve ls = [⟨.lparen,0⟩,⟨.num (-1),1⟩,⟨.star,1⟩,⟨.num (-2),2⟩,⟨.ident "a",5⟩,⟨.minus,6⟩,
      ⟨.num 0,7⟩] ∧
    Suits (some .star) (.num (-2)) ∧ Suits (some (.ident "a")) .minus := by
  intro ls
  have he : resolve ls = [⟨.lparen,0⟩,⟨.num (-1),1⟩,⟨.star,1⟩,⟨.num (-2),2⟩,⟨.ident "a",5⟩,
      ⟨.minus,6⟩,⟨.num 0,7⟩] := by
    decide +kernel
  have suits := (resolve_settled ls).1
  exact ⟨he,suits [⟨.lparen,0⟩,⟨.num (-1),1⟩,⟨.star,1⟩] _ _ he,
    suits [⟨.lparen,0⟩,⟨.num (-1),1⟩,⟨.star,1⟩,⟨.num (-2),2⟩,⟨.ident "a",5⟩] _ _ he⟩

end Sign

end Reckoner
