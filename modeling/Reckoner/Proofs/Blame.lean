import Reckoner.Proofs.Derivation
import Reckoner.Proofs.Standing

namespace Reckoner

/-- An operand is expected at the front of `us`: nothing was read before, or not a number last. -/
def AtOperand (ls us : List Lexeme) : Prop :=
  us = ls ∨ ∃ l, l :: us <:+ ls ∧ ∀ x, l.token ≠ .num x

theorem AtOperand.suffix {ls us : List Lexeme} (h : AtOperand ls us) : us <:+ ls := by
  rcases h with rfl | ⟨l,h,_⟩
  · exact List.suffix_rfl
  · exact (List.suffix_cons l us).trans h

/-- What a fault says about the lexemes and the variables at the end. A function is never
unknown. -/
inductive Fault.Blames (ls : List Lexeme) (env : Environment) : Fault → Prop where
  | unbalancedParentheses {p : Nat} (hp : ⟨.lparen,p⟩ ∈ ls) :
    Blames ls env (.unbalancedParentheses p)
  | unexpectedToken {t : Token} {p : Nat} {us : List Lexeme} (ht : t.beginsOperand = false)
      (hp : AtOperand ls (⟨t,p⟩ :: us)) : Blames ls env (.unexpectedToken t p)
  | unexpectedEndOfInput : Blames ls env .unexpectedEndOfInput
  | unknownVariable {name : String} {p : Nat} (hn : Builtin.isReserved name = false)
      (hp : ⟨.ident name,p⟩ ∈ ls) (henv : env.get? name = none) :
      Blames ls env (.unknownVariable name p)

def Part.BeginsIn (ls : List Lexeme) : Part → Prop
  | operand ts _ => AtOperand ls ts
  | chain _ ts _ => AtOperand ls ts
  | climb _ _ ts _ => ts <:+ ls

theorem Part.Gives.blames {part : Part} {r : Run} (h : part.Gives r) {ls : List Lexeme}
    (hls : part.BeginsIn ls) {f : Fault} {rest : List Lexeme} {env : Environment}
    (hr : r = .fault f rest env) : f.Blames ls env := by
  induction h generalizing f rest env with
  | num | constant | climbEnd => cases hr
  | missing =>
    cases hr
    exact .unexpectedEndOfInput
  | group p inner ih =>
    have hp := hls.suffix
    rcases Run.close_eq_fault hr with hr | ⟨x,left,_,_,rfl,_⟩
    · exact ih (.inr ⟨_,hp,by simp⟩) hr
    · exact .unbalancedParentheses (hp.subset List.mem_cons_self)
  | function p hg argument ih =>
    exact ih (.inr ⟨_,hls.suffix,by simp⟩) (Run.map_eq_fault hr)
  | assignment p q hn value ih =>
    have behind := (List.suffix_cons _ _).trans hls.suffix
    exact ih (.inr ⟨_,behind,by simp⟩) (Run.store_eq_fault hr)
  | lookup p env hn hts =>
    obtain ⟨hnone,rfl,_,rfl⟩ := Run.read_eq_fault hr
    exact .unknownVariable hn (hls.suffix.subset List.mem_cons_self) hnone
  | unexpected p ts env ht =>
    cases hr
    exact .unexpectedToken ht hls
  | chainFault first ih => exact ih hls hr
  | chainValue first others ihf iho => exact iho ((first.suffix rfl).trans hls.suffix) hr
  | @climbFault x p bound op ts rest env env' f hb right ih =>
    -- Right before the right operand stands the operator.
    refine ih (.inr ⟨_,hls,?_⟩) hr
    cases op <;> simp [Operator.token]
  | climbValue p hb right others ihr iho =>
    have behind := (List.suffix_cons _ _).trans hls
    exact iho ((right.suffix rfl).trans behind) hr

theorem blames_of_error {ts : List Lexeme} {env : Environment} {f : Fault}
    (h : (evaluateLexemes ts env).1 = .error f) : f.Blames ts (evaluateLexemes ts env).2 := by
  by_cases hne : ts = []
  · subst hne
    cases h
  · rw [evaluateLexemes_eq hne] at h ⊢
    cases hr : chain 0 ts env with
    | value x rest env' =>
      rw [hr] at h
      cases h
    | fault e rest env' =>
      rw [hr] at h
      cases h
      exact (Part.gives_iff.mpr hr : (Part.chain 0 ts env).Gives _).blames (.inl rfl) rfl

/-- The source bears out what a fault says. `env` is what the evaluation left. -/
inductive Fault.PointsInto (source : String) (env : Environment) : Fault → Prop where
  | unbalancedParentheses {p : Nat} {rest : List Char} (hp : From source p ('(' :: rest)) :
      PointsInto source env (.unbalancedParentheses p)
  | unexpectedToken {t : Token} {p : Nat} {rest : List Char}
      (ht : t.isOperator = true ∨ t = .rparen ∨ ∃ w, t = .unknown w)
      (hp : From source p (t.text.toList ++ rest)) (hne : t.text.toList ≠ [])
      (hw : ∀ w, t = .unknown w → Unmatched w.toList rest) :
      PointsInto source env (.unexpectedToken t p)
  | unexpectedEndOfInput : PointsInto source env .unexpectedEndOfInput
  | unknownVariable {name : String} {p : Nat} {rest : List Char}
      (hp : From source p (name.toList ++ rest)) (hname : IsName name.toList)
      (hends : EndsName rest) (hf : ∀ f : Builtin.Function, Builtin.sameName f.name name = false)
      (hc : ∀ c : Builtin.Constant, Builtin.sameName c.name name = false)
      (henv : env.contains name = false) :
      PointsInto source env (.unknownVariable name p)

/-- Where an operand is expected there is no sign that a lone minus has brought with it. -/
theorem AtOperand.standsIn {source : String} {l : Lexeme} {us : List Lexeme}
    (h : AtOperand (lexemes source) (l :: us)) (hx : ∀ x, l.token ≠ .num x) :
    ∃ rest, l.StandsIn source rest := by
  rcases standsIn_of_suffix h.suffix with ⟨x,ht⟩ | hst | ⟨_,x,q,hp⟩
  · exact absurd ht (hx x)
  · exact hst
  · rcases h with he | ⟨k,hk,hnum⟩
    · have hlen := hp.length_le
      rw [← he] at hlen
      simp at hlen
    · -- Of two lexemes right before this one, one would be a number and the other would not.
      have same := List.suffix_of_suffix_length_le hk hp (Nat.le_refl _)
      cases same.eq_of_length rfl
      exact absurd rfl (hnum x)

theorem Fault.Blames.pointsInto {source : String} {env : Environment} {f : Fault}
    (h : f.Blames (lexemes source) env) : f.PointsInto source env := by
  cases h with
  | @unbalancedParentheses p hp =>
    obtain ⟨rest,hst⟩ := standsIn_of_mem hp (by simp) (by simp)
    have place : From source p (Token.lparen.text.toList ++ rest) := hst.place
    rw [Token.toList_text (c := '(') rfl] at place
    exact .unbalancedParentheses place
  | @unexpectedToken t p us ht hp =>
    have hx : ∀ x, t ≠ .num x := by
      rintro x rfl
      cases ht
    obtain ⟨rest,hst⟩ := hp.standsIn hx
    refine .unexpectedToken ?_ hst.place hst.nonempty hst.run
    cases t with
    | num | ident | lparen => cases ht
    | rparen => exact .inr (.inl rfl)
    | unknown w => exact .inr (.inr ⟨w,rfl⟩)
    | _ => exact .inl rfl
  | unexpectedEndOfInput => exact .unexpectedEndOfInput
  | @unknownVariable name p hn hp henv =>
    obtain ⟨rest,hst⟩ := standsIn_of_mem hp (by simp) (by simp)
    obtain ⟨hname,hends⟩ := hst.name name rfl
    obtain ⟨hf,hc⟩ := Builtin.isReserved_eq_false_iff.mp hn
    refine .unknownVariable hst.place hname hends hf hc ?_
    rw [Environment.contains_eq_isSome,henv]
    rfl

theorem Fault.Blames.inside {source : String} {env : Environment} {f : Fault}
    (h : f.Blames (lexemes source) env) : ∀ p ∈ f.position?, Inside source p := by
  intro p hp
  cases h with
  | unexpectedEndOfInput => cases hp
  | unexpectedToken ht hat =>
    cases hp
    exact inside_of_mem (hat.suffix.subset List.mem_cons_self)
  | unbalancedParentheses hmem | unknownVariable hn hmem henv =>
    cases hp
    exact inside_of_mem hmem

/-- An evaluation that fails points at the offender in the source: at a parenthesis that is opened
there; in the place of an operand at an operator, a closing parenthesis or a run of unmatched
characters, as it is written there; or at a name that is no function, no constant and no variable.
The place is one where a character of the source begins. -/
theorem evaluate_pointsInto {source : String} {env : Environment} {f : Fault}
    (h : (evaluate source env).1 = .error f) :
    f.PointsInto source (evaluate source env).2 ∧ ∀ p ∈ f.position?, Inside source p :=
  ⟨(blames_of_error h).pointsInto,(blames_of_error h).inside⟩

/-- Neither the signs that are resolved before nor the two bytes of the offender shift the place. -/
theorem evaluate_pointsInto_signs :
    (evaluate "-(2-3*é" .empty).1 = .error (.unexpectedToken (.unknown "é") 6) ∧
    (Fault.unexpectedToken (.unknown "é") 6).PointsInto "-(2-3*é" (evaluate "-(2-3*é" .empty).2 ∧
    Inside "-(2-3*é" 6 := by
  have h : (evaluate "-(2-3*é" .empty).1 = .error (.unexpectedToken (.unknown "é") 6) := by
    decide +kernel
  exact ⟨h,(evaluate_pointsInto h).1,(evaluate_pointsInto h).2 6 rfl⟩

end Reckoner
