import Reckoner.Proofs.Joints
import Reckoner.Proofs.Reading

namespace Reckoner

namespace Sign
variable {before : Option Token}

/-- Whether a token is the name of a function. -/
def calls : Option Token → Bool
  | some (.ident name) => Builtin.isFunction name
  | _ => false

/-- Whether an operand is due after this token. -/
def awaits (before : Option Token) : Bool := calls before || !closes before

/-- Whether a token is a number below zero right behind the name of a function. -/
def isArgument (before : Option Token) : Token → Bool
  | .num x => Number.negative x && calls before
  | _ => false

/-- The places of the numbers below zero that stand right behind the name of a function. An operand
is due there, but a sign is resolved by the token before it alone, and that is a name like any
other. -/
def argumentsFrom : Option Token → List Lexeme → List Nat
  | _, [] => []
  | before, ⟨t,p⟩ :: ls =>
    if isArgument before t then p :: argumentsFrom (some t) ls else argumentsFrom (some t) ls

theorem argumentsFrom_append (before : Option Token) (ls ms : List Lexeme) :
    argumentsFrom before (ls ++ ms) =
      argumentsFrom before ls ++ argumentsFrom (after before ls) ms := by
  induction ls generalizing before with
  | nil => rfl
  | cons l ls ih =>
    obtain ⟨t,p⟩ := l
    rw [List.cons_append,argumentsFrom,argumentsFrom,after_cons,ih]
    split <;> rfl

/-- The name of a function is all that operands are due behind and can also end with. -/
theorem closes_of_awaits (h : awaits before = true) : closes before = calls before := by
  cases hc : calls before with
  | true =>
    unfold calls at hc
    split at hc
    · rfl
    · cases hc
  | false => simpa [awaits,hc] using h

theorem awaits_operator (op : Operator) : awaits (some op.token) = true := by
  cases op <;> rfl

theorem awaits_function {name : String} {g : Builtin.Function}
    (h : Builtin.function? name = some g) :
    awaits (some (.ident name)) = true := by
  rw [awaits,calls,Builtin.isFunction,h]
  rfl

/-- Where an operand is due, a number is cut only behind the name of a function. -/
theorem expand_num {x : Float} (h : awaits before = true) (p : Nat) :
    expand before ⟨.num x,p⟩ =
      if isArgument before (.num x) then [⟨.minus,p⟩,⟨.num (-x),p + 1⟩] else [⟨.num x,p⟩] := by
  simp only [expand,isArgument,closes_of_awaits h]
  rfl

theorem expand_operator (h : opens before = false) (op : Operator) (p : Nat) :
    expand before ⟨op.token,p⟩ = [⟨op.token,p⟩] := by
  cases op with
  | sub => simp only [expand,Operator.token,h,Bool.false_eq_true,if_false]
  | _ => rfl

theorem argumentsFrom_operator (before : Option Token) (op : Operator) (p : Nat)
    (ls : List Lexeme) :
    argumentsFrom before (⟨op.token,p⟩ :: ls) = argumentsFrom (some op.token) ls := by
  cases op <;> rfl

end Sign

namespace Phrase
open Sign

theorem opens_after (w : Phrase) (before : Option Token) :
    opens (after before w.lexemes) = false := by
  induction w generalizing before with
  | num | const | var => rfl
  | assign name p q w ih =>
    rw [lexemes,after_cons,after_cons]
    exact ih _
  | call g name spelled p w ih =>
    rw [lexemes,after_cons]
    exact ih _
  | bin op p l r ihl ihr =>
    rw [lexemes,after_append,after_cons]
    exact ihr _
  | group p q w ih =>
    rw [lexemes,after_cons,after_append,after_cons]
    rfl

section Parts
variable (before : Option Token) (p q : Nat) (w l r : Phrase)

theorem resolveFrom_assign (name : FreeName) :
    resolveFrom before (assign name p q w).lexemes =
      ⟨.ident name.1,p⟩ :: ⟨.equals,q⟩ :: resolveFrom (some .equals) w.lexemes := by
  rw [lexemes,resolveFrom_cons,resolveFrom_cons]
  rfl

theorem resolveFrom_call {g : Builtin.Function} {name : String}
    (spelled : Builtin.function? name = some g) :
    resolveFrom before (call g name spelled p w).lexemes =
      ⟨.ident name,p⟩ :: resolveFrom (some (.ident name)) w.lexemes := by
  rw [lexemes,resolveFrom_cons]
  rfl

theorem resolveFrom_bin (op : Operator) :
    resolveFrom before (bin op p l r).lexemes =
      resolveFrom before l.lexemes ++ ⟨op.token,p⟩ :: resolveFrom (some op.token) r.lexemes := by
  rw [lexemes,resolveFrom_append,resolveFrom_cons,expand_operator (l.opens_after before)]
  rfl

theorem resolveFrom_group :
    resolveFrom before (group p q w).lexemes =
      ⟨.lparen,p⟩ :: (resolveFrom (some .lparen) w.lexemes ++ [⟨.rparen,q⟩]) := by
  rw [lexemes,resolveFrom_cons,resolveFrom_append]
  rfl

theorem argumentsFrom_bin (op : Operator) :
    argumentsFrom before (bin op p l r).lexemes =
      argumentsFrom before l.lexemes ++ argumentsFrom (some op.token) r.lexemes := by
  rw [lexemes,argumentsFrom_append,argumentsFrom_operator]

theorem argumentsFrom_group :
    argumentsFrom before (group p q w).lexemes = argumentsFrom (some .lparen) w.lexemes := by
  have inside : argumentsFrom before (group p q w).lexemes =
      argumentsFrom (some .lparen) (w.lexemes ++ [⟨.rparen,q⟩]) := rfl
  rw [inside,argumentsFrom_append]
  exact List.append_nil _

end Parts

/-- A phrase without such numbers is left as it is. -/
theorem resolveFrom_lexemes (w : Phrase) {before : Option Token} (ha : awaits before = true)
    (hw : argumentsFrom before w.lexemes = []) : resolveFrom before w.lexemes = w.lexemes := by
  induction w generalizing before with
  | num x p =>
    rw [lexemes,argumentsFrom] at hw
    rw [lexemes,resolveFrom_cons,expand_num ha]
    split
    · rename_i hx
      rw [if_pos hx] at hw
      cases hw
    · rfl
  | const | var => rfl
  | assign name p q w ih =>
    rw [resolveFrom_assign,ih rfl hw]
    rfl
  | call g name spelled p w ih =>
    rw [resolveFrom_call,ih (awaits_function spelled) hw]
    rfl
  | bin op p l r ihl ihr =>
    rw [argumentsFrom_bin,List.append_eq_nil_iff] at hw
    rw [resolveFrom_bin,ihl ha hw.1,ihr (awaits_operator op) hw.2]
    rfl
  | group p q w ih =>
    rw [argumentsFrom_group] at hw
    rw [resolveFrom_group,ih rfl hw]
    rfl

/-- The run over a phrase ends at the first such number. Up to there it is the run over the phrase
as it was, whatever that assigns. -/
theorem outcome_resolveFrom (w : Phrase) {before : Option Token} (ha : awaits before = true)
    {bound p : Nat} {us : List Lexeme} {env env' : Environment} {x : Float}
    (hw : w.wellBracketed = true) (hb : ∀ o ∈ w.root?, bound < o.priority)
    (hm : w.tree.meaning env = (.ok x,env'))
    (hp : (argumentsFrom before w.lexemes).head? = some p) :
    (chain bound (resolveFrom before w.lexemes ++ us) env).outcome =
      .error (.unexpectedToken .minus p) := by
  induction w generalizing before bound p us env env' x with
  | num y q =>
    apply chain_of_operand_fault
    rw [lexemes,argumentsFrom] at hp
    rw [lexemes,resolveFrom_cons,expand_num ha]
    split
    · rename_i hy
      rw [if_pos hy] at hp
      cases hp
      rw [List.cons_append,List.cons_append,operand_unexpected _ _ _ rfl]
      rfl
    · rename_i hy
      rw [if_neg hy] at hp
      cases hp
  | const | var => cases hp
  | assign name q r w ih =>
    obtain ⟨y,env₁,hv,_⟩ := Meaning.andThen_eq_ok hm
    have value : (chain 0 (resolveFrom (some .equals) w.lexemes ++ us) env).outcome = _ :=
      ih rfl hw (fun o _ => o.priority_pos) hv hp
    apply chain_of_operand_fault
    rw [resolveFrom_assign,List.cons_append,List.cons_append,operand_assignment _ _ _ _ name.2]
    exact Run.outcome_store value _
  | call g name spelled q w ih =>
    simp only [wellBracketed,Bool.and_eq_true,Option.isNone_iff_eq_none] at hw
    obtain ⟨hroot,hw⟩ := hw
    obtain ⟨y,env₁,hv,_⟩ := Meaning.andThen_eq_ok hm
    have argument : (chain 3 (resolveFrom (some (.ident name)) w.lexemes ++ us) env).outcome = _ :=
      ih (awaits_function spelled) hw (forall_root? hroot) hv hp
    rw [chain_three] at argument
    apply chain_of_operand_fault
    rw [resolveFrom_call,List.cons_append,operand_function _ _ _ spelled]
    exact Run.outcome_map argument _
  | bin op q l r ihl ihr =>
    simp only [wellBracketed,Bool.and_eq_true] at hw
    obtain ⟨⟨⟨hl,hr⟩,hlw⟩,hrw⟩ := hw
    have tight := above_of_standsLeft hl (hb op rfl)
    obtain ⟨y,env₁,hleft,hm⟩ := Meaning.andThen_eq_ok hm
    obtain ⟨z,env₂,hright,_⟩ := Meaning.andThen_eq_ok hm
    rw [argumentsFrom_bin] at hp
    rw [resolveFrom_bin,List.append_assoc]
    cases hargs : argumentsFrom before l.lexemes with
    | cons p' ps =>
      rw [hargs] at hp
      exact ihl ha hlw tight hleft (hargs ▸ hp)
    | nil =>
      -- The left operand is left as it is and has its value, so the run gets to the right one.
      rw [hargs,List.nil_append] at hp
      have right :
          (chain op.rightBound (resolveFrom (some op.token) r.lexemes ++ us) env₁).outcome = _ :=
        ihr (awaits_operator op) hrw (standsRight_iff.mp hr) hright hp
      have left := l.follows_lexemes hlw tight
        (Admits.left q (resolveFrom (some op.token) r.lexemes ++ us) hl) env
      rw [hleft] at left
      have left : chain bound (l.lexemes ++ _) env = climb bound y _ env₁ := left
      rw [l.resolveFrom_lexemes ha hargs,List.cons_append,left,
        climb_operator _ _ _ _ _ (hb op rfl)]
      exact Run.outcome_andThen right _
  | group q r w ih =>
    have inside :
        (chain 0 (resolveFrom (some .lparen) w.lexemes ++ ⟨.rparen,r⟩ :: us) env).outcome = _ :=
      ih rfl hw (fun o _ => o.priority_pos) hm (argumentsFrom_group before q r w ▸ hp)
    apply chain_of_operand_fault
    rw [resolveFrom_group,List.cons_append,List.append_assoc,operand_lparen]
    exact Run.outcome_close inside _

end Phrase

theorem exists_phrase_of_chain {ts : List Lexeme} {env env' : Environment} {x : Float}
    (h : chain 0 ts env = .value x [] env') :
    ∃ w : Phrase, w.lexemes = ts ∧ w.wellBracketed = true ∧ w.tree.meaning env = (.ok x,env') := by
  have gives : (Part.chain 0 ts env).Gives (.value x [] env') := Part.gives_iff.mpr h
  obtain ⟨w,hw⟩ := gives.read rfl
  exact ⟨w,by rw [hw.lexemes,List.append_nil],hw.wellBracketed,hw.meaning⟩

/-- Lexemes that are evaluated whole as they stand are left as they are when their signs are
resolved, so they keep their value and what they assign, unless a number below zero stands in them
right behind the name of a function. The first such number is taken for a subtraction, and its minus
is unexpected. -/
theorem evaluateLexemes_resolve {ts : List Lexeme} {env env' : Environment} {x : Float}
    (h : evaluateLexemes ts env = (.ok (some x),env')) (hrest : (chain 0 ts env).rest = []) :
    (Sign.argumentsFrom none ts = [] →
      Sign.resolve ts = ts ∧ evaluateLexemes (Sign.resolve ts) env = (.ok (some x),env')) ∧
    ∀ p, (Sign.argumentsFrom none ts).head? = some p →
      (evaluateLexemes (Sign.resolve ts) env).1 = .error (.unexpectedToken .minus p) := by
  have whole := chain_of_evaluateLexemes h
  rw [hrest] at whole
  obtain ⟨w,rfl,hw,hm⟩ := exists_phrase_of_chain whole
  refine ⟨?_,?_⟩
  · intro plain
    have kept := w.resolveFrom_lexemes (show Sign.awaits none = true from rfl) plain
    rw [Sign.resolve,kept]
    exact ⟨rfl,h⟩
  · intro p hp
    have fails : (chain 0 (Sign.resolveFrom none w.lexemes ++ []) env).outcome = _ :=
      w.outcome_resolveFrom rfl hw (fun o _ => o.priority_pos) hm hp
    have nonempty : Sign.resolveFrom none w.lexemes ≠ [] :=
      fun hnil => w.lexemes_ne_nil (Sign.eq_nil_of_resolveFrom hnil)
    rw [List.append_nil] at fails
    rw [Sign.resolve,evaluateLexemes_eq nonempty,fails]
    rfl

/-- `round(-2) - a = -3` is left as it is, and `a = 4 * round -2 - 3` is not. -/
theorem evaluateLexemes_resolve_signs :
    let kept : List Lexeme := [⟨.ident "round",0⟩,⟨.lparen,5⟩,⟨.num (-2),6⟩,⟨.rparen,8⟩,⟨.minus,10⟩,
      ⟨.ident "a",12⟩,⟨.equals,14⟩,⟨.num (-3),16⟩]
    let cut : List Lexeme := [⟨.ident "a",0⟩,⟨.equals,2⟩,⟨.num 4,4⟩,⟨.star,6⟩,⟨.ident "round",8⟩,
      ⟨.num (-2),14⟩,⟨.minus,17⟩,⟨.num 3,19⟩]
    evaluateLexemes kept .empty =
      (.ok (some (Number.roundHalfUp (-2) - -3)),Environment.empty.set "a" (-3)) ∧
    evaluateLexemes (Sign.resolve kept) .empty =
      (.ok (some (Number.roundHalfUp (-2) - -3)),Environment.empty.set "a" (-3)) ∧
    evaluateLexemes cut .empty = (.ok (some (4 * Number.roundHalfUp (-2) - 3)),
      Environment.empty.set "a" (4 * Number.roundHalfUp (-2) - 3)) ∧
    (evaluateLexemes (Sign.resolve cut) .empty).1 = .error (.unexpectedToken .minus 14) := by
  intro kept cut
  have whole : evaluateLexemes kept .empty =
      (.ok (some (Number.roundHalfUp (-2) - -3)),Environment.empty.set "a" (-3)) := by
    with_unfolding_all rfl
  have value : evaluateLexemes cut .empty = (.ok (some (4 * Number.roundHalfUp (-2) - 3)),
      Environment.empty.set "a" (4 * Number.roundHalfUp (-2) - 3)) := by
    with_unfolding_all rfl
  have same := (evaluateLexemes_resolve whole (by with_unfolding_all rfl)).1 (by decide +kernel)
  have fails := (evaluateLexemes_resolve value (by with_unfolding_all rfl)).2 14 (by decide +kernel)
  exact ⟨whole,same.2,value,fails⟩

/-- The lexemes of `round -2` have a value as they stand, and none when their signs are resolved. -/
theorem evaluateLexemes_resolve_round :
    evaluateLexemes [⟨.ident "round",0⟩,⟨.num (-2),6⟩] .empty =
      (.ok (some (Number.roundHalfUp (-2))),.empty) ∧
    (chain 0 [⟨.ident "round",0⟩,⟨.num (-2),6⟩] .empty).rest = [] ∧
    Sign.resolve [⟨.ident "round",0⟩,⟨.num (-2),6⟩] =
      [⟨.ident "round",0⟩,⟨.minus,6⟩,⟨.num 2,7⟩] ∧
    evaluateLexemes (Sign.resolve [⟨.ident "round",0⟩,⟨.num (-2),6⟩]) .empty =
      (.error (.unexpectedToken .minus 6),.empty) := by
  have cut : Sign.resolve [⟨.ident "round",0⟩,⟨.num (-2),6⟩] =
      [⟨.ident "round",0⟩,⟨.minus,6⟩,⟨.num 2,7⟩] := by
    decide +kernel
  rw [cut]
  refine ⟨?_,?_,rfl,?_⟩
  · with_unfolding_all rfl
  · with_unfolding_all rfl
  · with_unfolding_all rfl

end Reckoner
