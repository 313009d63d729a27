import Reckoner.Proofs.Assignment
import Reckoner.Proofs.Joints
import Reckoner.Proofs.Printing

namespace Reckoner

namespace Sign
variable {ls : List Lexeme}

/-- Behind the sign of an assignment the signs are those of an expression, except for a minus that
stands alone. -/
theorem resolveFrom_equals (h : next? ls ≠ some .minus) :
    resolveFrom (some .equals) ls = resolve ls := by
  cases ls with
  | nil => rfl
  | cons l ls =>
    obtain ⟨t,p⟩ := l
    rw [resolve,resolveFrom_cons,resolveFrom_cons]
    cases t with
    | minus => exact absurd rfl h
    | _ => rfl

theorem resolveFrom_equals_minus (p : Nat) (ls : List Lexeme) :
    resolveFrom (some .equals) (⟨.minus,p⟩ :: ls) =
      ⟨.minus,p⟩ :: resolveFrom (some .minus) ls := by
  rw [resolveFrom_cons]
  rfl

end Sign

section Named
variable {name s : String} {env env' : Environment} {x : Float}

theorem rawLexemes_named (hname : IsName name.toList) (s : String) :
    rawLexemes (name ++ " = " ++ s) =
      ⟨.ident name,0⟩ :: ⟨.equals,Piece.byteCount name.toList + 1⟩ ::
        (rawLexemes s).map (Lexeme.move (· + (Piece.byteCount name.toList + 3))) := by
  have blank : Scan.isBlank ' ' = true := rfl
  have equals : Token.symbol? '=' = some .equals := rfl
  have text : (name ++ " = " ++ s).toList = name.toList ++ ' ' :: '=' :: ' ' :: s.toList := by simp
  have cut : Piece.scan (' ' :: '=' :: ' ' :: s.toList) =
      .blank ' ' :: .word .equals ['='] :: .blank ' ' :: Piece.scan s.toList := by
    rw [Piece.scan_blank blank,Piece.scan_symbol equals,Piece.scan_blank blank]
    exact Literal.read?_of_other rfl (by decide) (by decide) _
  have first := rawLexemes_name hname
  have behind := Piece.lexemesFrom_scan (Piece.byteCount name.toList + 3) s.toList
  rw [String.ofList_toList] at behind
  rw [rawLexemes] at first
  rw [rawLexemes,text,Piece.joint_blank blank,cut,Piece.lexemesFrom_append,Piece.flatMap_text_scan,
    first,Nat.zero_add,← behind]
  rfl

theorem lexemes_named (hname : IsName name.toList) (s : String) :
    lexemes (name ++ " = " ++ s) =
      ⟨.ident name,0⟩ :: ⟨.equals,Piece.byteCount name.toList + 1⟩ ::
        (Sign.resolveFrom (some .equals) (rawLexemes s)).map
          (Lexeme.move (· + (Piece.byteCount name.toList + 3))) := by
  rw [lexemes,rawLexemes_named hname,Sign.resolve,Sign.resolveFrom_cons,Sign.resolveFrom_cons,
    Sign.resolveFrom_shift]
  rfl

theorem evaluate_named_of_chain (hname : IsName name.toList)
    (hfree : Builtin.isReserved name = false)
    (hminus : next? (rawLexemes s) ≠ some .minus) {rest : List Lexeme}
    (h : chain 0 (lexemes s) env = .value x rest env') :
    evaluate (name ++ " = " ++ s) env = (.ok (some x),env'.set name x) := by
  rw [evaluate,lexemes_named hname,evaluateLexemes_assigned _ _ hfree,
    Sign.resolveFrom_equals hminus,← lexemes,chain_move,h]
  rfl

theorem evaluate_named_of_minus (hname : IsName name.toList)
    (hfree : Builtin.isReserved name = false) {p : Nat} (h : (rawLexemes s).head? = some ⟨.minus,p⟩)
    (env : Environment) :
    evaluate (name ++ " = " ++ s) env =
      (.error (.unexpectedToken .minus (p + (Piece.byteCount name.toList + 3))),env) := by
  obtain ⟨ls,hls⟩ := List.head?_eq_some_iff.mp h
  rw [evaluate,lexemes_named hname,hls,Sign.resolveFrom_equals_minus,
    evaluateLexemes_assigned _ _ hfree,List.map_cons,Lexeme.move,chain_eq,
    operand_unexpected _ _ _ rfl]
  rfl

/-- An expression with a value can be given a name: the value is the same, and the variable is set
to it after all that the expression assigns. But where the expression begins with a minus that is
not scanned as the sign of a number, that minus is unexpected behind the sign of the assignment, and
nothing is assigned. -/
theorem evaluate_named (hname : IsName name.toList) (hfree : Builtin.isReserved name = false)
    (h : evaluate s env = (.ok (some x),env')) :
    (next? (rawLexemes s) ≠ some .minus →
      evaluate (name ++ " = " ++ s) env = (.ok (some x),env'.set name x)) ∧
    ∀ p, (rawLexemes s).head? = some ⟨.minus,p⟩ →
      evaluate (name ++ " = " ++ s) env =
        (.error (.unexpectedToken .minus (p + (Piece.byteCount name.toList + 3))),env) := by
  refine ⟨?_,?_⟩
  · intro hminus
    exact evaluate_named_of_chain hname hfree hminus (chain_of_evaluateLexemes h)
  · intro p hp
    exact evaluate_named_of_minus hname hfree hp env

/-- A number with a sign, and an assignment to the same variable inside; and a minus that stands
alone. -/
theorem evaluate_named_signs :
    IsName "x_1".toList ∧ Builtin.isReserved "x_1" = false ∧
    evaluate "-3 * (x_1 = 2)" .empty = (.ok (some (-3 * 2)),Environment.empty.set "x_1" 2) ∧
    evaluate "x_1 = -3 * (x_1 = 2)" .empty =
      (.ok (some (-3 * 2)),(Environment.empty.set "x_1" 2).set "x_1" (-3 * 2)) ∧
    evaluate " - 2" .empty = (.ok (some (-1 * 2)),.empty) ∧
    evaluate "x_1 =  - 2" .empty = (.error (.unexpectedToken .minus 7),.empty) := by
  have name : IsName "x_1".toList := ⟨'x',['_','1'],rfl,rfl,by simp⟩
  have free : Builtin.isReserved "x_1" = false := by decide
  have product : evaluate "-3 * (x_1 = 2)" .empty =
      (.ok (some (-3 * 2)),Environment.empty.set "x_1" 2) := by
    have scanned : lexemes "-3 * (x_1 = 2)" = [⟨.num (-3),0⟩,⟨.star,3⟩,⟨.lparen,5⟩,
        ⟨.ident "x_1",6⟩,⟨.equals,10⟩,⟨.num 2,12⟩,⟨.rparen,13⟩] := by
      decide +kernel
    rw [evaluate,scanned]
    with_unfolding_all rfl
  have negation : evaluate " - 2" .empty = (.ok (some (-1 * 2)),.empty) := by
    have scanned : lexemes " - 2" = [⟨.num (-1),1⟩,⟨.star,1⟩,⟨.num 2,3⟩] := by decide +kernel
    rw [evaluate,scanned]
    with_unfolding_all rfl
  have kept := (evaluate_named name free product).1 (by decide +kernel)
  have lost := (evaluate_named name free negation).2 1 (by decide +kernel)
  exact ⟨name,free,product,kept,negation,lost⟩

/-- The text `-(2)` has a value and cannot be given a name. -/
theorem evaluate_named_minus :
    IsName "a".toList ∧ Builtin.isReserved "a" = false ∧
    evaluate "-(2)" .empty = (.ok (some (-1 * 2)),.empty) ∧
    evaluate "a = -(2)" .empty = (.error (.unexpectedToken .minus 4),.empty) := by
  have alone : lexemes "-(2)" =
      [⟨.num (-1),0⟩,⟨.star,0⟩,⟨.lparen,1⟩,⟨.num 2,2⟩,⟨.rparen,3⟩] := by
    decide +kernel
  have assigned : lexemes "a = -(2)" =
      [⟨.ident "a",0⟩,⟨.equals,2⟩,⟨.minus,4⟩,⟨.lparen,5⟩,⟨.num 2,6⟩,⟨.rparen,7⟩] := by
    decide +kernel
  refine ⟨⟨'a',[],rfl,rfl,by simp⟩,by decide,?_,?_⟩
  · rw [evaluate,alone]
    with_unfolding_all rfl
  · rw [evaluate,assigned]
    with_unfolding_all rfl

end Named

end Reckoner
