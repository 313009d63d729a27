import Reckoner.Proofs.Completion
import Reckoner.Proofs.Joints
import Reckoner.Proofs.Printing

namespace Reckoner

namespace Builtin
variable {name : String} {f : Function}

/-- Letters stay letters in the other case, so a function is never spelled with anything else. -/
theorem isAlpha_of_sameName (h : sameName f.name name = true) :
    ∀ c ∈ name.toList, c.isAlpha = true := by
  have plain : f.name.toList.all Char.isAlpha = true := by cases f <;> decide
  intro c hc
  simp only [sameName,beq_iff_eq] at h
  obtain ⟨d,hd,hlower⟩ := List.mem_map.mp (h ▸ List.mem_map_of_mem hc)
  rw [← Char.isAlpha_toLower_eq_isAlpha,← hlower,Char.isAlpha_toLower_eq_isAlpha]
  exact List.all_eq_true.mp plain d hd

theorem isName_of_sameName (h : sameName f.name name = true) : IsName name.toList := by
  have letters := isAlpha_of_sameName h
  cases hn : name.toList with
  | nil =>
    simp only [sameName,hn,beq_iff_eq] at h
    cases f <;> cases h
  | cons c cs =>
    rw [hn] at letters
    refine ⟨c,cs,rfl,letters c List.mem_cons_self,?_⟩
    intro d hd
    have hd := letters d (List.mem_cons_of_mem c hd)
    exact .inl (by rw [Char.isAlphanum,hd,Bool.true_or])

end Builtin

/-- What can be written around a text: parentheses, and perhaps a function or a sign in front. -/
inductive Wrapping where
  | group
  | call (f : Builtin.Function) (name : String) (spelled : Builtin.sameName f.name name = true)
  | negation

namespace Wrapping

def around : Wrapping → String → String
  | group, s => "(" ++ s ++ ")"
  | call _ name _, s => name ++ "(" ++ s ++ ")"
  | negation, s => "-(" ++ s ++ ")"

def apply : Wrapping → Float → Float
  | group, x => x
  | call f _ _, x => f.apply x
  | negation, x => -1 * x

def front : Wrapping → List Char
  | group => []
  | call _ name _ => name.toList
  | negation => ['-']

theorem around_eq (w : Wrapping) (s : String) :
    w.around s = String.ofList (w.front ++ '(' :: (s.toList ++ [')'])) := by
  apply String.toList_inj.mp
  cases w <;> simp [around,front]

end Wrapping

theorem rawLexemes_group (front cs : List Char) :
    rawLexemes (String.ofList (front ++ '(' :: (cs ++ [')']))) =
      rawLexemes (String.ofList front) ++ ⟨.lparen,Piece.byteCount front⟩ ::
        ((rawLexemes (String.ofList cs)).map (Lexeme.move (· + (Piece.byteCount front + 1))) ++
          [⟨.rparen,Piece.byteCount front + 1 + Piece.byteCount cs⟩]) := by
  have lparen : Token.symbol? '(' = some .lparen := rfl
  have rparen : Token.symbol? ')' = some .rparen := rfl
  have inside := Piece.lexemesFrom_scan (Piece.byteCount front + 1) cs
  simp only [rawLexemes,String.toList_ofList] at inside ⊢
  rw [Piece.scan_append_symbol lparen (by decide),Piece.scan_append_symbol rparen (by decide),
    Piece.lexemesFrom_append,Piece.flatMap_text_scan,Piece.lexemesFrom,Piece.lexemesFrom_append,
    Piece.flatMap_text_scan,Nat.zero_add]
  change _ ++ _ :: (Piece.lexemesFrom (Piece.byteCount front + 1) (Piece.scan cs) ++ _) = _
  rw [inside,Piece.lexemesFrom,Piece.scan,Piece.lexemesFrom]
  rfl

/-- The lexemes of a text that ends in a group are those in front, and inside the parentheses those
of the inside. -/
theorem lexemes_group (front cs : List Char) :
    lexemes (String.ofList (front ++ '(' :: (cs ++ [')']))) =
      lexemes (String.ofList front) ++ ⟨.lparen,Piece.byteCount front⟩ ::
        ((lexemes (String.ofList cs)).map (Lexeme.move (· + (Piece.byteCount front + 1))) ++
          [⟨.rparen,Piece.byteCount front + 1 + Piece.byteCount cs⟩]) := by
  rw [lexemes,rawLexemes_group,Sign.resolve,Sign.resolveFrom_append,Sign.resolveFrom_cons,
    Sign.resolveFrom_append,Sign.resolveFrom_lparen,Sign.resolveFrom_cons,Sign.resolve,
    Sign.resolveFrom_shift]
  rfl

section Around
variable {ts : List Lexeme} {env env' : Environment} {x : Float}

/-- With the parenthesis that closes the group behind it, a chain ends where it ended by itself. -/
theorem operand_group (h : chain 0 ts env = .value x [] env') (p q : Nat) :
    operand (⟨.lparen,p⟩ :: (ts ++ [⟨.rparen,q⟩])) env = .value x [] env' := by
  have gives : (Part.chain 0 ts env).Gives (.value x [] env') := Part.gives_iff.mpr h
  have inside := gives.append_value rfl [⟨.rparen,q⟩] (.inr ⟨rfl,by simp⟩)
  simp only [Part.append,Part.run,List.nil_append] at inside
  rw [operand_lparen,inside]
  rfl

theorem chain_of_operand (bound : Nat) (h : operand ts env = .value x [] env') :
    chain bound ts env = .value x [] env' := by
  rw [chain_eq,h,Run.andThen_value,climb_nil]

namespace Wrapping

theorem chain_front (w : Wrapping) (h : operand ts env = .value x [] env') :
    chain 0 (lexemes (String.ofList w.front) ++ ts) env = .value (w.apply x) [] env' := by
  cases w with
  | group =>
    have nothing : lexemes (String.ofList []) = [] := by decide +kernel
    rw [front,nothing]
    exact chain_of_operand 0 h
  | call f name spelled =>
    have one : lexemes (String.ofList name.toList) = [⟨.ident name,0⟩] := by
      rw [String.ofList_toList,lexemes,rawLexemes_name (Builtin.isName_of_sameName spelled)]
      rfl
    have argument := operand_function 0 ts env (Builtin.function?_of_sameName spelled)
    rw [h] at argument
    rw [front,one]
    exact chain_of_operand 0 argument
  | negation =>
    have sign : lexemes (String.ofList ['-']) = [⟨.num (-1),0⟩,⟨.star,0⟩] := by decide +kernel
    have right := chain_of_operand Operator.mul.rightBound h
    have product := climb_operator 0 (-1) 0 ts env (show 0 < Operator.mul.priority by decide)
    rw [right,Run.andThen_value,climb_nil] at product
    rw [front,sign,List.cons_append,List.singleton_append,chain_eq,operand_num,Run.andThen_value]
    exact product

/-- A text that is consumed whole is consumed whole inside a wrapping. -/
theorem chain_around (w : Wrapping) {s : String} (h : chain 0 (lexemes s) env = .value x [] env') :
    chain 0 (lexemes (w.around s)) env = .value (w.apply x) [] env' := by
  rw [around_eq,lexemes_group]
  apply chain_front
  apply operand_group
  rw [String.ofList_toList,chain_move,h]
  rfl

end Wrapping

/-- Some wrappings around a text, the first one outermost. -/
def nest (ws : List Wrapping) (s : String) : String := ws.foldr Wrapping.around s

theorem chain_nest (ws : List Wrapping) {s : String}
    (h : chain 0 (lexemes s) env = .value x [] env') :
    chain 0 (lexemes (nest ws s)) env = .value (ws.foldr Wrapping.apply x) [] env' := by
  induction ws with
  | nil => exact h
  | cons w ws ih => exact w.chain_around ih

/-- An expression of which nothing is left over is one inside parentheses too, at any depth, and
with the same assignments. A function in front of the parentheses, in any letter case, is applied to
its value, and a sign multiplies it by -1. -/
theorem evaluate_nest (ws : List Wrapping) {s : String}
    (h : evaluate s env = (.ok (some x),env')) (hrest : (chain 0 (lexemes s) env).rest = []) :
    evaluate (nest ws s) env = (.ok (some (ws.foldr Wrapping.apply x)),env') ∧
      (chain 0 (lexemes (nest ws s)) env).rest = [] := by
  have whole := chain_of_evaluateLexemes h
  rw [hrest] at whole
  have nested := chain_nest ws whole
  exact ⟨evaluateLexemes_of_chain nested,by rw [nested,Run.rest]⟩

/-- An assignment between two signs, which is made inside a sign, a root and parentheses. -/
theorem evaluate_nest_signs :
    evaluate "- (a = 4) * -9" .empty = (.ok (some (-1 * 4 * -9)),Environment.empty.set "a" 4) ∧
    (chain 0 (lexemes "- (a = 4) * -9") .empty).rest = [] ∧
    evaluate "-(sQRt((- (a = 4) * -9)))" .empty =
      (.ok (some (-1 * Float.sqrt (-1 * 4 * -9))),Environment.empty.set "a" 4) ∧
    (chain 0 (lexemes "-(sQRt((- (a = 4) * -9)))") .empty).rest = [] := by
  have scanned : lexemes "- (a = 4) * -9" = [⟨.num (-1),0⟩,⟨.star,0⟩,⟨.lparen,2⟩,⟨.ident "a",3⟩,
      ⟨.equals,5⟩,⟨.num 4,7⟩,⟨.rparen,8⟩,⟨.star,10⟩,⟨.num (-9),12⟩] := by
    decide +kernel
  have alone : evaluate "- (a = 4) * -9" .empty =
      (.ok (some (-1 * 4 * -9)),Environment.empty.set "a" 4) := by
    rw [evaluate,scanned]
    with_unfolding_all rfl
  have rest : (chain 0 (lexemes "- (a = 4) * -9") .empty).rest = [] := by
    rw [scanned]
    with_unfolding_all rfl
  have text : nest [.negation,.call .sqrt "sQRt" (by decide),.group] "- (a = 4) * -9" =
      "-(sQRt((- (a = 4) * -9)))" := by
    decide +kernel
  rw [← text]
  exact ⟨alone,rest,evaluate_nest _ alone rest⟩

end Around

end Reckoner
