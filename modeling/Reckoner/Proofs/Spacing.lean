import Reckoner.Proofs.Cuts

namespace Reckoner

def shift (b n p : Nat) : Nat := if b ≤ p then p + n else p

/-- The text in front and the text behind meet where blanks can be put: where something scanned
begins or ends, beside a blank, or behind the sign of a number that follows the end of an
operand. -/
inductive Gap (u v : String) : Prop where
  | start {s : Span} (hs : s ∈ spans (u ++ v)) (hb : s.start = Piece.byteCount u.toList)
  | stop {s : Span} (hs : s ∈ spans (u ++ v)) (hb : s.stop = Piece.byteCount u.toList)
  | beforeBlank {c : Char} {cs : List Char} (hc : Scan.isBlank c = true) (hv : v.toList = c :: cs)
  | behindBlank {c : Char} {cs : List Char} (hc : Scan.isBlank c = true)
      (hu : u.toList = cs ++ [c])
  | sign {a s : Span} {x : Float} {ds : List Char} (hs : [a,s] <:+: spans (u ++ v))
      (hopen : a.token ≠ .lparen) (hop : a.token.isOperator = false) (hx : s.token = .num x)
      (hsign : s.text = '-' :: ds) (hb : s.start + 1 = Piece.byteCount u.toList)

theorem rawLexemes_blanks {w : String} (hw : ∀ c ∈ w.toList, Scan.isBlank c = true) (v : String) :
    rawLexemes (w ++ v) = (rawLexemes v).map (Lexeme.move (· + Piece.byteCount w.toList)) := by
  rw [rawLexemes,String.toList_append,Piece.lexemesFrom_blanks hw,Piece.lexemesFrom_move,
    ← rawLexemes]

section Shift
variable {b k n : Nat} {ls : List Lexeme}

theorem shift_zero (n : Nat) : shift 0 n = (· + n) := by
  funext p
  simp [shift]

theorem map_shift_of_lt (h : ∀ l ∈ ls, l.position < b) (n : Nat) :
    ls.map (Lexeme.move (shift b n)) = ls := by
  apply map_move_of_eq
  intro l hl
  exact if_neg (Nat.not_le.mpr (h l hl))

theorem map_shift_none (b : Nat) (ls : List Lexeme) : ls.map (Lexeme.move (shift b 0)) = ls := by
  apply map_move_of_eq
  intro l _
  exact ite_self l.position

theorem map_shift_of_le (h : b ≤ k) (n : Nat) (ls : List Lexeme) :
    (ls.map (Lexeme.move (· + k))).map (Lexeme.move (shift b n)) =
      ls.map (Lexeme.move (· + (k + n))) := by
  rw [map_move_move]
  apply map_move_congr
  intro l _
  simp only [Function.comp,shift]
  split <;> omega

theorem map_shift_comm (b k n : Nat) (ls : List Lexeme) :
    (ls.map (Lexeme.move (shift k n))).map (Lexeme.move (· + b)) =
      (ls.map (Lexeme.move (· + b))).map (Lexeme.move (shift (b + k) n)) := by
  rw [map_move_move,map_move_move]
  apply map_move_congr
  intro l _
  simp only [Function.comp,shift]
  split <;> split <;> omega

/-- What is changed behind a text is changed in the same way behind a longer one. -/
theorem lexemes_shift {front tail tail' : String} (h : Piece.Joint front.toList tail.toList)
    (h' : Piece.Joint front.toList tail'.toList)
    (ht : Sign.resolveFrom (Sign.after none (rawLexemes front)) (rawLexemes tail') =
      (Sign.resolveFrom (Sign.after none (rawLexemes front)) (rawLexemes tail)).map
        (Lexeme.move (shift k n))) :
    lexemes (front ++ tail') = (lexemes (front ++ tail)).map
      (Lexeme.move (shift (Piece.byteCount front.toList + k) n)) := by
  have before : ∀ l ∈ lexemes front, l.position < Piece.byteCount front.toList + k := by
    intro l hl
    have inside := (inside_of_mem hl).2
    rw [← String.ofList_toList (s := front),Piece.utf8ByteSize_ofList] at inside
    exact Nat.lt_add_right k inside
  rw [lexemes_append h,lexemes_append h',ht,List.map_append,map_shift_of_lt before,map_shift_comm]

end Shift

section Between
variable {u v w : String}

theorem joint_of_span {s : Span} (hs : s ∈ spans (u ++ v))
    (hb : s.start = Piece.byteCount u.toList ∨ s.stop = Piece.byteCount u.toList) :
    Piece.Joint u.toList v.toList := by
  obtain ⟨before,behind,hsplit⟩ := List.append_of_mem hs
  rw [spans,String.toList_append] at hsplit
  obtain ⟨qs,rs,hscan,_,hstart⟩ := Piece.exists_pieces hsplit
  rw [Nat.zero_add] at hstart
  rcases hb with hb | hb
  · exact Piece.joint_of_scan hscan (hstart.symm.trans hb)
  · rw [List.append_cons] at hscan
    refine Piece.joint_of_scan hscan ?_
    rw [← hb,Span.stop,hstart,List.flatMap_append,Piece.byteCount_append,List.flatMap_singleton]
    rfl

theorem joint_behind_blank {c : Char} {cs : List Char} (hc : Scan.isBlank c = true)
    (rest : List Char) : Piece.Joint (cs ++ [c]) rest := by
  have cut : ∀ ds, Piece.scan (cs ++ c :: ds) = Piece.scan cs ++ .blank c :: Piece.scan ds := by
    intro ds
    rw [Piece.joint_blank hc,Piece.scan_blank hc]
  rw [Piece.Joint,List.append_assoc,List.singleton_append,cut,cut,Piece.scan,List.append_assoc]
  rfl

/-- Where a text can be cut, blanks only move what is behind them. -/
theorem lexemes_of_joint (h : Piece.Joint u.toList v.toList)
    (hw : ∀ c ∈ w.toList, Scan.isBlank c = true) :
    lexemes (u ++ (w ++ v)) = (lexemes (u ++ v)).map
      (Lexeme.move (shift (Piece.byteCount u.toList) (Piece.byteCount w.toList))) := by
  have spaced : Piece.Joint u.toList (w ++ v).toList := by
    rw [String.toList_append]
    cases hcs : w.toList with
    | nil => exact h
    | cons c cs => exact Piece.joint_blank (hw c (hcs ▸ List.mem_cons_self)) _ _
  refine lexemes_shift (k := 0) h spaced ?_
  rw [rawLexemes_blanks hw,Sign.resolveFrom_shift,shift_zero]

end Between

theorem Sign.closes_of_token {t : Token} (hopen : t ≠ .lparen) (hop : t.isOperator = false) :
    closes (some t) = true := by
  cases t with
  | lparen => exact absurd rfl hopen
  | plus | minus | star | slash | percent | caret | equals => cases hop
  | _ => rfl

section Signed
variable {cs ds rest : List Char} {x : Float}

/-- A number with a sign is below zero, and without the sign the rest of it is read as the
opposite. -/
theorem Scan.read?_behind_sign (h : read? ('-' :: cs) = some ⟨.num x,'-' :: ds,rest⟩) :
    Number.negative x = true ∧ read? cs = some ⟨.num (-x),ds,rest⟩ := by
  rw [read?] at h
  cases hl : Literal.read? ('-' :: cs) with
  | none =>
    have symbol : Token.symbol? '-' = some .minus := rfl
    rw [hl,word?_symbol symbol] at h
    cases h
  | some r =>
    obtain ⟨l,rest'⟩ := r
    rw [hl] at h
    simp only [Option.some.injEq,Reading.mk.injEq,Token.num.injEq] at h
    obtain ⟨rfl,htext,rfl⟩ := h
    rw [Literal.read?] at hl
    obtain ⟨⟨⟨negative,ws,fs⟩,rest⟩,hu,he⟩ := Option.map_eq_some_iff.mp hl
    cases he
    have hn : negative = false := Literal.negative_of_unsigned? hu
    subst hn
    have hds : Literal.text ⟨false,ws,fs⟩ = ds := by simpa [Literal.text] using htext
    have plain : Literal.read? cs = Literal.unsigned? cs := by
      rw [← (Literal.text_append_of_unsigned? hu).1,Literal.read?]
      exact Literal.ne_sign (Literal.formed_of_unsigned? hu) rest
    refine ⟨Literal.negative_value ws fs,?_⟩
    rw [read?,plain,hu,← hds,Literal.neg_value]

theorem Piece.scan_sign_blank {c : Char} (hc : Scan.isBlank c = true) (cs : List Char) :
    scan ('-' :: c :: cs) = word .minus ['-'] :: scan (c :: cs) := by
  refine scan_symbol rfl ?_
  unfold Scan.isBlank at hc
  split at hc <;> first | rfl | cases hc

section Apart
variable (h : Scan.read? ('-' :: (ds ++ rest)) = some ⟨.num x,'-' :: ds,rest⟩)
include h

theorem rawLexemes_signed :
    rawLexemes ("-" ++ String.ofList (ds ++ rest)) =
      ⟨.num x,0⟩ :: (rawLexemes (String.ofList rest)).map
        (Lexeme.move (· + (1 + Piece.byteCount ds))) := by
  have text : ("-" ++ String.ofList (ds ++ rest)).toList = '-' :: (ds ++ rest) := by simp
  rw [rawLexemes,text,Piece.scan_of_read h,Piece.lexemesFrom,Nat.zero_add,Piece.lexemesFrom_scan]
  rfl

/-- With blanks between them the sign and the number are scanned apart. -/
theorem rawLexemes_sign_apart {w : String} (hw : ∀ c ∈ w.toList, Scan.isBlank c = true)
    (hne : w.toList ≠ []) :
    rawLexemes ("-" ++ (w ++ String.ofList (ds ++ rest))) =
      ⟨.minus,0⟩ :: ⟨.num (-x),1 + Piece.byteCount w.toList⟩ ::
        (rawLexemes (String.ofList rest)).map
          (Lexeme.move (· + (1 + Piece.byteCount ds + Piece.byteCount w.toList))) := by
  obtain ⟨c,cs,hcs⟩ := List.exists_cons_of_ne_nil hne
  have text : ("-" ++ (w ++ String.ofList (ds ++ rest))).toList =
      '-' :: c :: (cs ++ (ds ++ rest)) := by
    simp [hcs]
  have number := Piece.scan_of_read (Scan.read?_behind_sign h).2
  have blanks := Piece.lexemesFrom_blanks hw 1 (ds ++ rest)
  rw [hcs,List.cons_append] at blanks
  rw [rawLexemes,text,Piece.scan_sign_blank (hw c (hcs ▸ List.mem_cons_self)),
    Piece.lexemesFrom]
  change _ :: Piece.lexemesFrom 1 _ = _
  rw [blanks,hcs,number,Piece.lexemesFrom,Piece.lexemesFrom_scan,Nat.add_right_comm]

/-- Behind the end of an operand the sign of a number is a subtraction, whether it is scanned with
the number or apart from it. -/
theorem resolveFrom_sign {before : Option Token} (hb : Sign.closes before = true) {w : String}
    (hw : ∀ c ∈ w.toList, Scan.isBlank c = true) :
    Sign.resolveFrom before (rawLexemes ("-" ++ (w ++ String.ofList (ds ++ rest)))) =
      (Sign.resolveFrom before (rawLexemes ("-" ++ String.ofList (ds ++ rest)))).map
        (Lexeme.move (shift 1 (Piece.byteCount w.toList))) := by
  by_cases hne : w.toList = []
  · rw [String.toList_eq_nil_iff.mp hne,String.empty_append]
    exact (map_shift_none 1 _).symm
  · have below := (Scan.read?_behind_sign h).1
    have cut : Sign.expand before ⟨.num x,0⟩ = [⟨.minus,0⟩,⟨.num (-x),1⟩] := by
      simp only [Sign.expand,below,hb,Bool.and_self,if_true]
    have minus : Sign.expand before ⟨.minus,0⟩ = [⟨.minus,0⟩] := by
      simp only [Sign.expand,Sign.opens_of_closes hb,Bool.false_eq_true,if_false]
    have number : ∀ q, Sign.expand (some .minus) ⟨.num (-x),q⟩ = [⟨.num (-x),q⟩] := by
      intro q
      simp only [Sign.expand,Sign.closes,Token.isOperator,Bool.not_true,Bool.and_false,
        Bool.false_eq_true,if_false]
    have same : Sign.resolveFrom (some (.num (-x))) (rawLexemes (String.ofList rest)) =
        Sign.resolveFrom (some (.num x)) (rawLexemes (String.ofList rest)) :=
      Sign.resolveFrom_congr (a := some (.num (-x))) (b := some (.num x)) rfl rfl _
    rw [rawLexemes_signed h,rawLexemes_sign_apart h hw hne,Sign.resolveFrom_cons,
      Sign.resolveFrom_cons,Sign.resolveFrom_cons,cut,minus,number,Sign.resolveFrom_shift,
      Sign.resolveFrom_shift,same,List.map_append,map_shift_of_le (Nat.le_add_right 1 _)]
    rfl

end Apart

theorem exists_around_sign {u v : String} {a s : Span} (hs : [a,s] <:+: spans (u ++ v))
    (hopen : a.token ≠ .lparen) (hop : a.token.isOperator = false) (hx : s.token = .num x)
    (hsign : s.text = '-' :: ds) (hb : s.start + 1 = Piece.byteCount u.toList) :
    ∃ cs rest, u.toList = cs ++ ['-'] ∧ v.toList = ds ++ rest ∧
      Scan.read? ('-' :: (ds ++ rest)) = some ⟨.num x,'-' :: ds,rest⟩ ∧
      Sign.closes (Sign.after none (rawLexemes (String.ofList cs))) = true := by
  obtain ⟨before,behind,hsplit⟩ := hs
  have hspans : Piece.spansFrom 0 (Piece.scan (u.toList ++ v.toList)) =
      (before ++ [a]) ++ s :: behind := by
    rw [← String.toList_append,← spans,← hsplit]
    simp
  obtain ⟨qs,rs,hscan,hqs,hstart⟩ := Piece.exists_pieces hspans
  rw [hx,hsign] at hscan
  obtain ⟨front,back⟩ := Piece.scan_cut hscan
  have htext := Piece.text_of_scan hscan.symm
  rw [List.flatMap_cons,Piece.text] at htext back
  have hwide : Piece.byteCount u.toList = Piece.byteCount (qs.flatMap Piece.text ++ ['-']) := by
    rw [Piece.byteCount_append,← hb,hstart,Nat.zero_add]
    rfl
  rw [List.cons_append,List.append_cons] at htext
  obtain ⟨hu,hv⟩ := Piece.append_inj_of_byteCount htext hwide
  refine ⟨qs.flatMap Piece.text,rs.flatMap Piece.text,hu,hv,Piece.read?_of_scan back (by simp),?_⟩
  rw [rawLexemes,String.toList_ofList,front,Piece.lexemesFrom_eq,hqs,List.map_append,
    Sign.after_append]
  exact Sign.closes_of_token hopen hop

/-- Between the sign of a number and the number, blanks move the number, if the sign follows the end
of an operand. -/
theorem lexemes_of_sign {u v w : String} {cs : List Char} (hu : u.toList = cs ++ ['-'])
    (hv : v.toList = ds ++ rest)
    (read : Scan.read? ('-' :: (ds ++ rest)) = some ⟨.num x,'-' :: ds,rest⟩)
    (closed : Sign.closes (Sign.after none (rawLexemes (String.ofList cs))) = true)
    (hw : ∀ c ∈ w.toList, Scan.isBlank c = true) :
    lexemes (u ++ (w ++ v)) = (lexemes (u ++ v)).map
      (Lexeme.move (shift (Piece.byteCount u.toList) (Piece.byteCount w.toList))) := by
  have joint : ∀ tail : String, Piece.Joint (String.ofList cs).toList ("-" ++ tail).toList := by
    intro tail
    rw [String.toList_append]
    exact Piece.joint_symbol rfl _ _
  have textU : u = String.ofList cs ++ "-" := String.toList_inj.mp (by simp [hu])
  have textV : v = String.ofList (ds ++ rest) := by rw [← hv,String.ofList_toList]
  have moved := lexemes_shift (joint v) (joint (w ++ v)) (textV ▸ resolveFrom_sign read closed hw)
  have width : Piece.byteCount u.toList = Piece.byteCount (String.ofList cs).toList + 1 := by
    rw [hu,String.toList_ofList,Piece.byteCount_append]
    rfl
  rw [width,textU,String.append_assoc,String.append_assoc,moved]

end Signed

/-- Blanks between lexemes, and those behind the sign of a number that follows an operand, change no
token: the lexemes behind them are moved, and the others stay where they are. So the value and the
variables are the same, and a fault is moved with its lexeme. -/
theorem evaluate_spaced {u v w : String} (h : Gap u v)
    (hw : ∀ c ∈ w.toList, c ∈ [' ','\t','\r','\n','\x0c']) :
    lexemes (u ++ w ++ v) = (lexemes (u ++ v)).map
      (Lexeme.move (shift (Piece.byteCount u.toList) (Piece.byteCount w.toList))) ∧
    ∀ env, evaluate (u ++ w ++ v) env =
      ((evaluate (u ++ v) env).1.mapError
        (Fault.move (shift (Piece.byteCount u.toList) (Piece.byteCount w.toList))),
        (evaluate (u ++ v) env).2) := by
  have blank : ∀ c ∈ w.toList, Scan.isBlank c = true := fun c hc => isBlank_iff.mpr (hw c hc)
  have moved : lexemes (u ++ w ++ v) = (lexemes (u ++ v)).map
      (Lexeme.move (shift (Piece.byteCount u.toList) (Piece.byteCount w.toList))) := by
    rw [String.append_assoc]
    cases h with
    | start hs hb => exact lexemes_of_joint (joint_of_span hs (.inl hb)) blank
    | stop hs hb => exact lexemes_of_joint (joint_of_span hs (.inr hb)) blank
    | beforeBlank hc hv => exact lexemes_of_joint (hv ▸ Piece.joint_blank hc u.toList _) blank
    | behindBlank hc hu => exact lexemes_of_joint (hu ▸ joint_behind_blank hc v.toList) blank
    | sign hs hopen hop hx hsign hb =>
      obtain ⟨cs,rest,hu,hv,read,closed⟩ := exists_around_sign hs hopen hop hx hsign hb
      exact lexemes_of_sign hu hv read closed blank
  refine ⟨moved,?_⟩
  intro env
  rw [evaluate,moved,evaluateLexemes_move,← evaluate]

/-- Blanks behind a sign that is scanned with its number, and in front of a run of unmatched
characters. -/
theorem evaluate_spaced_sign :
    Gap "a-" "3" ∧ Gap "2*" "é" ∧
    lexemes "a-3" = [⟨.ident "a",0⟩,⟨.minus,1⟩,⟨.num 3,2⟩] ∧
    lexemes "a- \t3" = [⟨.ident "a",0⟩,⟨.minus,1⟩,⟨.num 3,4⟩] ∧
    (evaluate "2*é" .empty).1 = .error (.unexpectedToken (.unknown "é") 2) ∧
    (evaluate "2*\r\né" .empty).1 = .error (.unexpectedToken (.unknown "é") 4) := by
  have signed : spans ("a-" ++ "3") =
      [⟨.ident "a",0,['a']⟩,⟨.num (Literal.value ⟨true,['3'],[]⟩),1,['-','3']⟩] := by
    with_unfolding_all rfl
  have stray : spans ("2*" ++ "é") =
      [⟨.num (Literal.value ⟨false,['2'],[]⟩),0,['2']⟩,⟨.star,1,['*']⟩,⟨.unknown "é",2,['é']⟩] := by
    with_unfolding_all rfl
  have minus : Gap "a-" "3" := by
    have pair : [⟨.ident "a",0,['a']⟩,⟨.num (Literal.value ⟨true,['3'],[]⟩),1,['-','3']⟩] <:+:
        spans ("a-" ++ "3") := by
      rw [signed]
    exact .sign pair (by simp) rfl rfl rfl rfl
  have run : Gap "2*" "é" := by
    refine .start (s := ⟨.unknown "é",2,['é']⟩) ?_ rfl
    rw [stray]
    simp
  have scanned : lexemes "a-3" = [⟨.ident "a",0⟩,⟨.minus,1⟩,⟨.num 3,2⟩] := by decide +kernel
  have fails : (evaluate "2*é" .empty).1 = .error (.unexpectedToken (.unknown "é") 2) := by
    decide +kernel
  have apart := (evaluate_spaced (w := " \t") minus (by simp)).1
  have behind := (evaluate_spaced (w := "\r\n") run (by simp)).2 .empty
  have textA : "a-" ++ " \t" ++ "3" = "a- \t3" ∧ "a-" ++ "3" = "a-3" := by decide +kernel
  have textB : "2*" ++ "\r\n" ++ "é" = "2*\r\né" ∧ "2*" ++ "é" = "2*é" := by decide +kernel
  rw [textA.1,textA.2,scanned] at apart
  rw [textB.1,textB.2] at behind
  refine ⟨minus,run,scanned,apart.trans ?_,fails,?_⟩
  · rfl
  · rw [behind,fails]
    rfl

end Reckoner
