import Reckoner.Proofs.Places
import Reckoner.Proofs.Spans

namespace Reckoner

namespace Sign
variable {a b before : Option Token} {ls ms : List Lexeme}

/-- The token before what follows the lexemes, as it was scanned. -/
def after (before : Option Token) (ls : List Lexeme) : Option Token :=
  (ls.getLast?.map Lexeme.token).or before

theorem after_cons (before : Option Token) (l : Lexeme) (ls : List Lexeme) :
    after before (l :: ls) = after (some l.token) ls := by
  rw [after,after,List.getLast?_cons]
  cases ls.getLast? <;> rfl

theorem after_append (before : Option Token) (ls ms : List Lexeme) :
    after before (ls ++ ms) = after (after before ls) ms := by
  induction ls generalizing before with
  | nil => rfl
  | cons l ls ih => rw [List.cons_append,after_cons,after_cons,ih]

/-- Behind the end of an operand no expression begins. -/
theorem opens_of_closes (h : closes before = true) : opens before = false := by
  unfold opens
  split
  · cases h
  · cases h
  · rfl

theorem expand_congr (ho : opens a = opens b) (hc : closes a = closes b) (l : Lexeme) :
    expand a l = expand b l := by
  unfold expand
  rw [ho,hc]

/-- Of what stands before, the signs only ask whether it begins or ends an operand. -/
theorem resolveFrom_congr (ho : opens a = opens b) (hc : closes a = closes b) (ls : List Lexeme) :
    resolveFrom a ls = resolveFrom b ls := by
  cases ls with
  | nil => rfl
  | cons l ls => rw [resolveFrom,resolveFrom,lastToken,lastToken,expand_congr ho hc]

/-- A lexeme leaves behind what it was, or what begins and ends operands as it does. -/
theorem lastToken_alike (before : Option Token) (l : Lexeme) :
    opens (lastToken before l) = opens (some l.token) ∧
      closes (lastToken before l) = closes (some l.token) := by
  obtain ⟨t,p⟩ := l
  cases t with
  | minus =>
    simp only [lastToken,expand]
    split <;> exact ⟨rfl,rfl⟩
  | num x =>
    simp only [lastToken,expand]
    split <;> exact ⟨rfl,rfl⟩
  | _ => exact ⟨rfl,rfl⟩

theorem resolveFrom_cons (before : Option Token) (l : Lexeme) (ls : List Lexeme) :
    resolveFrom before (l :: ls) = expand before l ++ resolveFrom (some l.token) ls := by
  obtain ⟨ho,hc⟩ := lastToken_alike before l
  rw [resolveFrom,resolveFrom_congr ho hc]

theorem resolveFrom_append (before : Option Token) (ls ms : List Lexeme) :
    resolveFrom before (ls ++ ms) = resolveFrom before ls ++ resolveFrom (after before ls) ms := by
  induction ls generalizing before with
  | nil => rfl
  | cons l ls ih =>
    rw [List.cons_append,resolveFrom_cons,resolveFrom_cons,ih,after_cons,List.append_assoc]

theorem resolveFrom_lparen (ls : List Lexeme) : resolveFrom (some .lparen) ls = resolve ls := by
  rw [resolve]
  exact resolveFrom_congr (a := some .lparen) (b := none) rfl rfl ls

end Sign

namespace Piece

/-- The pieces of two texts in a row are those of each of them. -/
def Joint (u v : List Char) : Prop := scan (u ++ v) = scan u ++ scan v

/-- In front of a blank a text may be cut. -/
theorem joint_blank {c : Char} (hc : Scan.isBlank c = true) (cs rest : List Char) :
    Joint cs (c :: rest) := by
  refine scan_append_blank ?_ cs
  intro d ds he
  rwa [← (List.cons.inj he).1]

theorem lexemesFrom_append (p : Nat) (ps qs : List Piece) :
    lexemesFrom p (ps ++ qs) =
      lexemesFrom p ps ++ lexemesFrom (p + byteCount (ps.flatMap text)) qs := by
  induction ps generalizing p with
  | nil => rfl
  | cons piece ps ih =>
    cases piece with
    | blank c =>
      rw [List.cons_append,lexemesFrom,lexemesFrom,ih,List.flatMap_cons,byteCount_append,
        ← Nat.add_assoc]
      rfl
    | word t w =>
      rw [List.cons_append,lexemesFrom,lexemesFrom,ih,List.flatMap_cons,byteCount_append,
        ← Nat.add_assoc]
      rfl

/-- The lexemes of a text that begins at a place are those of the text, moved there. -/
theorem lexemesFrom_scan (n : Nat) (cs : List Char) :
    lexemesFrom n (scan cs) = (rawLexemes (String.ofList cs)).map (Lexeme.move (· + n)) := by
  rw [rawLexemes,String.toList_ofList,← lexemesFrom_move,Nat.zero_add]

end Piece

theorem Sign.resolveFrom_shift (before : Option Token) (n : Nat) (ls : List Lexeme) :
    resolveFrom before (ls.map (Lexeme.move (· + n))) =
      (resolveFrom before ls).map (Lexeme.move (· + n)) :=
  resolveFrom_move (fun _ _ _ _ => Nat.add_right_comm _ _ _)

section Append
variable {u v : String}

theorem rawLexemes_append (h : Piece.Joint u.toList v.toList) :
    rawLexemes (u ++ v) =
      rawLexemes u ++ (rawLexemes v).map (Lexeme.move (· + Piece.byteCount u.toList)) := by
  have behind := Piece.lexemesFrom_scan (Piece.byteCount u.toList) v.toList
  rw [String.ofList_toList] at behind
  rw [rawLexemes,String.toList_append,h,Piece.lexemesFrom_append,Piece.flatMap_text_scan,
    Nat.zero_add,behind,← rawLexemes]

/-- The signs of the text behind are resolved behind what the text in front ends with. -/
theorem lexemes_append (h : Piece.Joint u.toList v.toList) :
    lexemes (u ++ v) = lexemes u ++
      (Sign.resolveFrom (Sign.after none (rawLexemes u)) (rawLexemes v)).map
        (Lexeme.move (· + Piece.byteCount u.toList)) := by
  rw [lexemes,rawLexemes_append h,Sign.resolve,Sign.resolveFrom_append,Sign.resolveFrom_shift,
    ← Sign.resolve,← lexemes]

end Append

section Symbol
variable {c : Char} {t : Token}

theorem isBlank_of_symbol? (h : Token.symbol? c = some t) : Scan.isBlank c = false := by
  unfold Token.symbol? at h
  split at h <;> first | rfl | cases h

theorem breaks_symbol (h : Token.symbol? c = some t) (cs : List Char) : Breaks (c :: cs) := by
  have part : Scan.isNamePart c = false ∧ c ≠ '.' := by
    unfold Token.symbol? at h
    split at h <;> first | decide | cases h
  exact breaks_cons part.1 part.2 cs

theorem endsRun_symbol (h : Token.symbol? c = some t) (cs : List Char) : EndsRun (c :: cs) := by
  rintro d ds he
  obtain ⟨rfl,rfl⟩ := List.cons.inj he
  exact .inr (fun hu => hu t [c] (.symbol h) ⟨cs,rfl⟩)

theorem Piece.joint_symbol (h : Token.symbol? c = some t) (cs rest : List Char) :
    Joint cs (c :: rest) :=
  scan_append (breaks_symbol h rest) (endsRun_symbol h rest) cs

/-- A symbol is a piece of its own, unless it is the sign of a number. -/
theorem Piece.scan_symbol {cs : List Char} (h : Token.symbol? c = some t)
    (hl : Literal.read? (c :: cs) = none) : scan (c :: cs) = word t [c] :: scan cs := by
  have read : Scan.read? (c :: cs) = some ⟨t,[c],cs⟩ := by
    rw [Scan.word?_of_literal hl,Scan.word?_symbol h]
  rw [scan_word (isBlank_of_symbol? h) read]

/-- Where a symbol stands that is no sign, a text is cut on both sides of it. -/
theorem Piece.scan_append_symbol (h : Token.symbol? c = some t) (hm : c ≠ '-')
    (cs rest : List Char) :
    scan (cs ++ c :: rest) = scan cs ++ word t [c] :: scan rest := by
  have other : c.isDigit = false ∧ c ≠ '.' := by
    unfold Token.symbol? at h
    split at h <;> first | decide | cases h
  rw [joint_symbol h,scan_symbol h (Literal.read?_of_other other.1 hm other.2 rest)]

end Symbol

end Reckoner
