import Reckoner.Proofs.Places
import Reckoner.Proofs.ReadBack

namespace Reckoner

namespace Literal
variable {ds fs : List Char} {l : Literal}

theorem unsigned?_text (h : Formed ⟨false,ds,fs⟩) :
    unsigned? (text ⟨false,ds,fs⟩) = some (⟨false,ds,fs⟩,[]) := by
  by_cases hf : fs = []
  · subst hf
    have hd : ds ≠ [] := h.nonempty.resolve_right (fun hn => hn rfl)
    have htext : text ⟨false,ds,[]⟩ = ds ++ [] := by simp [text]
    have hdigits : digits (ds ++ []) = ds ++ [] := digits_append h.whole []
    have hafter : afterDigits (ds ++ []) = [] := afterDigits_append h.whole []
    rw [htext,unsigned?,hafter,hdigits,List.append_nil]
    simp [fraction?,hd]
  · have htext : text ⟨false,ds,fs⟩ = ds ++ '.' :: fs := by simp [text,hf]
    have hwhole : digits (ds ++ '.' :: fs) = ds ++ [] := digits_append h.whole _
    have hafter : afterDigits (ds ++ '.' :: fs) = '.' :: fs := afterDigits_append h.whole _
    have hdigits : digits (fs ++ []) = fs ++ [] := digits_append h.fraction []
    have hrest : afterDigits (fs ++ []) = [] := afterDigits_append h.fraction []
    rw [List.append_nil] at hwhole hrest
    rw [List.append_nil] at hdigits
    rw [htext,unsigned?,hafter,hwhole,fraction?,hdigits,hrest,if_neg hf]

theorem read?_text (h : l.Formed) : read? l.text = some (l,[]) := by
  obtain ⟨negative,ds,fs⟩ := l
  have bare : Formed ⟨false,ds,fs⟩ := ⟨h.whole,h.fraction,h.nonempty⟩
  cases negative with
  | true =>
    have htext : text ⟨true,ds,fs⟩ = '-' :: text ⟨false,ds,fs⟩ := by simp [text]
    rw [htext,read?,unsigned?_text bare]
    rfl
  | false =>
    have hsign := ne_sign bare []
    rw [List.append_nil] at hsign
    rw [read?]
    · exact unsigned?_text bare
    · exact hsign

end Literal

namespace Scan

theorem read?_name {w : List Char} (h : IsName w) :
    read? w = some ⟨.ident (String.ofList w),w,[]⟩ := by
  obtain ⟨c,ds,rfl,hc,hds⟩ := h
  have hpart : ∀ d ∈ ds, isNamePart d = true := by
    intro d hd
    simpa [isNamePart] using hds d hd
  rw [word?_of_literal (Literal.read?_of_alpha hc ds),word?_name hc,
    List.takeWhile_eq_self_iff.mpr hpart,List.dropWhile_eq_nil_iff.mpr hpart]

theorem read?_symbol {c : Char} {t : Token} (h : Token.symbol? c = some t) :
    read? [c] = some ⟨t,[c],[]⟩ := by
  have hliteral : Literal.read? [c] = none := by
    unfold Token.symbol? at h
    split at h <;> first | rfl | cases h
  rw [word?_of_literal hliteral,word?_symbol h]

theorem read?_of_blank {c : Char} (h : isBlank c = true) (cs : List Char) :
    read? (c :: cs) = none := by
  unfold isBlank at h
  split at h <;> first | rfl | cases h

end Scan

namespace Piece

/-- A text that is read as a token whole is scanned as that token. -/
theorem scan_of_read? {t : Token} {w : List Char} (h : Scan.read? w = some ⟨t,w,[]⟩) :
    scan w = [word t w] := by
  cases w with
  | nil => cases h
  | cons c cs =>
    have hb : Scan.isBlank c = false := by
      rw [Bool.eq_false_iff]
      intro hb
      rw [Scan.read?_of_blank hb] at h
      cases h
    rw [scan_word hb h,scan]

end Piece

theorem rawLexemes_name {name : String} (h : IsName name.toList) :
    rawLexemes name = [⟨.ident name,0⟩] := by
  have hread := Scan.read?_name h
  rw [String.ofList_toList] at hread
  rw [rawLexemes,Piece.scan_of_read? hread]
  rfl

/-- The tokens that have a text to be read from. A number is finite, a name is spelled as one, and
an unknown token holds what is scanned as it. -/
def Token.Writable : Token → Prop
  | num x => Number.finite x = true
  | ident name => IsName name.toList
  | unknown w => (lexemes w).map Lexeme.token = [unknown w]
  | _ => True

/-- The text of a token is scanned as the token. -/
theorem Token.Writable.tokens_text {t : Token} (h : t.Writable) :
    Piece.tokens (Piece.scan t.text.toList) = [t] := by
  have whole : Scan.read? t.text.toList = some ⟨t,t.text.toList,[]⟩ →
      Piece.tokens (Piece.scan t.text.toList) = [t] := by
    intro hread
    rw [Piece.scan_of_read? hread]
    rfl
  cases t with
  | num x =>
    obtain ⟨l,hl,rfl,htext⟩ := Literal.exists_of_finite h
    refine whole ?_
    rw [Token.text,htext,Scan.read?,Literal.read?_text hl]
  | ident name =>
    have hread := Scan.read?_name h
    rw [String.ofList_toList] at hread
    exact whole hread
  | unknown w =>
    rw [← Piece.map_token_lexemesFrom 0]
    exact Sign.map_token_of_resolve h
  | _ => exact whole (Scan.read?_symbol rfl)

/-- Texts with blanks between them are scanned one by one. -/
theorem tokens_intercalate {ts : List Token} (h : ∀ t ∈ ts, t.Writable) :
    Piece.tokens (Piece.scan ([' '].intercalate (ts.map (fun t => t.text.toList)))) = ts := by
  induction ts with
  | nil =>
    rw [List.map_nil,List.intercalate_nil,Piece.scan]
    rfl
  | cons t ts ih =>
    have first := (h t List.mem_cons_self).tokens_text
    have others := ih (fun u hu => h u (List.mem_cons_of_mem t hu))
    cases ts with
    | nil => rwa [List.map_singleton,List.intercalate_singleton]
    | cons u ts =>
      have blank : Scan.isBlank ' ' = true := rfl
      rw [List.map_cons,List.map_cons,List.intercalate_cons_cons,List.append_assoc,
        List.singleton_append,scan_append_blank,Piece.scan_blank blank,Piece.tokens_append,first]
      · exact congrArg (List.cons t) others
      · intro c cs he
        rw [← (List.cons.inj he).1]
        exact blank

/-- Tokens that are written with blanks between them are scanned back, with their signs resolved: a
minus or a number below zero means in the text what it means in the list. -/
theorem lexemes_intercalate {ls : List Lexeme} (h : ∀ l ∈ ls, l.token.Writable) :
    (lexemes (" ".intercalate (ls.map (fun l => l.token.text)))).map Lexeme.token =
      (Sign.resolve ls).map Lexeme.token := by
  refine Sign.map_token_resolveFrom ?_
  rw [rawLexemes,Piece.map_token_lexemesFrom,String.toList_intercalate,List.map_map]
  have writable : ∀ t ∈ ls.map Lexeme.token, t.Writable := List.forall_mem_map.mpr h
  have scanned := tokens_intercalate writable
  rwa [List.map_map] at scanned

/-- A minus before -0, a number below zero behind an operand, a minus before a number, a long number
and a run of unmatched characters. -/
theorem lexemes_intercalate_signs :
    (∀ l ∈ [⟨.minus,0⟩,⟨.num (-0),0⟩,⟨.num (-2.5),0⟩,⟨.minus,0⟩,⟨.num 1e21,0⟩,⟨.ident "x_1",0⟩,
      ⟨.unknown "é.$",0⟩], (Lexeme.token l).Writable) ∧
    (lexemes "- -0 -2.5 - 1000000000000000000000 x_1 é.$").map Lexeme.token =
      [.num (-1),.star,.num (-0),.minus,.num 2.5,.minus,.num 1e21,.ident "x_1",.unknown "é.$"] := by
  have writable : ∀ l ∈ [⟨.minus,0⟩,⟨.num (-0),0⟩,⟨.num (-2.5),0⟩,⟨.minus,0⟩,⟨.num 1e21,0⟩,
      ⟨.ident "x_1",0⟩,⟨.unknown "é.$",0⟩], (Lexeme.token l).Writable := by
    have zero : Number.finite (-0) = true := by decide +kernel
    have below : Number.finite (-2.5) = true := by decide +kernel
    have long : Number.finite 1e21 = true := by decide +kernel
    have name : IsName "x_1".toList := ⟨'x',['_','1'],rfl,rfl,by simp⟩
    have run : (lexemes "é.$").map Lexeme.token = [.unknown "é.$"] := by decide +kernel
    simp only [List.forall_mem_cons]
    exact ⟨trivial,zero,below,trivial,long,name,run,by simp⟩
  have scanned := lexemes_intercalate writable
  refine ⟨writable,Eq.trans ?_ (scanned.trans ?_)⟩
  · decide +kernel
  · decide +kernel

end Reckoner
