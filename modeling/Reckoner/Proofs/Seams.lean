import Reckoner.Proofs.Spelling

namespace Reckoner

/-- No token goes on into the text. -/
structure Breaks (rest : List Char) : Prop where
  name : ∀ c cs, rest = c :: cs → Scan.isNamePart c = false
  point : ∀ c cs, rest = c :: cs → c ≠ '.'

theorem breaks_nil : Breaks [] := ⟨by simp,by simp⟩

theorem breaks_cons {c : Char} (hn : Scan.isNamePart c = false) (hp : c ≠ '.') (cs : List Char) :
    Breaks (c :: cs) := by
  constructor
  · rintro d ds he
    rwa [← (List.cons.inj he).1]
  · rintro d ds he
    rwa [← (List.cons.inj he).1]

theorem Breaks.digit {rest : List Char} (h : Breaks rest) :
    ∀ c cs, rest = c :: cs → c.isDigit = false := by
  intro c cs he
  have hn := h.name c cs he
  simp only [Scan.isNamePart,Char.isAlphanum,Bool.or_eq_false_iff] at hn
  exact hn.1.2

section Head
variable {p : Char → Bool} {rest : List Char}

theorem takeWhile_append_of_head (h : ∀ c cs, rest = c :: cs → p c = false) (cs : List Char) :
    (cs ++ rest).takeWhile p = cs.takeWhile p := by
  have nothing : rest.takeWhile p = [] := by
    cases rest with
    | nil => rfl
    | cons c ds => rw [List.takeWhile_cons_of_neg (by simp [h c ds rfl])]
  rw [List.takeWhile_append,nothing]
  split
  · rename_i hl
    rw [List.append_nil]
    exact ((List.takeWhile_prefix p).eq_of_length hl).symm
  · rfl

theorem dropWhile_append_of_head (h : ∀ c cs, rest = c :: cs → p c = false) (cs : List Char) :
    (cs ++ rest).dropWhile p = cs.dropWhile p ++ rest := by
  have everything : rest.dropWhile p = rest := by
    cases rest with
    | nil => rfl
    | cons c ds => rw [List.dropWhile_cons_of_neg (by simp [h c ds rfl])]
  rw [List.dropWhile_append,everything]
  split
  · rename_i he
    rw [List.isEmpty_iff.mp he,List.nil_append]
  · rfl

end Head

namespace Literal
variable {rest : List Char}

theorem fraction?_append (h : Breaks rest) (cs : List Char) :
    fraction? (cs ++ rest) = (fraction? cs).map (fun r => (r.1,r.2 ++ rest)) := by
  cases cs with
  | nil =>
    cases rest with
    | nil => rfl
    | cons c ds =>
      have hp := h.point c ds rfl
      simp [fraction?,hp]
  | cons c cs =>
    by_cases hc : c = '.'
    · subst hc
      rw [List.cons_append,fraction?,fraction?,digits,afterDigits,
        takeWhile_append_of_head h.digit,dropWhile_append_of_head h.digit,← digits,← afterDigits]
      split <;> rfl
    · simp [fraction?,hc]

theorem unsigned?_append_breaks (h : Breaks rest) (cs : List Char) :
    unsigned? (cs ++ rest) = (unsigned? cs).map (fun r => (r.1,r.2 ++ rest)) := by
  have hd : digits (cs ++ rest) = digits cs := takeWhile_append_of_head h.digit cs
  have ha : afterDigits (cs ++ rest) = afterDigits cs ++ rest := dropWhile_append_of_head h.digit cs
  rw [unsigned?,unsigned?,hd,ha,fraction?_append h]
  cases fraction? (afterDigits cs) with
  | some r => rfl
  | none =>
    dsimp only [Option.map_none]
    split <;> rfl

theorem read?_append_breaks {cs : List Char} (h : Breaks rest) (hne : cs ≠ []) :
    read? (cs ++ rest) = (read? cs).map (fun r => (r.1,r.2 ++ rest)) := by
  obtain ⟨c,cs,rfl⟩ := List.exists_cons_of_ne_nil hne
  by_cases hc : c = '-'
  · subst hc
    rw [List.cons_append,read?,read?,unsigned?_append_breaks h,Option.map_map,Option.map_map]
    rfl
  · have hread : ∀ ds, read? (c :: ds) = unsigned? (c :: ds) := by
      intro ds
      simp [read?,hc]
    rw [List.cons_append,hread,hread,← List.cons_append,unsigned?_append_breaks h]

end Literal

namespace Scan
variable {cs rest : List Char}

/-- The same reading with more behind it. -/
def Reading.append (rest : List Char) (r : Reading) : Reading := { r with rest := r.rest ++ rest }

theorem word?_append_breaks (h : Breaks rest) (hne : cs ≠ []) :
    word? (cs ++ rest) = (word? cs).map (Reading.append rest) := by
  obtain ⟨c,cs,rfl⟩ := List.exists_cons_of_ne_nil hne
  rw [List.cons_append,word?,word?]
  by_cases hc : isNameStart c = true
  · rw [if_pos hc,if_pos hc,takeWhile_append_of_head h.name,dropWhile_append_of_head h.name]
    rfl
  · rw [if_neg hc,if_neg hc,Option.map_map]
    rfl

/-- At each place of a text the same token is read with more behind it. -/
theorem read?_append_breaks (h : Breaks rest) (hne : cs ≠ []) :
    read? (cs ++ rest) = (read? cs).map (Reading.append rest) := by
  rw [read?,read?,Literal.read?_append_breaks h hne,word?_append_breaks h hne]
  cases Literal.read? cs <;> rfl

theorem read?_append_of_some {c : Char} {r : Reading} (h : Breaks rest)
    (hr : read? (c :: cs) = some r) : read? (c :: (cs ++ rest)) = some (r.append rest) := by
  rw [← List.cons_append,read?_append_breaks h (List.cons_ne_nil c cs),hr,Option.map_some]

theorem read?_append_of_none {c : Char} (h : Breaks rest) (hr : read? (c :: cs) = none) :
    read? (c :: (cs ++ rest)) = none := by
  rw [← List.cons_append,read?_append_breaks h (List.cons_ne_nil c cs),hr,Option.map_none]

theorem isStray_append {c : Char} (h : Breaks rest) (cs : List Char) :
    isStray (c :: (cs ++ rest)) = isStray (c :: cs) := by
  simp only [isStray,← List.cons_append,read?_append_breaks h (List.cons_ne_nil c cs),
    Option.isNone_map]

theorem not_isStray_of_endsRun (h : EndsRun rest) : isStray rest = false := by
  cases rest with
  | nil => rfl
  | cons c cs =>
    rw [Bool.eq_false_iff]
    intro hs
    obtain ⟨hb,hu⟩ := isStray_cons.mp hs
    rcases h c cs rfl with hblank | hspelled
    · rw [hb] at hblank
      cases hblank
    · exact hspelled hu

theorem strayRun_append (h : Breaks rest) (he : EndsRun rest) (cs : List Char) :
    strayRun (cs ++ rest) = strayRun cs ∧ afterStray (cs ++ rest) = afterStray cs ++ rest := by
  induction cs with
  | nil =>
    have hs := not_isStray_of_endsRun he
    cases rest with
    | nil => exact ⟨rfl,rfl⟩
    | cons c cs => simp [strayRun,afterStray,hs]
  | cons c cs ih =>
    simp only [List.cons_append,strayRun,afterStray,isStray_append h,ih.1,ih.2]
    by_cases hs : isStray (c :: cs) = true <;> simp [hs]

end Scan

namespace Piece
variable {rest : List Char}

theorem scan_blank {c : Char} (hb : Scan.isBlank c = true) (cs : List Char) :
    scan (c :: cs) = blank c :: scan cs := by
  rw [scan,if_pos hb]

theorem scan_word {c : Char} {cs : List Char} {r : Scan.Reading} (hb : Scan.isBlank c = false)
    (hr : Scan.read? (c :: cs) = some r) : scan (c :: cs) = word r.token r.text :: scan r.rest := by
  rw [scan,if_neg (by simp [hb])]
  split
  · rename_i r' hr'
    rw [hr] at hr'
    cases hr'
    rfl
  · rename_i hr'
    rw [hr] at hr'
    cases hr'

theorem scan_stray {c : Char} {cs : List Char} (hb : Scan.isBlank c = false)
    (hr : Scan.read? (c :: cs) = none) :
    scan (c :: cs) =
      word (.unknown (String.ofList (c :: Scan.strayRun cs))) (c :: Scan.strayRun cs) ::
        scan (Scan.afterStray cs) := by
  rw [scan,if_neg (by simp [hb])]
  split
  · rename_i r' hr'
    rw [hr] at hr'
    cases hr'
  · rfl

/-- Where neither a token nor a run of unmatched characters goes on, a text may be cut. -/
theorem scan_append (h : Breaks rest) (he : EndsRun rest) (cs : List Char) :
    scan (cs ++ rest) = scan cs ++ scan rest := by
  fun_induction scan cs with
  | case1 => rfl
  | case2 c cs hb ih => rw [List.cons_append,scan_blank hb,ih,List.cons_append]
  | case3 c cs hb r hr ih =>
    rw [List.cons_append,scan_word (by simpa using hb) (Scan.read?_append_of_some h hr),
      Scan.Reading.append,ih,List.cons_append]
  | case4 c cs hb hr ih =>
    obtain ⟨hrun,hafter⟩ := Scan.strayRun_append h he cs
    rw [List.cons_append,scan_stray (by simpa using hb) (Scan.read?_append_of_none h hr),hrun,
      hafter,ih,List.cons_append]

/-- The token of a word. -/
def token? : Piece → Option Token
  | blank _ => none
  | word t _ => some t

/-- The tokens of the words, wherever they stand. -/
def tokens (ps : List Piece) : List Token := ps.filterMap token?

theorem tokens_append (ps qs : List Piece) : tokens (ps ++ qs) = tokens ps ++ tokens qs :=
  List.filterMap_append

theorem map_token_lexemesFrom (position : Nat) (ps : List Piece) :
    (lexemesFrom position ps).map Lexeme.token = tokens ps := by
  induction ps generalizing position with
  | nil => rfl
  | cons p ps ih =>
    cases p with
    | blank c => exact ih _
    | word t w => exact congrArg (List.cons t) (ih _)

end Piece

theorem isBlank_breaks {c : Char} (h : Scan.isBlank c = true) :
    Scan.isNamePart c = false ∧ c ≠ '.' := by
  unfold Scan.isBlank at h
  split at h
  · decide
  · decide
  · decide
  · decide
  · decide
  · cases h

/-- A blank, or the end of the text. -/
theorem scan_append_blank {rest : List Char} (h : ∀ c cs, rest = c :: cs → Scan.isBlank c = true)
    (cs : List Char) : Piece.scan (cs ++ rest) = Piece.scan cs ++ Piece.scan rest := by
  refine Piece.scan_append ⟨?_,?_⟩ ?_ cs
  · intro c cs he
    exact (isBlank_breaks (h c cs he)).1
  · intro c cs he
    exact (isBlank_breaks (h c cs he)).2
  · intro c cs he
    exact .inl (h c cs he)

end Reckoner
