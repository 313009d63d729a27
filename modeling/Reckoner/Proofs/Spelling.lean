import Reckoner.Token.Scan

namespace Reckoner

structure Digits (ds : List Char) : Prop where
  nonempty : ds ≠ []
  digit : ∀ d ∈ ds, d.isDigit = true

/-- A letter, and behind it letters, digits and underscores. -/
def IsName (cs : List Char) : Prop :=
  ∃ c ds, cs = c :: ds ∧ c.isAlpha = true ∧ ∀ d ∈ ds, d.isAlphanum = true ∨ d = '_'

def signText (negative : Bool) : List Char := if negative then ['-'] else []

/-- The patterns of the tokens. No pattern leads to an unknown token. -/
inductive Spells : Token → List Char → Prop where
  | whole (negative : Bool) {ds : List Char} (hd : Digits ds) :
      Spells (.num (Literal.value ⟨negative,ds,[]⟩)) (signText negative ++ ds)
  | decimal (negative : Bool) {ds fs : List Char} (hd : Digits ds) (hf : Digits fs) :
      Spells (.num (Literal.value ⟨negative,ds,fs⟩)) (signText negative ++ (ds ++ '.' :: fs))
  | fraction (negative : Bool) {fs : List Char} (hf : Digits fs) :
      Spells (.num (Literal.value ⟨negative,[],fs⟩)) (signText negative ++ '.' :: fs)
  | name {cs : List Char} (h : IsName cs) : Spells (.ident (String.ofList cs)) cs
  | symbol {c : Char} {t : Token} (h : Token.symbol? c = some t) : Spells t [c]

/-- The text `w` is a spelling of the token, and with `rest` behind it no token has a longer one. -/
structure Longest (t : Token) (w rest : List Char) : Prop where
  spells : Spells t w
  longest : ∀ u v, Spells u v → v <+: w ++ rest → v.length ≤ w.length

/-- No token is spelled at the front of the text. -/
def Unspelled (cs : List Char) : Prop := ∀ t w, Spells t w → ¬ w <+: cs

namespace Literal
variable {cs rest : List Char} {l : Literal}

/-- The digits of a literal are digits, and it has some. -/
structure Formed (l : Literal) : Prop where
  whole : ∀ d ∈ l.whole, d.isDigit = true
  fraction : ∀ d ∈ l.fraction, d.isDigit = true
  nonempty : l.whole ≠ [] ∨ l.fraction ≠ []

theorem isDigit_of_mem_digits {d : Char} (h : d ∈ digits cs) : d.isDigit = true :=
  List.all_eq_true.mp List.all_takeWhile d h

theorem digits_append {ds : List Char} (h : ∀ d ∈ ds, d.isDigit = true) (rest : List Char) :
    digits (ds ++ rest) = ds ++ digits rest :=
  List.takeWhile_append_of_pos h

theorem afterDigits_append {ds : List Char} (h : ∀ d ∈ ds, d.isDigit = true) (rest : List Char) :
    afterDigits (ds ++ rest) = afterDigits rest :=
  List.dropWhile_append_of_pos h

theorem digits_of_fraction? {ds : List Char} (h : fraction? cs = some (ds,rest)) : Digits ds := by
  refine ⟨(eq_of_fraction? h).2,?_⟩
  unfold fraction? at h
  split at h
  · split at h
    · cases h
    · cases h
      intro d hd
      exact isDigit_of_mem_digits hd
  · cases h

theorem formed_of_unsigned? (h : unsigned? cs = some (l,rest)) : l.Formed := by
  unfold unsigned? at h
  split at h
  · rename_i ds r hf
    cases h
    have hd := digits_of_fraction? hf
    exact ⟨fun d hd => isDigit_of_mem_digits hd,hd.digit,.inr hd.nonempty⟩
  · split at h
    · cases h
    · rename_i hd
      cases h
      exact ⟨fun d hd => isDigit_of_mem_digits hd,by simp,.inl hd⟩

theorem formed_of_read? (h : read? cs = some (l,rest)) : l.Formed := by
  unfold read? at h
  split at h
  · obtain ⟨⟨u,r⟩,hu,he⟩ := Option.map_eq_some_iff.mp h
    cases he
    have hf := formed_of_unsigned? hu
    exact ⟨hf.whole,hf.fraction,hf.nonempty⟩
  · exact formed_of_unsigned? h

/-- A literal that has its digits is spelled by one of the three patterns. -/
theorem Formed.spells (h : l.Formed) : Spells (.num l.value) l.text := by
  obtain ⟨negative,ds,fs⟩ := l
  by_cases hf : fs = []
  · subst hf
    have hd := h.nonempty.resolve_right (fun hn => hn rfl)
    have spelled := Spells.whole negative ⟨hd,h.whole⟩
    simpa [text,signText] using spelled
  · by_cases hd : ds = []
    · subst hd
      have spelled := Spells.fraction negative ⟨hf,h.fraction⟩
      simpa [text,signText,hf] using spelled
    · have spelled := Spells.decimal negative ⟨hd,h.whole⟩ ⟨hf,h.fraction⟩
      simpa [text,signText,hf] using spelled

/-- All digits at the front of a text belong to the literal that is read there. -/
theorem unsigned?_of_digits (h : digits cs ≠ []) :
    ∃ l rest, unsigned? cs = some (l,rest) ∧ (digits cs).length ≤ l.text.length := by
  unfold unsigned?
  split
  · rename_i ds r hf
    refine ⟨_,_,rfl,?_⟩
    simp only [text,List.length_append]
    omega
  · rw [if_neg h]
    refine ⟨_,_,rfl,?_⟩
    simp only [text,List.length_append]
    omega

/-- Where a literal without a sign is written, one at least as long is read. -/
theorem unsigned?_append (hl : l.Formed) (hn : l.negative = false) (rest : List Char) :
    ∃ l' rest', unsigned? (l.text ++ rest) = some (l',rest') ∧ l.text.length ≤ l'.text.length := by
  obtain ⟨negative,ds,fs⟩ := l
  subst hn
  by_cases hf : fs = []
  · subst hf
    have hd : ds ≠ [] := hl.nonempty.resolve_right (fun hn => hn rfl)
    have htext : text ⟨false,ds,[]⟩ = ds := by simp [text]
    have hdigits : digits (ds ++ rest) = ds ++ digits rest := digits_append hl.whole rest
    have hne : digits (ds ++ rest) ≠ [] := by
      rw [hdigits]
      exact List.append_ne_nil_of_left_ne_nil hd _
    obtain ⟨l',rest',hread,hlen⟩ := unsigned?_of_digits hne
    rw [hdigits,List.length_append] at hlen
    rw [htext]
    exact ⟨l',rest',hread,Nat.le_trans (Nat.le_add_right _ _) hlen⟩
  · have hpoint : digits ('.' :: (fs ++ rest)) = [] := rfl
    have hwhole : digits (ds ++ '.' :: (fs ++ rest)) = ds := by
      rw [digits_append hl.whole,hpoint,List.append_nil]
    have hafter : afterDigits (ds ++ '.' :: (fs ++ rest)) = '.' :: (fs ++ rest) :=
      afterDigits_append hl.whole _
    have hfraction := digits_append hl.fraction rest
    have hne : digits (fs ++ rest) ≠ [] := by
      rw [hfraction]
      exact List.append_ne_nil_of_left_ne_nil hf _
    refine ⟨⟨false,ds,fs ++ digits rest⟩,afterDigits (fs ++ rest),?_,?_⟩
    · simp only [text,hf,if_false,Bool.false_eq_true,List.nil_append,List.append_assoc,
        List.cons_append]
      unfold unsigned?
      rw [hafter,hwhole,fraction?,if_neg hne,hfraction]
    · simp [text,hf]

theorem ne_sign {ds fs : List Char} (h : Formed ⟨false,ds,fs⟩) (rest : List Char) :
    ∀ cs, text ⟨false,ds,fs⟩ ++ rest ≠ '-' :: cs := by
  intro cs he
  cases ds with
  | nil =>
    have hf : fs ≠ [] := h.nonempty.resolve_left (fun hn => hn rfl)
    simp [text,hf] at he
  | cons d ds =>
    have hd := h.whole d List.mem_cons_self
    simp only [text,Bool.false_eq_true,if_false,List.nil_append,List.cons_append,
      List.cons.injEq] at he
    rw [he.1] at hd
    cases hd

/-- Where a literal is written, one at least as long is read. -/
theorem read?_append (hl : l.Formed) (rest : List Char) :
    ∃ l' rest', read? (l.text ++ rest) = some (l',rest') ∧ l.text.length ≤ l'.text.length := by
  obtain ⟨negative,ds,fs⟩ := l
  have bare : Formed ⟨false,ds,fs⟩ := ⟨hl.whole,hl.fraction,hl.nonempty⟩
  obtain ⟨l',rest',hread,hlen⟩ := unsigned?_append bare rfl rest
  cases negative with
  | true =>
    refine ⟨{ l' with negative := true },rest',?_,?_⟩
    · have htext : text ⟨true,ds,fs⟩ ++ rest = '-' :: (text ⟨false,ds,fs⟩ ++ rest) := by simp [text]
      rw [htext,read?,hread]
      rfl
    · simp only [text,negative_of_unsigned? hread] at hlen ⊢
      simpa using hlen
  | false =>
    refine ⟨l',rest',?_,hlen⟩
    rw [read?]
    · exact hread
    · exact ne_sign bare rest

/-- In the order of the characters the letters come after the digits. -/
theorem isDigit_of_isAlpha {c : Char} (hc : c.isAlpha = true) : c.isDigit = false := by
  have letter : (decide ('A'.val ≤ c.val ∧ c.val ≤ 'Z'.val) ||
      (decide ('a'.val ≤ c.val) && decide (c.val ≤ 'z'.val))) = true := hc
  have above : 'A'.val ≤ c.val := by
    simp only [Bool.or_eq_true,Bool.and_eq_true,decide_eq_true_eq] at letter
    rcases letter with ⟨h,_⟩ | ⟨h,_⟩
    · exact h
    · exact UInt32.le_trans (by decide) h
  rw [Bool.eq_false_iff]
  intro hd
  have below := (Char.isDigit_iff_toNat.mp hd).2
  exact absurd (Nat.le_trans (UInt32.le_iff_toNat_le.mp above) below) (by decide)

theorem read?_of_other {c : Char} (hdigit : c.isDigit = false) (hminus : c ≠ '-') (hpoint : c ≠ '.')
    (cs : List Char) : read? (c :: cs) = none := by
  have hdigits : digits (c :: cs) = [] := List.takeWhile_cons_of_neg (by simp [hdigit])
  have hafter : afterDigits (c :: cs) = c :: cs := List.dropWhile_cons_of_neg (by simp [hdigit])
  have hfraction : fraction? (c :: cs) = none := by
    unfold fraction?
    split
    · rename_i he
      exact absurd (List.cons.inj he).1 hpoint
    · rfl
  have hunsigned : unsigned? (c :: cs) = none := by
    unfold unsigned?
    rw [hafter,hfraction,hdigits]
    rfl
  unfold read?
  split
  · rename_i he
    exact absurd (List.cons.inj he).1 hminus
  · exact hunsigned

theorem read?_of_alpha {c : Char} (hc : c.isAlpha = true) (cs : List Char) :
    read? (c :: cs) = none := by
  refine read?_of_other (isDigit_of_isAlpha hc) ?_ ?_ cs
  · rintro rfl
    cases hc
  · rintro rfl
    cases hc

end Literal

theorem Spells.cases_text {t : Token} {w : List Char} (h : Spells t w) :
    (∃ l : Literal, l.Formed ∧ t = .num l.value ∧ w = l.text) ∨
      (IsName w ∧ t = .ident (String.ofList w)) ∨ ∃ c, Token.symbol? c = some t ∧ w = [c] := by
  cases h with
  | @whole negative ds hd =>
    refine .inl ⟨⟨negative,ds,[]⟩,⟨hd.digit,by simp,.inl hd.nonempty⟩,rfl,?_⟩
    simp [Literal.text,signText]
  | @decimal negative ds fs hd hf =>
    refine .inl ⟨⟨negative,ds,fs⟩,⟨hd.digit,hf.digit,.inl hd.nonempty⟩,rfl,?_⟩
    simp [Literal.text,signText,hf.nonempty]
  | @fraction negative fs hf =>
    refine .inl ⟨⟨negative,[],fs⟩,⟨by simp,hf.digit,.inr hf.nonempty⟩,rfl,?_⟩
    simp [Literal.text,signText,hf.nonempty]
  | name h => exact .inr (.inl ⟨h,rfl⟩)
  | symbol h => exact .inr (.inr ⟨_,h,rfl⟩)

theorem Spells.ne_nil {t : Token} {w : List Char} (h : Spells t w) : w ≠ [] := by
  cases h with
  | whole negative hd => exact List.append_ne_nil_of_right_ne_nil _ hd.nonempty
  | decimal | fraction => simp
  | name h =>
    obtain ⟨c,ds,rfl,_⟩ := h
    exact List.cons_ne_nil c ds
  | symbol => exact List.cons_ne_nil _ _

theorem Token.of_symbol? {c : Char} {t : Token} (h : symbol? c = some t) :
    t = .lparen ∨ t = .rparen ∨ t.isOperator = true := by
  unfold symbol? at h
  split at h <;> cases h <;> simp [isOperator]

theorem Spells.ne_unknown {t : Token} {w : List Char} (h : Spells t w) (u : String) :
    t ≠ .unknown u := by
  rintro rfl
  cases h with
  | symbol hc => rcases Token.of_symbol? hc with h | h | h <;> cases h

theorem Spells.of_num {x : Float} {w : List Char} (h : Spells (.num x) w) :
    ∃ l : Literal, l.Formed ∧ x = l.value ∧ w = l.text := by
  rcases h.cases_text with ⟨l,hl,ht,hw⟩ | ⟨_,ht⟩ | ⟨c,hc,_⟩
  · cases ht
    exact ⟨l,hl,rfl,hw⟩
  · cases ht
  · rcases Token.of_symbol? hc with h | h | h <;> cases h

theorem Spells.of_ident {n : String} {w : List Char} (h : Spells (.ident n) w) :
    IsName w ∧ n = String.ofList w := by
  cases h with
  | name h => exact ⟨h,rfl⟩
  | symbol hc => rcases Token.of_symbol? hc with h | h | h <;> cases h

theorem isAlpha_of_symbol? {c : Char} {t : Token} (h : Token.symbol? c = some t) :
    c.isAlpha = false := by
  unfold Token.symbol? at h
  split at h <;> first | rfl | cases h

namespace Scan
variable {cs rest : List Char} {r : Reading}

theorem word?_of_literal (h : Literal.read? cs = none) : read? cs = word? cs := by
  rw [read?,h]

theorem word?_name {c : Char} (hc : c.isAlpha = true) (cs : List Char) :
    word? (c :: cs) = some ⟨.ident (String.ofList (c :: cs.takeWhile isNamePart)),
      c :: cs.takeWhile isNamePart,cs.dropWhile isNamePart⟩ :=
  if_pos hc

theorem word?_symbol {c : Char} {t : Token} (h : Token.symbol? c = some t) (cs : List Char) :
    word? (c :: cs) = some ⟨t,[c],cs⟩ := by
  simp only [word?,isNameStart,isAlpha_of_symbol? h,Bool.false_eq_true,if_false,h,Option.map_some]

theorem spells_of_word? (h : word? cs = some r) : Spells r.token r.text := by
  unfold word? at h
  split at h
  · cases h
  · rename_i c cs
    split at h
    · rename_i hc
      cases h
      refine .name ⟨c,_,rfl,hc,?_⟩
      intro d hd
      have hpart := List.all_eq_true.mp List.all_takeWhile d hd
      simpa [isNamePart] using hpart
    · obtain ⟨t,ht,he⟩ := Option.map_eq_some_iff.mp h
      cases he
      exact .symbol ht

theorem spells_of_read? (h : read? cs = some r) : Spells r.token r.text := by
  unfold read? at h
  split at h
  · rename_i l rest hl
    cases h
    exact (Literal.formed_of_read? hl).spells
  · exact spells_of_word? h

/-- Where a token is spelled, something at least as long is read. -/
theorem read?_append {t : Token} {w : List Char} (h : Spells t w) (rest : List Char) :
    ∃ r, read? (w ++ rest) = some r ∧ w.length ≤ r.text.length := by
  rcases h.cases_text with ⟨l,hl,rfl,rfl⟩ | ⟨⟨c,ds,rfl,hc,hds⟩,rfl⟩ | ⟨c,hc,rfl⟩
  · obtain ⟨l',rest',hread,hlen⟩ := Literal.read?_append hl rest
    exact ⟨⟨.num l'.value,l'.text,rest'⟩,by rw [read?,hread],hlen⟩
  · have hread := word?_name hc (ds ++ rest)
    rw [← word?_of_literal (Literal.read?_of_alpha hc _)] at hread
    have hpart : ∀ d ∈ ds, isNamePart d = true := by
      intro d hd
      simpa [isNamePart] using hds d hd
    refine ⟨_,hread,?_⟩
    simp only [List.takeWhile_append_of_pos hpart,List.length_cons,List.length_append]
    omega
  · cases hl : Literal.read? (c :: rest) with
    | some r =>
      obtain ⟨l,rest'⟩ := r
      refine ⟨⟨.num l.value,l.text,rest'⟩,by rw [List.singleton_append,read?,hl],?_⟩
      exact List.length_pos_iff.mpr (Literal.text_append_of_read? hl).2
    | none =>
      refine ⟨⟨t,[c],rest⟩,?_,Nat.le_refl _⟩
      rw [List.singleton_append,word?_of_literal hl]
      exact word?_symbol hc rest

/-- What is read is the longest spelling of any token. -/
theorem longest_of_read? (h : read? cs = some r) : Longest r.token r.text r.rest := by
  refine ⟨spells_of_read? h,?_⟩
  intro t w hw hp
  rw [(text_append_of_read? h).1] at hp
  obtain ⟨rest,rfl⟩ := hp
  obtain ⟨r',hr',hlen⟩ := read?_append hw rest
  rw [h] at hr'
  cases hr'
  exact hlen

/-- Nothing is read only where nothing is spelled. -/
theorem read?_eq_none_iff : read? cs = none ↔ Unspelled cs := by
  constructor
  · intro h t w hw hp
    obtain ⟨rest,rfl⟩ := hp
    obtain ⟨r,hr,_⟩ := read?_append hw rest
    rw [h] at hr
    cases hr
  · intro h
    cases hr : read? cs with
    | none => rfl
    | some r =>
      have hp : r.text <+: cs := ⟨r.rest,(text_append_of_read? hr).1⟩
      exact absurd hp (h r.token r.text (spells_of_read? hr))

theorem isStray_cons {c : Char} :
    isStray (c :: cs) = true ↔ isBlank c = false ∧ Unspelled (c :: cs) := by
  simp only [isStray,Bool.and_eq_true,Bool.not_eq_true',Option.isNone_iff_eq_none,
    read?_eq_none_iff]

end Scan

/-- A run of characters at each of which there is neither a blank nor a spelling of a token. -/
def Unmatched (w rest : List Char) : Prop :=
  ∀ u c v, w = u ++ c :: v → Scan.isBlank c = false ∧ Unspelled (c :: v ++ rest)

/-- A run of unmatched characters ends where nothing follows, or a blank or a token. -/
def EndsRun (rest : List Char) : Prop :=
  ∀ c cs, rest = c :: cs → Scan.isBlank c = true ∨ ¬ Unspelled (c :: cs)

namespace Scan

theorem unmatched_strayRun (cs : List Char) : Unmatched (strayRun cs) (afterStray cs) := by
  induction cs with
  | nil =>
    intro u c v h
    simp [strayRun] at h
  | cons d cs ih =>
    intro u c v h
    by_cases hs : isStray (d :: cs) = true
    · simp only [strayRun,afterStray,hs,if_true] at h ⊢
      cases u with
      | nil =>
        cases h
        rw [List.cons_append,strayRun_append_afterStray]
        exact isStray_cons.mp hs
      | cons e u =>
        obtain ⟨_,h⟩ := List.cons.inj h
        exact ih u c v h
    · simp [strayRun,hs] at h

theorem endsRun_afterStray (cs : List Char) : EndsRun (afterStray cs) := by
  induction cs with
  | nil =>
    intro c cs h
    cases h
  | cons d cs ih =>
    by_cases hs : isStray (d :: cs) = true
    · simp only [afterStray,hs,if_true]
      exact ih
    · intro c cs' h
      simp only [afterStray,hs] at h
      cases h
      by_cases hb : isBlank d = true
      · exact .inl hb
      · refine .inr ?_
        intro hu
        exact hs (isStray_cons.mpr ⟨by simpa using hb,hu⟩)

end Scan

end Reckoner
