import Reckoner.Proofs.Spans

namespace Reckoner

theorem Token.toList_text {c : Char} {t : Token} (h : symbol? c = some t) :
    t.text.toList = [c] := by
  rw [text_of_symbol? h,String.toList_singleton]

/-- With `rest` behind it no name goes on. -/
def EndsName (rest : List Char) : Prop :=
  ∀ c cs, rest = c :: cs → c.isAlphanum = false ∧ c ≠ '_'

/-- The source reads the lexeme where it stands, and `rest` behind it. -/
structure Lexeme.StandsIn (source : String) (l : Lexeme) (rest : List Char) : Prop where
  place : From source l.position (l.token.text.toList ++ rest)
  nonempty : l.token.text.toList ≠ []
  name : ∀ n, l.token = .ident n → IsName n.toList ∧ EndsName rest
  run : ∀ w, l.token = .unknown w → Unmatched w.toList rest

theorem Longest.endsName {n : String} {w rest : List Char} (h : Longest (.ident n) w rest) :
    IsName w ∧ EndsName rest := by
  obtain ⟨c,ds,rfl,hc,hds⟩ := h.spells.of_ident.1
  refine ⟨⟨c,ds,rfl,hc,hds⟩,?_⟩
  rintro d cs rfl
  by_contra hd
  have part : d.isAlphanum = true ∨ d = '_' := by
    by_contra hn
    rw [not_or,Bool.not_eq_true] at hn
    exact hd hn
  have longer : Spells (.ident (String.ofList (c :: (ds ++ [d])))) (c :: (ds ++ [d])) := by
    refine .name ⟨c,ds ++ [d],rfl,hc,?_⟩
    intro e he
    rcases List.mem_append.mp he with he | he
    · exact hds e he
    · rwa [List.mem_singleton.mp he]
  have hlen := h.longest _ _ longer ⟨cs,by simp⟩
  simp at hlen

/-- Numbers apart, a span has the text of its token. -/
theorem Span.ReadBefore.text_eq {s : Span} {rest : List Char} (h : s.ReadBefore rest)
    (hx : ∀ x, s.token ≠ .num x) : s.token.text.toList = s.text := by
  rcases h with h | ⟨ht,_⟩
  · rcases h.spells.cases_text with ⟨l,_,ht,_⟩ | ⟨_,ht⟩ | ⟨c,hc,hw⟩
    · exact absurd ht (hx _)
    · rw [ht]
      exact String.toList_ofList
    · rw [hw,Token.toList_text hc]
  · rw [ht]
    exact String.toList_ofList

theorem Span.Fits.standsIn {source : String} {s : Span} {rest : List Char} (h : s.Fits source rest)
    (hx : ∀ x, s.token ≠ .num x) : s.lexeme.StandsIn source rest := by
  have htext := h.read.text_eq hx
  refine ⟨?_,?_,?_,?_⟩
  · change From source s.start (s.token.text.toList ++ rest)
    rw [htext]
    exact h.place
  · exact htext ▸ h.nonempty
  · intro n hn
    change s.token = .ident n at hn
    rw [hn] at htext
    rcases h.read with hread | ⟨ht,_⟩
    · rw [hn] at hread
      have ends := hread.endsName
      rwa [← htext] at ends
    · rw [hn] at ht
      cases ht
  · intro w hw
    change s.token = .unknown w at hw
    rw [hw] at htext
    rcases h.read with hread | ⟨_,hrun⟩
    · exact absurd hw (hread.spells.ne_unknown w)
    · rwa [← htext] at hrun

/-- Each lexeme is a number or stands in the source, or it is a sign of multiplication behind a
number. -/
theorem standsIn_of_blocks {source : String} {ss : List Span} {blocks : List (List Lexeme)}
    (h : List.Forall₂ Span.Becomes ss blocks) (hfits : ∀ s ∈ ss, ∃ rest, s.Fits source rest)
    {l : Lexeme} {us : List Lexeme} (hl : l :: us <:+ blocks.flatten) :
    (∃ x, l.token = .num x) ∨ (∃ rest, l.StandsIn source rest) ∨
      l.token = .star ∧ ∃ x q, ⟨.num x,q⟩ :: l :: us <:+ blocks.flatten := by
  induction h with
  | nil => simp at hl
  | @cons s ls ss blocks hs hblocks ih =>
    have later : l :: us <:+ blocks.flatten →
        (∃ x, l.token = .num x) ∨ (∃ rest, l.StandsIn source rest) ∨
          l.token = .star ∧ ∃ x q, ⟨.num x,q⟩ :: l :: us <:+ ls ++ blocks.flatten := by
      intro hl
      rcases ih (fun s hs => hfits s (List.mem_cons_of_mem _ hs)) hl with hx | hst | ⟨ht,x,q,hp⟩
      · exact .inl hx
      · exact .inr (.inl hst)
      · exact .inr (.inr ⟨ht,x,q,hp.trans (List.suffix_append _ _)⟩)
    obtain ⟨rest,hfit⟩ := hfits s List.mem_cons_self
    rw [List.flatten_cons] at hl ⊢
    cases hs with
    | kept =>
      rcases List.suffix_cons_iff.mp hl with he | hl
      · cases he
        by_cases hx : ∃ x, s.token = .num x
        · exact .inl hx
        · exact .inr (.inl ⟨rest,hfit.standsIn (not_exists.mp hx)⟩)
      · exact later hl
    | negation ht =>
      rcases List.suffix_cons_iff.mp hl with he | hl
      · cases he
        exact .inl ⟨-1,rfl⟩
      · rcases List.suffix_cons_iff.mp hl with he | hl
        · cases he
          exact .inr (.inr ⟨rfl,-1,s.start,List.suffix_rfl⟩)
        · exact later hl
    | @subtraction x ds ht hsign hd =>
      rcases List.suffix_cons_iff.mp hl with he | hl
      · cases he
        -- The minus is the first character of the number.
        have minus := Token.toList_text (c := '-') rfl
        have place := hfit.place
        rw [hsign] at place
        refine .inr (.inl ⟨ds ++ rest,⟨?_,?_,by simp,by simp⟩⟩)
        · rw [minus]
          exact place
        · rw [minus]
          exact List.cons_ne_nil _ _
      · rcases List.suffix_cons_iff.mp hl with he | hl
        · cases he
          exact .inl ⟨-x,rfl⟩
        · exact later hl

variable {source : String} {l : Lexeme} {us : List Lexeme}

theorem standsIn_of_suffix (hl : l :: us <:+ lexemes source) :
    (∃ x, l.token = .num x) ∨ (∃ rest, l.StandsIn source rest) ∨
      l.token = .star ∧ ∃ x q, ⟨.num x,q⟩ :: l :: us <:+ lexemes source := by
  obtain ⟨blocks,hblocks,heq⟩ := exists_blocks_lexemes source
  rw [heq] at hl ⊢
  exact standsIn_of_blocks hblocks (fun _ hs => exists_fits hs) hl

theorem standsIn_of_mem (hl : l ∈ lexemes source) (hx : ∀ x, l.token ≠ .num x)
    (hs : l.token ≠ .star) : ∃ rest, l.StandsIn source rest := by
  obtain ⟨before,us,he⟩ := List.append_of_mem hl
  rcases standsIn_of_suffix ⟨before,he.symm⟩ with ⟨x,ht⟩ | hst | ⟨ht,_⟩
  · exact absurd ht (hx x)
  · exact hst
  · exact absurd ht hs

end Reckoner
