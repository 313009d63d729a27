import Reckoner.Proofs.Barriers
import Reckoner.Proofs.Places
import Reckoner.Proofs.Trimming

namespace Reckoner

/-- Lexemes that are the same until each list ends or goes on with an unknown lexeme. -/
inductive Forks : List Lexeme → List Lexeme → Prop where
  | part {us vs : List Lexeme} (hu : us = [] ∨ Bars us) (hv : vs = [] ∨ Bars vs) : Forks us vs
  | same (l : Lexeme) {us vs : List Lexeme} (others : Forks us vs) : Forks (l :: us) (l :: vs)

namespace Forks
variable {us vs : List Lexeme}

theorem append (ts : List Lexeme) (h : Forks us vs) : Forks (ts ++ us) (ts ++ vs) := by
  induction ts with
  | nil => exact h
  | cons l ts ih => exact .same l ih

theorem exists_common (h : Forks us vs) : ∃ ts xs ys, us = ts ++ xs ∧ vs = ts ++ ys ∧
    (xs = [] ∨ Bars xs) ∧ (ys = [] ∨ Bars ys) := by
  induction h with
  | part hu hv => exact ⟨[],_,_,rfl,rfl,hu,hv⟩
  | same l others ih =>
    obtain ⟨ts,xs,ys,rfl,rfl,hx,hy⟩ := ih
    exact ⟨l :: ts,xs,ys,rfl,rfl,hx,hy⟩

theorem alike (h : Forks us vs) (hu : us ≠ []) (hv : vs ≠ []) (env : Environment) :
    Alike (evaluateLexemes us env) (evaluateLexemes vs env) := by
  obtain ⟨ts,xs,ys,rfl,rfl,hx,hy⟩ := h.exists_common
  refine alike_of_bars hx hy ?_ env
  rintro rfl
  exact ⟨hx.resolve_left hu,hy.resolve_left hv⟩

end Forks

namespace Sign
variable {before : Option Token} {us vs : List Lexeme}

theorem bars_resolveFrom (h : Bars us) : Bars (resolveFrom before us) := by
  obtain ⟨w,hw⟩ := h
  obtain ⟨p,rest,rfl⟩ := next?_eq_some_iff.mp hw
  exact ⟨w,rfl⟩

theorem bars_or_nil_resolveFrom (h : us = [] ∨ Bars us) :
    resolveFrom before us = [] ∨ Bars (resolveFrom before us) := by
  rcases h with rfl | hb
  · exact .inl rfl
  · exact .inr (bars_resolveFrom hb)

theorem forks_resolveFrom (h : Forks us vs) :
    Forks (resolveFrom before us) (resolveFrom before vs) := by
  induction h generalizing before with
  | part hu hv => exact .part (bars_or_nil_resolveFrom hu) (bars_or_nil_resolveFrom hv)
  | same l others ih => exact ih.append _

end Sign

namespace Piece
variable {c : Char} {ws : List Char}

/-- White space that is no blank is an unknown token. -/
theorem bars_scan (hb : Scan.isBlank c = false) (hs : Text.isSpace c = true) (p : Nat)
    (cs : List Char) : Bars (lexemesFrom p (scan (c :: cs))) := by
  rw [scan_stray hb (Text.read?_of_isSpace hs cs)]
  exact ⟨_,rfl⟩

theorem bars_scan_spaces (h : ∀ c ∈ ws, Text.isSpace c = true) (p : Nat) :
    lexemesFrom p (scan ws) = [] ∨ Bars (lexemesFrom p (scan ws)) := by
  induction ws generalizing p with
  | nil =>
    rw [scan]
    exact .inl rfl
  | cons c ws ih =>
    cases hb : Scan.isBlank c with
    | true =>
      rw [scan_blank hb]
      exact ih (fun d hd => h d (List.mem_cons_of_mem c hd)) _
    | false => exact .inr (bars_scan hb (h c List.mem_cons_self) p ws)

/-- White space behind a text adds an unknown token or makes the last one longer. -/
theorem forks_scan (h : ∀ c ∈ ws, Text.isSpace c = true) (cs : List Char) (p : Nat) :
    Forks (lexemesFrom p (scan (cs ++ ws))) (lexemesFrom p (scan cs)) := by
  have breaks := Text.breaks_of_spaces h
  fun_induction scan cs generalizing p with
  | case1 => exact .part (bars_scan_spaces h p) (.inl rfl)
  | case2 c cs hb ih =>
    rw [List.cons_append,scan_blank hb]
    exact ih _
  | case3 c cs hb r hr ih =>
    rw [List.cons_append,scan_word (by simpa using hb) (Scan.read?_append_of_some breaks hr)]
    exact .same _ (ih _)
  | case4 c cs hb hr ih =>
    -- The run of unmatched characters may go on into the white space, so the two part here.
    rw [List.cons_append,scan_stray (by simpa using hb) (Scan.read?_append_of_none breaks hr)]
    exact .part (.inr ⟨_,rfl⟩) (.inr ⟨_,rfl⟩)

end Piece

theorem lexemes_ne_nil {c : Char} (hb : Scan.isBlank c = false) (cs : List Char) :
    lexemes (String.ofList (c :: cs)) ≠ [] := by
  intro h
  have hraw := Sign.eq_nil_of_resolveFrom h
  rw [rawLexemes,String.toList_ofList] at hraw
  cases hr : Scan.read? (c :: cs) with
  | some r =>
    rw [Piece.scan_word hb hr] at hraw
    cases hraw
  | none =>
    rw [Piece.scan_stray hb hr] at hraw
    cases hraw

theorem alike_spaces {c : Char} {ws : List Char} (hc : Scan.isBlank c = false)
    (h : ∀ d ∈ ws, Text.isSpace d = true) (cs : List Char) (env : Environment) :
    Alike (evaluate (String.ofList (c :: cs ++ ws)) env)
      (evaluate (String.ofList (c :: cs)) env) := by
  have raw := Piece.forks_scan h (c :: cs) 0
  refine Forks.alike ?_ (lexemes_ne_nil hc (cs ++ ws)) (lexemes_ne_nil hc cs) env
  rw [lexemes,lexemes,rawLexemes,rawLexemes,String.toList_ofList,String.toList_ofList]
  exact Sign.forks_resolveFrom raw

/-- Only blanks stand in front of the expression. -/
def PlainIndent (line : String) : Prop := ∀ c ∈ Text.indent line.toList, Scan.isBlank c = true

instance (line : String) : Decidable (PlainIndent line) :=
  decidable_of_iff ((Text.indent line.toList).all Scan.isBlank = true) List.all_eq_true

/-- Behind blanks an expression is evaluated as it is when it has been trimmed. -/
theorem PlainIndent.alike {line : String} (h : PlainIndent line) (env : Environment) :
    Alike (evaluate line env) (evaluate (Text.trim line) env) := by
  obtain ⟨back,hline,hback,hnil,hfirst⟩ := Text.exists_trimChars line.toList
  have moved := evaluate_blanks h (Text.trimChars line.toList ++ back) env
  rw [← hline,String.ofList_toList] at moved
  rw [moved,Text.trim]
  refine (Alike.of_mapError _ _).trans ?_
  cases hcs : Text.trimChars line.toList with
  | nil =>
    rw [hnil hcs,List.append_nil]
    exact .refl _
  | cons c cs =>
    have hblank : Scan.isBlank c = false := by
      rw [Bool.eq_false_iff]
      intro hb
      have hs := Text.isSpace_of_isBlank hb
      rw [hfirst c cs hcs] at hs
      cases hs
    exact alike_spaces hblank hback cs env

/-- With other white space in front of it an expression is at fault. -/
theorem exists_fault_of_indent {cs : List Char} (h : ¬ ∀ c ∈ Text.indent cs, Scan.isBlank c = true)
    (env : Environment) : ∃ f env', evaluate (String.ofList cs) env = (.error f,env') := by
  induction cs with
  | nil => exact absurd (by simp [Text.indent]) h
  | cons c cs ih =>
    cases hb : Scan.isBlank c with
    | true =>
      have hs := Text.isSpace_of_isBlank hb
      have hcs : ¬ ∀ d ∈ Text.indent cs, Scan.isBlank d = true := by
        simpa [Text.indent,hs,hb] using h
      obtain ⟨f,env',hf⟩ := ih hcs
      have blank : ∀ b ∈ [c], Scan.isBlank b = true := by simpa using hb
      have moved := evaluate_blanks blank cs env
      rw [hf] at moved
      exact ⟨_,env',moved⟩
    | false =>
      have hs : Text.isSpace c = true := by
        rw [← Bool.not_eq_false]
        intro hn
        exact h (by simp [Text.indent,hn])
      have bars : Bars (lexemes (String.ofList (c :: cs))) := by
        rw [lexemes,rawLexemes,String.toList_ofList]
        exact Sign.bars_resolveFrom (Piece.bars_scan hb hs 0 cs)
      obtain ⟨f,hf⟩ := bars.evaluateLexemes env
      exact ⟨f,env,hf⟩

end Reckoner
