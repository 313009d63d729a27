import Reckoner.Proofs.Derivation
import Reckoner.Proofs.Seams

namespace Reckoner

/-- The lexeme at the place that `g` has for its own. -/
def Lexeme.move (g : Nat → Nat) (l : Lexeme) : Lexeme := ⟨l.token,g l.position⟩

section Move
variable {f g : Nat → Nat} {ls : List Lexeme}

theorem map_move_move (f g : Nat → Nat) (ls : List Lexeme) :
    (ls.map (Lexeme.move f)).map (Lexeme.move g) = ls.map (Lexeme.move (g ∘ f)) :=
  List.map_map

theorem map_move_congr (h : ∀ l ∈ ls, f l.position = g l.position) :
    ls.map (Lexeme.move f) = ls.map (Lexeme.move g) := by
  refine List.map_congr_left ?_
  intro l hl
  rw [Lexeme.move,Lexeme.move,h l hl]

theorem map_move_of_eq (h : ∀ l ∈ ls, g l.position = l.position) :
    ls.map (Lexeme.move g) = ls := by
  have kept : ls.map (Lexeme.move g) = ls.map (Lexeme.move id) := map_move_congr h
  exact kept.trans (List.map_id ls)

end Move

namespace Fault

def move (g : Nat → Nat) : Fault → Fault
  | unbalancedParentheses p => unbalancedParentheses (g p)
  | unexpectedToken t p => unexpectedToken t (g p)
  | unexpectedEndOfInput => unexpectedEndOfInput
  | unknownVariable name p => unknownVariable name (g p)
  | unknownFunction name p => unknownFunction name (g p)

end Fault

namespace Run

def move (g : Nat → Nat) : Run → Run
  | value x rest env => value x (rest.map (Lexeme.move g)) env
  | fault f rest env => fault (f.move g) (rest.map (Lexeme.move g)) env

variable (g : Nat → Nat) (r : Run)

theorem move_close (p : Nat) : (r.close p).move g = (r.move g).close (g p) := by
  cases r with
  | fault f rest env => rfl
  | value x rest env =>
    cases rest with
    | nil => rfl
    | cons l rest =>
      obtain ⟨t,q⟩ := l
      cases t <;> rfl

theorem move_map (k : Float → Float) : (r.map k).move g = (r.move g).map k := by
  cases r <;> rfl

theorem move_store (name : String) : (r.store name).move g = (r.move g).store name := by
  cases r <;> rfl

theorem move_read (name : String) (p : Nat) (ts : List Lexeme) (env : Environment) :
    (read name p ts env).move g = read name (g p) (ts.map (Lexeme.move g)) env := by
  unfold read
  cases env.get? name <;> rfl

end Run

def Part.move (g : Nat → Nat) : Part → Part
  | operand ts env => operand (ts.map (Lexeme.move g)) env
  | chain bound ts env => chain bound (ts.map (Lexeme.move g)) env
  | climb bound x ts env => climb bound x (ts.map (Lexeme.move g)) env

theorem next?_map_move (g : Nat → Nat) (ts : List Lexeme) :
    next? (ts.map (Lexeme.move g)) = next? ts := by
  cases ts <;> rfl

/-- Lexemes in other places give the same run in those places. -/
theorem Part.Gives.move (g : Nat → Nat) {part : Part} {r : Run} (h : part.Gives r) :
    (part.move g).Gives (r.move g) := by
  induction h with
  | missing env => exact .missing env
  | num x p ts env => exact .num x (g p) _ env
  | group p inner ih =>
    rw [Run.move_close]
    exact .group (g p) ih
  | function p hg argument ih =>
    rw [Run.move_map]
    exact .function (g p) hg ih
  | constant p ts env hc => exact .constant (g p) _ env hc
  | assignment p q hn value ih =>
    rw [Run.move_store]
    exact .assignment (g p) (g q) hn ih
  | lookup p env hn hts =>
    rw [Run.move_read]
    exact .lookup (g p) env hn (by rwa [next?_map_move])
  | unexpected p ts env ht => exact .unexpected (g p) _ env ht
  | chainFault first ih => exact .chainFault ih
  | chainValue first others ihf iho => exact .chainValue ihf iho
  | climbEnd x env hs =>
    refine .climbEnd x env ?_
    rwa [Stops,operator?,next?_map_move]
  | climbFault x p hb right ih => exact .climbFault x (g p) hb ih
  | climbValue p hb right others ihr iho => exact .climbValue (g p) hb ihr iho

theorem chain_move (g : Nat → Nat) (bound : Nat) (ts : List Lexeme) (env : Environment) :
    chain bound (ts.map (Lexeme.move g)) env = (chain bound ts env).move g :=
  (((Part.chain bound ts env).gives_run).move g).run_eq

/-- In other places the outcome and the variables are the same, and a fault is moved. -/
theorem evaluateLexemes_move (g : Nat → Nat) (ts : List Lexeme) (env : Environment) :
    evaluateLexemes (ts.map (Lexeme.move g)) env =
      ((evaluateLexemes ts env).1.mapError (Fault.move g),(evaluateLexemes ts env).2) := by
  by_cases hne : ts = []
  · subst hne
    rfl
  · rw [evaluateLexemes_eq (by simpa using hne),evaluateLexemes_eq hne,chain_move]
    cases chain 0 ts env <;> rfl

namespace Sign
variable {before : Option Token} {ls ms : List Lexeme} {g : Nat → Nat}

/-- A lexeme is kept, or two take its place. -/
theorem expand_cases (before : Option Token) (l : Lexeme) :
    expand before l = [l] ∨ ∃ a b, expand before l = [a,b] := by
  unfold expand
  split
  · split
    · exact .inr ⟨_,_,rfl⟩
    · exact .inl rfl
  · split
    · exact .inr ⟨_,_,rfl⟩
    · exact .inl rfl
  · exact .inl rfl

theorem map_token_expand (t : Token) (p q : Nat) (before : Option Token) :
    (expand before ⟨t,p⟩).map Lexeme.token = (expand before ⟨t,q⟩).map Lexeme.token := by
  cases t with
  | minus =>
    simp only [expand]
    split <;> rfl
  | num x =>
    simp only [expand]
    split <;> rfl
  | _ => rfl

theorem lastToken_position (t : Token) (p q : Nat) (before : Option Token) :
    lastToken before ⟨t,p⟩ = lastToken before ⟨t,q⟩ := by
  rw [lastToken,lastToken,← List.getLast?_map,map_token_expand t p q,List.getLast?_map]

/-- Which tokens the signs become does not depend on where they stand. -/
theorem map_token_resolveFrom (h : ls.map Lexeme.token = ms.map Lexeme.token) :
    (resolveFrom before ls).map Lexeme.token = (resolveFrom before ms).map Lexeme.token := by
  induction ls generalizing before ms with
  | nil =>
    rw [List.map_nil] at h
    rw [List.map_eq_nil_iff.mp h.symm]
  | cons l ls ih =>
    cases ms with
    | nil => cases h
    | cons m ms =>
      obtain ⟨t,p⟩ := l
      obtain ⟨u,q⟩ := m
      obtain ⟨htoken,hrest⟩ := List.cons.inj h
      dsimp only at htoken
      subst htoken
      rw [resolveFrom,resolveFrom,List.map_append,List.map_append,map_token_expand t p q,
        lastToken_position t p q,ih hrest]

theorem eq_nil_of_resolveFrom (h : resolveFrom before ls = []) : ls = [] := by
  cases ls with
  | nil => rfl
  | cons l ls =>
    rw [resolveFrom] at h
    rcases expand_cases before l with he | ⟨a,b,he⟩ <;> simp [he] at h

theorem map_token_of_resolve {t : Token} (h : (resolve ls).map Lexeme.token = [t]) :
    ls.map Lexeme.token = [t] := by
  cases ls with
  | nil => cases h
  | cons l ls =>
    rw [resolve,resolveFrom] at h
    rcases expand_cases none l with he | ⟨a,b,he⟩
    · rw [he,List.map_append,List.map_singleton,List.singleton_append] at h
      obtain ⟨ht,hnil⟩ := List.cons.inj h
      rw [eq_nil_of_resolveFrom (List.map_eq_nil_iff.mp hnil),List.map_singleton,ht]
    · simp [he] at h

/-- A lexeme that is no number is only moved, and of a number that is cut the rest is behind the
sign. -/
theorem expand_move (before : Option Token) {l : Lexeme}
    (h : ∀ x, l.token = .num x → g (l.position + 1) = g l.position + 1) :
    expand before (l.move g) = (expand before l).map (Lexeme.move g) := by
  obtain ⟨t,p⟩ := l
  cases t with
  | num x =>
    simp only [expand,Lexeme.move]
    split
    · have hp : g (p + 1) = g p + 1 := h x rfl
      simp [Lexeme.move,hp]
    · rfl
  | minus =>
    simp only [expand,Lexeme.move]
    split <;> rfl
  | _ => rfl

theorem resolveFrom_move
    (h : ∀ l ∈ ls, ∀ x, l.token = .num x → g (l.position + 1) = g l.position + 1) :
    resolveFrom before (ls.map (Lexeme.move g)) = (resolveFrom before ls).map (Lexeme.move g) := by
  induction ls generalizing before with
  | nil => rfl
  | cons l ls ih =>
    have first := expand_move before (h l List.mem_cons_self)
    have last : lastToken before (l.move g) = lastToken before l :=
      lastToken_position l.token (g l.position) l.position before
    rw [List.map_cons,resolveFrom,resolveFrom,first,last,
      ih (fun l hl => h l (List.mem_cons_of_mem _ hl)),List.map_append]

end Sign

namespace Piece

theorem lexemesFrom_move (n p : Nat) (ps : List Piece) :
    lexemesFrom (p + n) ps = (lexemesFrom p ps).map (Lexeme.move (· + n)) := by
  induction ps generalizing p with
  | nil => rfl
  | cons piece ps ih =>
    cases piece with
    | blank c => rw [lexemesFrom,lexemesFrom,← ih,Nat.add_right_comm]
    | word t w =>
      rw [lexemesFrom,lexemesFrom,List.map_cons,← ih,Nat.add_right_comm]
      rfl

/-- Blanks in front of a text move its lexemes. -/
theorem lexemesFrom_blanks {bs : List Char} (h : ∀ b ∈ bs, Scan.isBlank b = true) (p : Nat)
    (cs : List Char) :
    lexemesFrom p (scan (bs ++ cs)) = lexemesFrom (p + byteCount bs) (scan cs) := by
  induction bs generalizing p with
  | nil => rfl
  | cons b bs ih =>
    have hb := h b List.mem_cons_self
    rw [List.cons_append,scan_blank hb,lexemesFrom,byteCount,← Nat.add_assoc]
    exact ih (fun d hd => h d (List.mem_cons_of_mem b hd)) _

end Piece

/-- Blanks in front of an expression move its faults and do nothing else. -/
theorem evaluate_blanks {bs : List Char} (h : ∀ b ∈ bs, Scan.isBlank b = true) (cs : List Char)
    (env : Environment) :
    evaluate (String.ofList (bs ++ cs)) env =
      ((evaluate (String.ofList cs) env).1.mapError (Fault.move (· + Piece.byteCount bs)),
        (evaluate (String.ofList cs) env).2) := by
  have moved : lexemes (String.ofList (bs ++ cs)) =
      (lexemes (String.ofList cs)).map (Lexeme.move (· + Piece.byteCount bs)) := by
    rw [lexemes,lexemes,rawLexemes,rawLexemes,String.toList_ofList,String.toList_ofList,
      Piece.lexemesFrom_blanks h,Piece.lexemesFrom_move]
    exact Sign.resolveFrom_move (fun l _ _ _ => Nat.add_right_comm _ _ _)
  rw [evaluate,moved,evaluateLexemes_move,← evaluate]

end Reckoner
