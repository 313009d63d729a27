import Mathlib
import Reckoner.Proofs.Negation
import Reckoner.Proofs.Spelling
import Reckoner.Token.Sign

namespace Reckoner

namespace Piece

@[simp]
theorem byteCount_append (u v : List Char) : byteCount (u ++ v) = byteCount u + byteCount v := by
  induction u with
  | nil => simp [byteCount]
  | cons c u ih => simp [byteCount,ih,Nat.add_assoc]

theorem byteCount_pos {cs : List Char} (h : cs ≠ []) : 0 < byteCount cs := by
  cases cs with
  | nil => exact absurd rfl h
  | cons c cs => exact Nat.add_pos_left c.utf8Size_pos _

theorem utf8ByteSize_ofList (cs : List Char) :
    (String.ofList cs).utf8ByteSize = byteCount cs := by
  rw [String.utf8ByteSize_ofList]
  induction cs with
  | nil => rfl
  | cons c cs ih => rw [String.utf8Len_cons,ih,byteCount,Nat.add_comm]

end Piece

/-- From its byte `p` on the source reads `rest`. -/
def From (source : String) (p : Nat) (rest : List Char) : Prop :=
  ∃ before, source.toList = before ++ rest ∧ Piece.byteCount before = p

/-- A character of the source begins with its byte `p`. -/
def Inside (source : String) (p : Nat) : Prop :=
  String.Pos.Raw.IsValid source ⟨p⟩ ∧ p < source.utf8ByteSize

namespace From
variable {source : String} {p : Nat} {u v rest : List Char} {c : Char}

theorem isValid (h : From source p rest) : String.Pos.Raw.IsValid source ⟨p⟩ := by
  obtain ⟨before,hs,rfl⟩ := h
  refine String.Pos.Raw.isValid_iff_exists_append.mpr
    ⟨String.ofList before,String.ofList rest,?_,?_⟩
  · rw [← String.ofList_append,← hs,String.ofList_toList]
  · rw [← Piece.utf8ByteSize_ofList]
    rfl

theorem inside (h : From source p rest) (hne : rest ≠ []) : Inside source p := by
  refine ⟨h.isValid,?_⟩
  obtain ⟨before,hs,rfl⟩ := h
  have hpos := Piece.byteCount_pos hne
  rw [← String.ofList_toList (s := source),hs,Piece.utf8ByteSize_ofList,Piece.byteCount_append]
  omega

theorem advance (h : From source p (u ++ v)) : From source (p + Piece.byteCount u) v := by
  obtain ⟨before,hs,rfl⟩ := h
  exact ⟨before ++ u,by rw [hs,List.append_assoc],Piece.byteCount_append before u⟩

end From

/-- A part of a source and the token that was read from it. -/
structure Span where
  token : Token
  start : Nat
  text : List Char

namespace Span

def stop (s : Span) : Nat := s.start + Piece.byteCount s.text

def lexeme (s : Span) : Lexeme := ⟨s.token,s.start⟩

/-- With `rest` behind it a span is the longest spelling of its token, or a run of unmatched
characters that are its token. -/
def ReadBefore (s : Span) (rest : List Char) : Prop :=
  Longest s.token s.text rest ∨ s.token = .unknown (String.ofList s.text) ∧ Unmatched s.text rest

end Span

/-- The spans of the words among the pieces; the first piece begins at `position`. -/
def Piece.spansFrom (position : Nat) : List Piece → List Span
  | [] => []
  | blank c :: ps => spansFrom (position + c.utf8Size) ps
  | word token text :: ps => ⟨token,position,text⟩ :: spansFrom (position + byteCount text) ps

theorem Piece.lexemesFrom_eq (position : Nat) (ps : List Piece) :
    lexemesFrom position ps = (spansFrom position ps).map Span.lexeme := by
  induction ps generalizing position with
  | nil => rfl
  | cons p ps ih =>
    cases p with
    | blank c => exact ih _
    | word token text => exact congrArg (List.cons _) (ih _)

/-- A text that begins at a place, cut into spans from left to right. -/
inductive Scanned : Nat → List Char → List Span → Prop where
  | nothing (p : Nat) : Scanned p [] []
  | blank {p : Nat} {c : Char} {cs : List Char} {spans : List Span} (hc : Scan.isBlank c = true)
      (later : Scanned (p + c.utf8Size) cs spans) : Scanned p (c :: cs) spans
  | word {p : Nat} {t : Token} {w rest : List Char} {spans : List Span} (hw : w ≠ [])
      (read : Span.ReadBefore ⟨t,p,w⟩ rest) (ends : ∀ u, t = .unknown u → EndsRun rest)
      (later : Scanned (p + Piece.byteCount w) rest spans) :
      Scanned p (w ++ rest) (⟨t,p,w⟩ :: spans)

theorem Scan.strayRun_cons {c : Char} {cs : List Char} (hb : isBlank c = false)
    (hr : read? (c :: cs) = none) :
    strayRun (c :: cs) = c :: strayRun cs ∧ afterStray (c :: cs) = afterStray cs := by
  have hs : isStray (c :: cs) = true := isStray_cons.mpr ⟨hb,read?_eq_none_iff.mp hr⟩
  simp only [strayRun,afterStray,hs,if_true,and_self]

theorem scanned_scan (p : Nat) (cs : List Char) :
    Scanned p cs (Piece.spansFrom p (Piece.scan cs)) := by
  fun_induction Piece.scan cs generalizing p with
  | case1 => exact .nothing p
  | case2 c cs hb ih => exact .blank hb (ih _)
  | case3 c cs hb r hr ih =>
    obtain ⟨he,hne⟩ := Scan.text_append_of_read? hr
    have longest := Scan.longest_of_read? hr
    rw [← he]
    exact .word hne (.inl longest) (fun u hu => absurd hu (longest.spells.ne_unknown u)) (ih _)
  | case4 c cs hb hr ih =>
    obtain ⟨hrun,hafter⟩ := Scan.strayRun_cons (by simpa using hb) hr
    have unmatched := Scan.unmatched_strayRun (c :: cs)
    rw [hrun,hafter] at unmatched
    have spans := Scanned.word (p := p) (t := .unknown (String.ofList (c :: Scan.strayRun cs)))
      (List.cons_ne_nil _ _) (.inr ⟨rfl,unmatched⟩) (fun _ _ => Scan.endsRun_afterStray cs) (ih _)
    rw [List.cons_append,Scan.strayRun_append_afterStray] at spans
    exact spans

namespace Scanned
variable {p : Nat} {cs : List Char} {spans : List Span}

/-- Where a span of a text stands, and what it was read from. -/
theorem placed (h : Scanned p cs spans) {s : Span} (hs : s ∈ spans) :
    ∃ before rest, cs = before ++ (s.text ++ rest) ∧ s.start = p + Piece.byteCount before ∧
      s.text ≠ [] ∧ s.ReadBefore rest := by
  induction h with
  | nothing p => cases hs
  | @blank p c cs spans hc later ih =>
    obtain ⟨before,rest,hcs,hstart,hread⟩ := ih hs
    refine ⟨c :: before,rest,by rw [hcs]; rfl,?_,hread⟩
    rw [hstart,Piece.byteCount,Nat.add_assoc]
  | @word p t w rest spans hw read ends later ih =>
    rcases List.mem_cons.mp hs with rfl | hs
    · exact ⟨[],rest,rfl,rfl,hw,read⟩
    · obtain ⟨before,rest',hcs,hstart,hread⟩ := ih hs
      refine ⟨w ++ before,rest',by rw [hcs,List.append_assoc],?_,hread⟩
      rw [hstart,Piece.byteCount_append,Nat.add_assoc]

end Scanned

/-- What becomes of a span when the signs are resolved: it is kept, or it is a minus that becomes a
multiplication by -1, or a number that is cut behind its sign. -/
inductive Span.Becomes (s : Span) : List Lexeme → Prop where
  | kept : s.Becomes [s.lexeme]
  | negation (ht : s.token = .minus) : s.Becomes [⟨.num (-1),s.start⟩,⟨.star,s.start⟩]
  | subtraction {x : Float} {ds : List Char} (ht : s.token = .num x) (hs : s.text = '-' :: ds)
      (hd : Spells (.num (-x)) ds) : s.Becomes [⟨.minus,s.start⟩,⟨.num (-x),s.start + 1⟩]

/-- A number below zero was written with a sign, and the rest of it spells the opposite number. -/
theorem Spells.unsigned {x : Float} {w : List Char} (h : Spells (.num x) w)
    (hx : Number.negative x = true) : ∃ ds, w = '-' :: ds ∧ Spells (.num (-x)) ds := by
  obtain ⟨l,hl,rfl,rfl⟩ := h.of_num
  have hn := Literal.negative_of_value hx
  obtain ⟨negative,ds,fs⟩ := l
  subst hn
  have bare : Literal.Formed ⟨false,ds,fs⟩ := ⟨hl.whole,hl.fraction,hl.nonempty⟩
  refine ⟨Literal.text ⟨false,ds,fs⟩,by simp [Literal.text],?_⟩
  rw [Literal.neg_value]
  exact bare.spells

namespace Span
variable {s : Span} {rest : List Char} {ls : List Lexeme} {source : String}

theorem ReadBefore.spells {t : Token} (h : s.ReadBefore rest) (ht : s.token = t)
    (hu : ∀ u, t ≠ .unknown u) : Spells t s.text := by
  rcases h with h | ⟨h,_⟩
  · exact ht ▸ h.spells
  · exact absurd (ht.symm.trans h) (hu _)

theorem ReadBefore.becomes (h : s.ReadBefore rest) (before : Option Token) :
    s.Becomes (Sign.expand before s.lexeme) := by
  unfold Sign.expand
  split
  · rename_i ht
    split
    · exact .negation ht
    · exact .kept
  · rename_i x ht
    split
    · rename_i hx
      rw [Bool.and_eq_true] at hx
      obtain ⟨ds,hs,hd⟩ := (h.spells ht (by simp)).unsigned hx.1
      exact .subtraction ht hs hd
    · exact .kept
  · exact .kept

theorem Becomes.position (h : s.Becomes ls) (hf : From source s.start (s.text ++ rest))
    (hne : s.text ≠ []) {l : Lexeme} (hl : l ∈ ls) :
    s.start ≤ l.position ∧ l.position < s.stop ∧ Inside source l.position := by
  have hpos : s.start < s.stop := Nat.lt_add_of_pos_right (Piece.byteCount_pos hne)
  have hin := hf.inside (List.append_ne_nil_of_left_ne_nil hne rest)
  cases h with
  | kept =>
    obtain rfl := List.mem_singleton.mp hl
    exact ⟨Nat.le_refl _,hpos,hin⟩
  | negation ht =>
    simp only [List.mem_cons,List.not_mem_nil,or_false] at hl
    rcases hl with rfl | rfl <;> exact ⟨Nat.le_refl _,hpos,hin⟩
  | @subtraction x ds ht hs hd =>
    simp only [List.mem_cons,List.not_mem_nil,or_false] at hl
    rcases hl with rfl | rfl
    · exact ⟨Nat.le_refl _,hpos,hin⟩
    · have hcount : Piece.byteCount s.text = 1 + Piece.byteCount ds := by rw [hs]; rfl
      have hds := Piece.byteCount_pos hd.ne_nil
      refine ⟨Nat.le_succ _,?_,?_⟩
      · change s.start + 1 < s.start + Piece.byteCount s.text
        omega
      · have behind : From source (s.start + 1) (ds ++ rest) := by
          rw [hs,List.cons_append] at hf
          exact hf.advance (u := ['-'])
        exact behind.inside (List.append_ne_nil_of_left_ne_nil hd.ne_nil rest)

end Span

theorem exists_blocks {spans : List Span} (h : ∀ s ∈ spans, ∃ rest, s.ReadBefore rest)
    (before : Option Token) :
    ∃ blocks, List.Forall₂ Span.Becomes spans blocks ∧
      Sign.resolveFrom before (spans.map Span.lexeme) = blocks.flatten := by
  induction spans generalizing before with
  | nil => exact ⟨[],.nil,rfl⟩
  | cons s spans ih =>
    obtain ⟨rest,hs⟩ := h s List.mem_cons_self
    obtain ⟨blocks,hblocks,heq⟩ := ih (fun s hs => h s (List.mem_cons_of_mem _ hs))
      (Sign.lastToken before s.lexeme)
    refine ⟨Sign.expand before s.lexeme :: blocks,.cons (hs.becomes before) hblocks,?_⟩
    rw [List.map_cons,Sign.resolveFrom,heq,List.flatten_cons]

theorem exists_span {spans : List Span} {blocks : List (List Lexeme)}
    (h : List.Forall₂ Span.Becomes spans blocks) {l : Lexeme} (hl : l ∈ blocks.flatten) :
    ∃ s ∈ spans, ∃ ls, s.Becomes ls ∧ l ∈ ls := by
  induction h with
  | nil => cases hl
  | @cons s ls spans blocks hs _ ih =>
    rcases List.mem_append.mp hl with hl | hl
    · exact ⟨s,List.mem_cons_self,ls,hs,hl⟩
    · obtain ⟨s',hs',found⟩ := ih hl
      exact ⟨s',List.mem_cons_of_mem _ hs',found⟩

/-- The spans of a source. -/
def spans (source : String) : List Span := Piece.spansFrom 0 (Piece.scan source.toList)

theorem rawLexemes_eq (source : String) : rawLexemes source = (spans source).map Span.lexeme :=
  Piece.lexemesFrom_eq 0 _

/-- What a span of a source has to do with the source. -/
structure Span.Fits (source : String) (s : Span) (rest : List Char) : Prop where
  place : From source s.start (s.text ++ rest)
  nonempty : s.text ≠ []
  read : s.ReadBefore rest

theorem exists_fits {source : String} {s : Span} (hs : s ∈ spans source) :
    ∃ rest, s.Fits source rest := by
  obtain ⟨before,rest,hcs,hstart,hne,hread⟩ := (scanned_scan 0 source.toList).placed hs
  rw [Nat.zero_add] at hstart
  exact ⟨rest,⟨before,hcs,hstart.symm⟩,hne,hread⟩

theorem exists_blocks_lexemes (source : String) :
    ∃ blocks, List.Forall₂ Span.Becomes (spans source) blocks ∧
      lexemes source = blocks.flatten := by
  obtain ⟨blocks,hblocks,heq⟩ :=
    exists_blocks (fun s hs => (exists_fits hs).imp fun _ h => h.read) none
  exact ⟨blocks,hblocks,by rw [lexemes,Sign.resolve,rawLexemes_eq,heq]⟩

theorem inside_of_mem {source : String} {l : Lexeme} (hl : l ∈ lexemes source) :
    Inside source l.position := by
  obtain ⟨blocks,hblocks,heq⟩ := exists_blocks_lexemes source
  rw [heq] at hl
  obtain ⟨s,hs,ls,hls,hl⟩ := exists_span hblocks hl
  obtain ⟨rest,hfit⟩ := exists_fits hs
  exact (hls.position hfit.place hfit.nonempty hl).2.2

theorem isBlank_iff {c : Char} : Scan.isBlank c = true ↔ c ∈ [' ','\t','\r','\n','\x0c'] := by
  unfold Scan.isBlank
  split <;> simp_all

end Reckoner
