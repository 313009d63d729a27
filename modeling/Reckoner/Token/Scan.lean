import Reckoner.Token.Basic
import Reckoner.Token.Literal

namespace Reckoner

namespace Scan

/-- The blanks between tokens. Other white space is unknown. -/
def isBlank : Char → Bool
  | ' ' | '\t' | '\r' | '\n' | '\x0c' => true
  | _ => false

/-- A letter begins a name; only those of ASCII count. -/
def isNameStart (c : Char) : Bool := c.isAlpha

def isNamePart (c : Char) : Bool := c.isAlphanum || c == '_'

/-- A token at the front of a text, the characters it was read from and those behind it. -/
structure Reading where
  token : Token
  text : List Char
  rest : List Char

/-- The token that the first character decides on: a name or a symbol. -/
def word? : List Char → Option Reading
  | [] => none
  | c :: cs =>
    if isNameStart c then
      let name := c :: cs.takeWhile isNamePart
      some ⟨.ident (String.ofList name),name,cs.dropWhile isNamePart⟩
    else (Token.symbol? c).map (fun t => ⟨t,[c],cs⟩)

/-- The longest token at the front of a text. A sign with a number right behind it belongs to the
number. -/
def read? (cs : List Char) : Option Reading :=
  match Literal.read? cs with
  | some (l,rest) => some ⟨.num l.value,l.text,rest⟩
  | none => word? cs

/-- Whether a text begins with a character that is neither blank nor part of a token. -/
def isStray : List Char → Bool
  | [] => false
  | c :: cs => !isBlank c && (read? (c :: cs)).isNone

/-- The stray characters at the front of a text. -/
def strayRun : List Char → List Char
  | [] => []
  | c :: cs => if isStray (c :: cs) then c :: strayRun cs else []

def afterStray : List Char → List Char
  | [] => []
  | c :: cs => if isStray (c :: cs) then afterStray cs else c :: cs

theorem text_append_of_read? {cs : List Char} {r : Reading} (h : read? cs = some r) :
    r.text ++ r.rest = cs ∧ r.text ≠ [] := by
  unfold read? at h
  split at h
  · rename_i l rest hl
    cases h
    exact Literal.text_append_of_read? hl
  · unfold word? at h
    split at h
    · cases h
    · split at h
      · cases h
        simp [List.takeWhile_append_dropWhile]
      · obtain ⟨t,_,he⟩ := Option.map_eq_some_iff.mp h
        cases he
        simp

theorem length_rest_lt {cs : List Char} {r : Reading} (h : read? cs = some r) :
    r.rest.length < cs.length := by
  obtain ⟨he,hn⟩ := text_append_of_read? h
  have := List.length_pos_iff.mpr hn
  rw [← he,List.length_append]
  omega

theorem strayRun_append_afterStray (cs : List Char) : strayRun cs ++ afterStray cs = cs := by
  induction cs with
  | nil => rfl
  | cons c cs ih =>
    simp only [strayRun,afterStray]
    split
    · rw [List.cons_append,ih]
    · rfl

theorem length_afterStray_le (cs : List Char) : (afterStray cs).length ≤ cs.length := by
  have := congrArg List.length (strayRun_append_afterStray cs)
  rw [List.length_append] at this
  omega

end Scan

/-- A piece of a scanned text: a blank, or a token with the characters it was read from. -/
inductive Piece where
  | blank (c : Char)
  | word (token : Token) (text : List Char)

namespace Piece

def text : Piece → List Char
  | blank c => [c]
  | word _ text => text

/-- Cuts a text into its pieces. At each place the longest token is taken. Where none begins, the
characters up to the next place where one does, or up to a blank, are one unknown piece. -/
def scan : List Char → List Piece
  | [] => []
  | c :: cs =>
    if Scan.isBlank c then blank c :: scan cs
    else
      match _h : Scan.read? (c :: cs) with
      | some r => word r.token r.text :: scan r.rest
      | none =>
        word (.unknown (String.ofList (c :: Scan.strayRun cs))) (c :: Scan.strayRun cs) ::
          scan (Scan.afterStray cs)
termination_by cs => cs.length
decreasing_by
  · simp
  · exact Scan.length_rest_lt _h
  · have := Scan.length_afterStray_le cs
    simp only [List.length_cons]
    omega

def byteCount : List Char → Nat
  | [] => 0
  | c :: cs => c.utf8Size + byteCount cs

/-- The words among the pieces, at their places; the first piece begins at `position`. -/
def lexemesFrom (position : Nat) : List Piece → List Lexeme
  | [] => []
  | blank c :: ps => lexemesFrom (position + c.utf8Size) ps
  | word token text :: ps => ⟨token,position⟩ :: lexemesFrom (position + byteCount text) ps

/-- Scanning loses nothing and changes nothing. -/
theorem flatMap_text_scan (cs : List Char) : (scan cs).flatMap text = cs := by
  fun_induction scan cs with
  | case1 => rfl
  | case2 c cs hb ih => simp [text,ih]
  | case3 c cs hb r hr ih => simp [text,ih,(Scan.text_append_of_read? hr).1]
  | case4 c cs hb hr ih => simp [text,ih,Scan.strayRun_append_afterStray]

end Piece

/-- The lexemes of a text as they are written, with each sign still where the scan put it. -/
def rawLexemes (source : String) : List Lexeme := Piece.lexemesFrom 0 (Piece.scan source.toList)

end Reckoner
