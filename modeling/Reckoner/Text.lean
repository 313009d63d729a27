namespace Reckoner.Text

/-- The characters with the Unicode property White_Space. -/
def isSpace (c : Char) : Bool :=
  let n := c.toNat
  (9 ≤ n && n ≤ 13) || n = 0x20 || n = 0x85 || n = 0xa0 || n = 0x1680 ||
    (0x2000 ≤ n && n ≤ 0x200a) || n = 0x2028 || n = 0x2029 || n = 0x202f || n = 0x205f ||
    n = 0x3000

/-- Drops the white space at both ends. -/
def trimChars (cs : List Char) : List Char :=
  ((cs.dropWhile isSpace).reverse.dropWhile isSpace).reverse

def trim (s : String) : String := String.ofList (trimChars s.toList)

def consLine (c : Char) (lines : List (List Char)) : List (List Char) :=
  if c = '\n' then [c] :: lines
  else
    match lines with
    | [] => [[c]]
    | l :: ls => (c :: l) :: ls

/-- Cuts a text behind every line feed. The last line may have none, but it is never empty. -/
def cutLines (cs : List Char) : List (List Char) := cs.foldr consLine []

/-- A line without its end. A carriage return belongs to the end only before a line feed. -/
def dropLineEnd (line : List Char) : List Char :=
  match line.reverse with
  | '\n' :: '\r' :: cs => cs.reverse
  | '\n' :: cs => cs.reverse
  | _ => line

def endedLines (s : String) : List String := (cutLines s.toList).map String.ofList

def lines (s : String) : List String :=
  (cutLines s.toList).map (fun l => String.ofList (dropLineEnd l))

theorem flatten_consLine (c : Char) (lines : List (List Char)) :
    (consLine c lines).flatten = c :: lines.flatten := by
  unfold consLine
  split
  · rfl
  · split <;> rfl

/-- The cut lines are the text. -/
theorem flatten_cutLines (cs : List Char) : (cutLines cs).flatten = cs := by
  induction cs with
  | nil => rfl
  | cons c cs ih => rw [cutLines,List.foldr_cons,flatten_consLine,← cutLines,ih]

end Reckoner.Text
