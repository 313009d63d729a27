import Reckoner.Number.Decimal

namespace Reckoner

/-- The parts of a number literal. With no fraction there is no point either. -/
structure Literal where
  negative : Bool
  whole : List Char
  fraction : List Char
deriving Repr,DecidableEq

namespace Literal

def text (l : Literal) : List Char :=
  (if l.negative then ['-'] else []) ++ l.whole ++
    (if l.fraction = [] then [] else '.' :: l.fraction)

/-- The double nearest to the decimal that is written. -/
def value (l : Literal) : Float :=
  let v := Number.signed false (Number.Decimal.ofDigits l.whole l.fraction).nearest
  if l.negative then -v else v

def digits (cs : List Char) : List Char := cs.takeWhile Char.isDigit

def afterDigits (cs : List Char) : List Char := cs.dropWhile Char.isDigit

/-- The fraction at the front of a text, a point with digits behind it, and what follows. -/
def fraction? : List Char → Option (List Char × List Char)
  | '.' :: cs => if digits cs = [] then none else some (digits cs,afterDigits cs)
  | _ => none

/-- A literal without a sign: digits, a fraction, or both. A point without a digit behind it is not
part of the literal. -/
def unsigned? (cs : List Char) : Option (Literal × List Char) :=
  match fraction? (afterDigits cs) with
  | some (ds,rest) => some (⟨false,digits cs,ds⟩,rest)
  | none => if digits cs = [] then none else some (⟨false,digits cs,[]⟩,afterDigits cs)

/-- The longest literal at the front of a text, whose sign stands right before it, and what
follows. -/
def read? : List Char → Option (Literal × List Char)
  | '-' :: cs => (unsigned? cs).map (fun r => ({ r.1 with negative := true },r.2))
  | cs => unsigned? cs

theorem digits_append_afterDigits (cs : List Char) : digits cs ++ afterDigits cs = cs :=
  List.takeWhile_append_dropWhile

theorem eq_of_fraction? {cs ds rest : List Char} (h : fraction? cs = some (ds,rest)) :
    cs = '.' :: (ds ++ rest) ∧ ds ≠ [] := by
  unfold fraction? at h
  split at h
  · split at h
    · cases h
    · rename_i cs hd
      cases h
      exact ⟨by rw [digits_append_afterDigits],hd⟩
  · cases h

theorem text_append_of_unsigned? {cs rest : List Char} {l : Literal}
    (h : unsigned? cs = some (l,rest)) : l.text ++ rest = cs ∧ l.text ≠ [] := by
  unfold unsigned? at h
  split at h
  · rename_i ds r hf
    cases h
    obtain ⟨he,hd⟩ := eq_of_fraction? hf
    have hcs := digits_append_afterDigits cs
    rw [he] at hcs
    simp [text,hd,hcs]
  · split at h
    · cases h
    · rename_i hd
      cases h
      simp [text,hd,digits_append_afterDigits]

theorem negative_of_unsigned? {cs rest : List Char} {l : Literal}
    (h : unsigned? cs = some (l,rest)) : l.negative = false := by
  unfold unsigned? at h
  split at h
  · cases h; rfl
  · split at h
    · cases h
    · cases h; rfl

theorem text_append_of_read? {cs rest : List Char} {l : Literal} (h : read? cs = some (l,rest)) :
    l.text ++ rest = cs ∧ l.text ≠ [] := by
  unfold read? at h
  split at h
  · obtain ⟨⟨u,r⟩,hu,he⟩ := Option.map_eq_some_iff.mp h
    cases he
    have ht := (text_append_of_unsigned? hu).1
    simpa [text,negative_of_unsigned? hu] using ht
  · exact text_append_of_unsigned? h

end Literal

end Reckoner
