import Reckoner.Number.Binary

namespace Reckoner.Number

def tenTo (n : Nat) : Nat := Nat.pow 10 n

/-- The fraction `digits / tenTo places`. -/
structure Decimal where
  digits : Nat
  places : Nat
deriving Repr,DecidableEq

namespace Decimal

def ofDigits (whole fraction : List Char) : Decimal :=
  ⟨Nat.ofDigitChars 10 (whole ++ fraction) 0,fraction.length⟩

/-- The magnitude of the double nearest to a decimal. -/
def nearest (d : Decimal) : Nat := Number.nearest (d.digits * one) (tenTo d.places)

/-- The digits, with zeros in front until one of them stands before the point. -/
def padded (d : Decimal) : List Char :=
  let ds := Nat.toDigits 10 d.digits
  List.replicate (d.places + 1 - ds.length) '0' ++ ds

def whole (d : Decimal) : List Char := d.padded.take (d.padded.length - d.places)

/-- The digits after the point, one for each place. -/
def fraction (d : Decimal) : List Char := d.padded.drop (d.padded.length - d.places)

/-- All digits in their places, and a point only if some stand after it. -/
def text (d : Decimal) : List Char :=
  if d.places = 0 then d.whole else d.whole ++ '.' :: d.fraction

theorem whole_append_fraction (d : Decimal) : d.whole ++ d.fraction = d.padded :=
  List.take_append_drop _ _

theorem length_padded (d : Decimal) : d.places < d.padded.length := by
  simp only [padded,List.length_append,List.length_replicate]
  omega

theorem length_fraction (d : Decimal) : d.fraction.length = d.places := by
  have := d.length_padded
  simp only [fraction,List.length_drop]
  omega

theorem whole_ne_nil (d : Decimal) : d.whole ≠ [] := by
  have := d.length_padded
  intro h
  have hl := congrArg List.length h
  simp only [whole,List.length_take,List.length_nil] at hl
  omega

theorem ofDigitChars_padded (d : Decimal) : Nat.ofDigitChars 10 d.padded 0 = d.digits := by
  simp only [padded,Nat.ofDigitChars_append,Nat.ofDigitChars_replicate_zero,Nat.mul_zero,
    Nat.ofDigitChars_ten_toDigits]

/-- A decimal is read back from the digits it is written with. -/
theorem ofDigits_whole_fraction (d : Decimal) : ofDigits d.whole d.fraction = d := by
  simp only [ofDigits,whole_append_fraction,ofDigitChars_padded,length_fraction]

theorem isDigit_of_mem_padded {d : Decimal} {c : Char} (h : c ∈ d.padded) : c.isDigit := by
  rcases List.mem_append.mp h with h | h
  · rw [List.eq_of_mem_replicate h]
    rfl
  · exact Nat.isDigit_of_mem_toDigits (by decide) (by decide) h

theorem isDigit_of_mem_whole {d : Decimal} {c : Char} (h : c ∈ d.whole) : c.isDigit :=
  isDigit_of_mem_padded (List.mem_of_mem_take h)

theorem isDigit_of_mem_fraction {d : Decimal} {c : Char} (h : c ∈ d.fraction) : c.isDigit :=
  isDigit_of_mem_padded (List.mem_of_mem_drop h)

end Decimal

end Reckoner.Number
