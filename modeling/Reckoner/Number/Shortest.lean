import Reckoner.Number.Decimal

namespace Reckoner.Number

/-- The number of 10⁻¹⁰⁷⁴ in one unit, so that a finite double is a whole number `w` of them too. -/
def fine : Nat := Nat.pow 5 1074

def gridPoint (j c : Nat) : Decimal := ⟨c * tenTo (j - 1074),1074 - j⟩

/-- Of the two neighbours of `w` on the grid of width `tenTo j`, the one that reads back as the
magnitude `bits`; of two, the nearer, and the upper if they are equally near. -/
def neighbour? (bits w j : Nat) : Option Decimal :=
  let below := gridPoint j (w / tenTo j)
  let above := gridPoint j (w / tenTo j + 1)
  if below.nearest = bits then
    if above.nearest = bits ∧ tenTo j ≤ 2 * (w % tenTo j) then some above else some below
  else if above.nearest = bits then some above
  else none

/-- The search from grid `j` down, for the first on which a neighbour reads back. A decimal of a
grid that reads back has one of the two neighbours between itself and `w`, so none is missed. On the
finest grid `w` itself is a point. -/
def searchGrids (bits w : Nat) : Nat → Decimal
  | 0 => gridPoint 0 w
  | j + 1 => (neighbour? bits w (j + 1)).getD (searchGrids bits w j)

/-- At least the number of decimal digits of `w`: a binary digit is worth less than 0.30103 of
them. -/
def digitBound (w : Nat) : Nat := (Nat.log2 w + 1) * 30103 / 100000 + 1

/-- The shortest decimal that reads back as a finite magnitude, and the nearest of those. On a grid
with more zeros than the double has digits, every point but zero is too large to read back. -/
def shortest (bits : Nat) : Decimal :=
  if bits = 0 then ⟨0,0⟩
  else searchGrids bits (units bits * fine) (digitBound (units bits * fine))

theorem nearest_of_neighbour? {bits w j : Nat} {d : Decimal} (h : neighbour? bits w j = some d) :
    d.nearest = bits := by
  unfold neighbour? at h
  by_cases hb : (gridPoint j (w / tenTo j)).nearest = bits
  · by_cases ha : (gridPoint j (w / tenTo j + 1)).nearest = bits ∧ tenTo j ≤ 2 * (w % tenTo j)
    · simp only [hb,ha,and_self,↓reduceIte,Option.some.injEq] at h
      exact h ▸ ha.1
    · simp only [hb,ha,↓reduceIte,Option.some.injEq] at h
      exact h ▸ hb
  · by_cases ha : (gridPoint j (w / tenTo j + 1)).nearest = bits
    · simp only [hb,ha,↓reduceIte,Option.some.injEq] at h
      exact h ▸ ha
    · simp only [hb,ha,↓reduceIte,reduceCtorEq] at h

/-- A magnitude as text. There is never an exponent, and a whole number has no point. -/
def magnitudeText (bits : Nat) : List Char :=
  if bits = infinite then ['i','n','f'] else (shortest bits).text

/-- A number as text. Zero keeps its sign and NaN has none. -/
def text (x : Float) : String :=
  if infinite < magnitude x then "NaN"
  else String.ofList (if negative x then '-' :: magnitudeText (magnitude x) else
    magnitudeText (magnitude x))

end Reckoner.Number
