namespace Reckoner.Number

/-- The number of units in 1. Every finite double is a whole number of units of 2⁻¹⁰⁷⁴, so what has
to be exact is computed in `Nat`, and `nearest` is the one place where a result is rounded. -/
def one : Nat := 1 <<< 1074

def signBit : Nat := 1 <<< 63

/-- The number of magnitudes from one power of two to the next. -/
def binade : Nat := 1 <<< 52

/-- The magnitude of infinity, just above that of the largest finite double. -/
def infinite : Nat := 2047 * binade

/-- The bits of a double without its sign: they grow with the absolute value. -/
def magnitude (x : Float) : Nat := x.toBits.toNat % signBit

/-- The sign bit, which -0 has. `Float` has a single NaN, and its sign bit is not set. Binary64 also
has NaNs with the sign bit set, of which nothing is said here: no literal is read as one, so they
can only stand in lexemes that are not those of a text. -/
def negative (x : Float) : Bool := decide (signBit ≤ x.toBits.toNat)

def finite (x : Float) : Bool := decide (magnitude x < infinite)

def signed (negative : Bool) (bits : Nat) : Float :=
  Float.ofBits (UInt64.ofNat (if negative then signBit + bits else bits))

/-- The units of a finite magnitude. The step from one magnitude to the next is a single unit in the
two smallest binades, and twice as wide in each binade after them. -/
def units (bits : Nat) : Nat :=
  let e := bits / binade - 1
  (bits - e * binade) <<< e

/-- The whole number nearest to a quotient, the even one if two are equally near. -/
def divNearest (n d : Nat) : Nat :=
  let q := n / d
  let twice := 2 * (n % d)
  if twice < d then q else if d < twice then q + 1 else q + q % 2

/-- The magnitude nearest to `n / d` units, the even one if two are equally near. A quotient of
`53 + e` bits is counted in steps of `1 <<< e` units, which leaves 53 bits. What is too large for a
finite double is infinite. -/
def nearest (n d : Nat) : Nat :=
  let e := Nat.log2 (n / d) - 52
  min infinite (e * binade + divNearest n (d <<< e))

def wholeMagnitude (u : Nat) : Nat := nearest (u / one * one) 1

/-- The largest whole number that is not above `x`. What is whole, infinite or NaN is its own floor,
and so keeps its sign if it is zero. -/
def floor (x : Float) : Float :=
  let u := units (magnitude x)
  if !finite x ∨ u % one = 0 then x
  else if negative x then signed true (wholeMagnitude (u + one))
  else signed false (wholeMagnitude u)

/-- The nearest whole number, the upper one if two are equally near. -/
def roundHalfUp (x : Float) : Float :=
  let f := floor x
  if 0.5 ≤ x - f then f + 1 else f

def nan : Float := 0 / 0

/-- What is left of `x` after taking `y` away as often as it goes in whole, which is a double and so
never rounded. It has the sign of `x`. There is none for an infinite `x` or a zero `y`, and an
infinite `y` never goes in. -/
def remainder (x y : Float) : Float :=
  if !finite x ∨ infinite < magnitude y ∨ magnitude y = 0 then nan
  else if magnitude y = infinite then x
  else signed (negative x) (nearest (units (magnitude x) % units (magnitude y)) 1)

end Reckoner.Number
