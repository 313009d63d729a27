import Reckoner.Proofs.Rounded

namespace Reckoner.Number
open Float.Model.UnpackedFloat

/-- The value of a finite double. -/
def rational (x : Float) : ℚ := signedUnits x / one

section Signed
variable (s : Bool) {bits : Nat} (h : bits < infinite)
include h

theorem magnitude_signed : magnitude (signed s bits) = bits :=
  magnitude_eq (h.trans (by decide)) (toBits_signed s h)

theorem finite_signed : finite (signed s bits) = true :=
  decide_eq_true ((magnitude_signed s h).trans_lt h)

theorem signedUnits_signed : signedUnits (signed s bits) = (signOf s).apply (units bits) := by
  rw [signedUnits,magnitude_signed s h,negative_eq (h.trans (by decide)) (toBits_signed s h)]

end Signed

theorem dvd_shiftLeft {k e : Nat} (m : Nat) (h : k ≤ e) : 1 <<< k ∣ m <<< e := by
  rw [Nat.one_shiftLeft,Nat.shiftLeft_eq]
  exact (Nat.pow_dvd_pow 2 h).mul_left m

/-- Only doubles below 2⁵² have a fraction. -/
theorem units_lt {bits : Nat} (h : units bits % one ≠ 0) : units bits < binade * one := by
  obtain ⟨e,m,hm,-,hu⟩ := exists_inBinade bits
  rw [hu] at h ⊢
  have he : e < 1074 := by
    by_contra he
    exact h (Nat.mod_eq_zero_of_dvd (dvd_shiftLeft m (not_lt.mp he)))
  exact shiftLeft_eq_mul binade 1074 ▸ hm.shiftLeft_lt he

theorem one_pos : (0 : ℤ) < one := by
  exact_mod_cast (by decide : 0 < one)

theorem natAbs_signedUnits (x : Float) : (signedUnits x).natAbs = units (magnitude x) :=
  natAbs_apply _ _

theorem one_dvd_signedUnits {x : Float} :
    (one : ℤ) ∣ signedUnits x ↔ units (magnitude x) % one = 0 := by
  rw [Int.natCast_dvd,natAbs_signedUnits,Nat.dvd_iff_mod_eq_zero]

theorem floor_of_dvd {x : Float} (h : (one : ℤ) ∣ signedUnits x) : floor x = x := by
  simp [floor,one_dvd_signedUnits.mp h]

/-- The floor of a double is exact. -/
theorem floor_spec {x : Float} (hx : finite x = true) :
    finite (floor x) = true ∧ signedUnits (floor x) = signedUnits x / one * one := by
  by_cases hdvd : (one : ℤ) ∣ signedUnits x
  · rw [floor_of_dvd hdvd]
    exact ⟨hx,(Int.ediv_mul_cancel hdvd).symm⟩
  have hwhole : units (magnitude x) % one ≠ 0 := fun h => hdvd (one_dvd_signedUnits.mpr h)
  have hpos := one_pos
  have hu : signedUnits x = (signOf (negative x)).apply (units (magnitude x)) := rfl
  have hlt := units_lt hwhole
  have hbinade : 0 < binade := by decide
  have hq : units (magnitude x) / one < binade := Nat.div_lt_of_lt_mul (by rwa [Nat.mul_comm])
  cases hn : negative x with
  | false =>
    obtain ⟨hmag,hunits⟩ := (@IsDouble.mul_one (units (magnitude x) / one) (by omega)).units_nearest
    have hfloor : floor x = signed false (wholeMagnitude (units (magnitude x))) := by
      simp [floor,hwhole,hn,hx]
    rw [hfloor,wholeMagnitude]
    refine ⟨finite_signed false hmag,?_⟩
    rw [signedUnits_signed false hmag,hunits,hu,hn]
    simp [signOf,Sign.apply]
  | true =>
    have hnext : (units (magnitude x) + one) / one = units (magnitude x) / one + 1 :=
      Nat.add_div_right _ (by decide)
    obtain ⟨hmag,hunits⟩ :=
      (@IsDouble.mul_one (units (magnitude x) / one + 1) (by omega)).units_nearest
    have hfloor : floor x = signed true (wholeMagnitude (units (magnitude x) + one)) := by
      simp [floor,hwhole,hn,hx]
    rw [hfloor,wholeMagnitude,hnext]
    refine ⟨finite_signed true hmag,?_⟩
    have hfraction : ¬(one : ℤ) ∣ units (magnitude x) := fun h =>
      hwhole (Nat.mod_eq_zero_of_dvd (Int.natCast_dvd_natCast.mp h))
    rw [signedUnits_signed true hmag,hunits,hu,hn]
    simp only [signOf,if_true,Sign.apply,Int.neg_ediv,if_neg hfraction,Int.sign_eq_one_of_pos hpos]
    push_cast
    ring

/-- What is less than a half above a whole number is not above the number without its sign. -/
theorem emod_le_natAbs {a u : ℤ} (hu : 0 < u) (h : 2 * (a % u) < u) : a % u ≤ a.natAbs := by
  have hdef := Int.emod_def a u
  rcases le_or_gt 0 a with ha | ha
  · have hmul := mul_nonneg hu.le (Int.ediv_nonneg ha hu.le)
    omega
  · by_contra hlt
    have hnext : a % u = a + u := by
      rw [← Int.add_emod_right,Int.emod_eq_of_lt (by omega) (by omega)]
    omega

theorem isDouble_units {x : Float} (hx : finite x = true) : IsDouble (signedUnits x).natAbs :=
  ⟨magnitude x,of_decide_eq_true hx,(natAbs_signedUnits x).symm⟩

/-- A rest below a half is on the steps of the double. -/
theorem isDouble_rest {x : Float} (hx : finite x = true) (h : 2 * (signedUnits x % one) < one) :
    IsDouble (signedUnits x % one).natAbs := by
  have hle := emod_le_natAbs one_pos h
  have hrest := Int.emod_nonneg (signedUnits x) one_pos.ne'
  obtain ⟨e,he,m,hm,hu⟩ := (isDouble_units hx).exists_steps
  -- The step of the double is either whole, or it divides one, and so the rest.
  by_cases hwhole : 1074 ≤ e
  · have hdvd : (one : ℤ) ∣ signedUnits x := Int.natCast_dvd.mpr (hu ▸ dvd_shiftLeft m hwhole)
    rw [Int.emod_eq_zero_of_dvd hdvd]
    exact @IsDouble.mul_one 0 (by decide)
  · refine IsDouble.of_dvd hm he ?_ (by omega)
    have hone : 1 <<< e ∣ one := dvd_shiftLeft 1 (Nat.le_of_not_le hwhole)
    have hdvd : ((1 <<< e : ℕ) : ℤ) ∣ signedUnits x :=
      Int.natCast_dvd.mpr (hu ▸ dvd_shiftLeft m le_rfl)
    rw [← Nat.one_shiftLeft,← Int.natCast_dvd]
    exact (EuclideanDomain.dvd_mod_iff (Int.natCast_dvd_natCast.mpr hone)).mpr hdvd

theorem finite_half : finite 0.5 = true := by decide +kernel

theorem two_mul_signedUnits_half : 2 * signedUnits 0.5 = one := by decide +kernel

theorem finite_one : finite 1 = true := by decide +kernel

theorem signedUnits_one : signedUnits 1 = one := by decide +kernel

namespace Rounded
variable {x y : Float} {z : ℤ} (h : Rounded x z) (hy : finite y = true)
include h hy

theorem le_signedUnits (hz : 0 < z) (hle : signedUnits y ≤ z) : signedUnits y ≤ signedUnits x := by
  rw [h.signedUnits_eq_sign_mul,Int.sign_eq_one_of_pos hz,one_mul]
  rcases le_or_gt (signedUnits y) 0 with hneg | hpos
  · omega
  · have hmono : nearest (signedUnits y).natAbs 1 ≤ nearest z.natAbs 1 := nearest_mono (by omega)
    have hunits := (units_le_units (hmono.trans (nearest_le _ _)) (nearest_le _ _)).mpr hmono
    rw [(isDouble_units hy).units_nearest.2] at hunits
    omega

theorem finite_of_le (hle : z.natAbs ≤ (signedUnits y).natAbs) : finite x = true :=
  h.finite_of_lt ((nearest_mono hle).trans_lt (isDouble_units hy).units_nearest.1)

end Rounded

/-- Rounded or not, what is above the floor is compared with a half as the exact rest is. -/
theorem half_le_sub_floor {x : Float} (hx : finite x = true) :
    0.5 ≤ x - floor x ↔ one ≤ 2 * (signedUnits x % one) := by
  obtain ⟨hf,hfloor⟩ := floor_spec hx
  have hpos := one_pos
  have hhalf := two_mul_signedUnits_half
  have hrest := Int.emod_nonneg (signedUnits x) hpos.ne'
  have hlt := Int.emod_lt_of_pos (signedUnits x) hpos
  have hsub := rounded_sub hx hf
  have hexact : signedUnits x - signedUnits x / one * one = signedUnits x % one := by
    rw [Int.emod_def,mul_comm]
  rw [hfloor,hexact] at hsub
  have hfin : finite (x - floor x) = true :=
    hsub.finite_of_le finite_one (by rw [signedUnits_one]; omega)
  rw [le_iff finite_half hfin]
  -- Less than a half is not rounded. More may be, but not to less than a half, which is a double.
  rcases lt_or_ge (2 * (signedUnits x % one)) one with hlow | hhigh
  · rw [hsub.signedUnits_eq (isDouble_rest hx hlow)]
    omega
  · have := hsub.le_signedUnits finite_half (by omega) (by omega)
    exact iff_of_true this hhigh

/-- The whole number above a double with a fraction is a double. -/
theorem isDouble_next {x : Float} (h : signedUnits x % one ≠ 0) :
    IsDouble ((signedUnits x / one + 1) * one).natAbs := by
  have hpos := one_pos
  have hfraction : units (magnitude x) % one ≠ 0 := fun hzero =>
    h (Int.emod_eq_zero_of_dvd (one_dvd_signedUnits.mpr hzero))
  have hlt : ((signedUnits x).natAbs : ℤ) < binade * one := by
    rw [natAbs_signedUnits]
    exact_mod_cast units_lt hfraction
  have hlow : -(binade : ℤ) ≤ signedUnits x / one :=
    (Int.le_ediv_iff_mul_le hpos).mpr (by rw [neg_mul]; omega)
  have hhigh : signedUnits x / one < binade :=
    (Int.ediv_lt_iff_lt_mul hpos).mpr (by omega)
  rw [Int.natAbs_mul,Int.natAbs_natCast]
  exact IsDouble.mul_one (by omega)

/-- The nearest whole number, in units: no rounding is left. -/
theorem roundHalfUp_spec {x : Float} (hx : finite x = true) :
    finite (roundHalfUp x) = true ∧
      signedUnits (roundHalfUp x) = (2 * signedUnits x + one) / (2 * one : ℕ) * one := by
  obtain ⟨hf,hfloor⟩ := floor_spec hx
  have hpos := one_pos
  have hhalf := half_le_sub_floor hx
  have hdiv := Int.emod_def (signedUnits x) one
  have hrest := Int.emod_nonneg (signedUnits x) hpos.ne'
  have hlt := Int.emod_lt_of_pos (signedUnits x) hpos
  have hdouble {q r : ℤ} (hsum : r + (2 * one : ℕ) * q = 2 * signedUnits x + one) (hr : 0 ≤ r)
      (hlt : r < (2 * one : ℕ)) : (2 * signedUnits x + one) / (2 * one : ℕ) = q :=
    ((Int.ediv_emod_unique (by omega)).mpr ⟨hsum,hr,hlt⟩).1
  simp only [roundHalfUp]
  rcases lt_or_ge (2 * (signedUnits x % one)) one with hlow | hhigh
  · have hsum : 2 * (signedUnits x % one) + one + (2 * one : ℕ) * (signedUnits x / one) =
        2 * signedUnits x + one := by
      rw [hdiv]
      push_cast
      ring
    rw [if_neg (by rw [hhalf]; omega),hdouble hsum (by omega) (by omega)]
    exact ⟨hf,hfloor⟩
  · have hsum : 2 * (signedUnits x % one) - one + (2 * one : ℕ) * (signedUnits x / one + 1) =
        2 * signedUnits x + one := by
      rw [hdiv]
      push_cast
      ring
    have hnext : IsDouble (signedUnits (floor x) + signedUnits 1).natAbs := by
      rw [hfloor,signedUnits_one,← add_one_mul]
      exact isDouble_next (by omega)
    have hadd := rounded_add hf finite_one
    rw [if_pos (hhalf.mpr hhigh),hdouble hsum (by omega) (by omega),hadd.signedUnits_eq hnext,
      hfloor,signedUnits_one]
    exact ⟨hadd.finite_of_lt hnext.units_nearest.1,(add_one_mul _ _).symm⟩

section Rational
variable {x y : Float}

theorem le_iff_rational (hx : finite x = true) (hy : finite y = true) :
    x ≤ y ↔ rational x ≤ rational y := by
  have hpos : (0 : ℚ) < one := by exact_mod_cast one_pos
  rw [le_iff hx hy,rational,rational,div_le_div_iff_of_pos_right hpos,Int.cast_le]

theorem rational_eq_intCast {n : ℤ} : rational x = n ↔ signedUnits x = n * one := by
  have hpos : (one : ℚ) ≠ 0 := by exact_mod_cast one_pos.ne'
  rw [rational,div_eq_iff hpos]
  exact_mod_cast Iff.rfl

variable (hx : finite x = true)
include hx

theorem rational_floor : rational (floor x) = ⌊rational x⌋ := by
  rw [rational_eq_intCast,(floor_spec hx).2,rational,Rat.floor_intCast_div_natCast]

theorem rational_roundHalfUp : rational (roundHalfUp x) = ⌊rational x + 1 / 2⌋ := by
  have hpos : (one : ℚ) ≠ 0 := by exact_mod_cast one_pos.ne'
  have hhalf : rational x + 1 / 2 = (2 * signedUnits x + one : ℤ) / (2 * one : ℕ) := by
    rw [rational]
    push_cast
    field_simp
  rw [rational_eq_intCast,(roundHalfUp_spec hx).2,hhalf,Rat.floor_intCast_div_natCast]

/-- A whole number is its own nearest, also where it is -0. -/
theorem roundHalfUp_of_whole {n : ℤ} (h : rational x = n) : roundHalfUp x = x := by
  have hdvd : (one : ℤ) ∣ signedUnits x := ⟨n,by rw [rational_eq_intCast.mp h,mul_comm]⟩
  have hpos := one_pos
  have hhalf := half_le_sub_floor hx
  rw [Int.emod_eq_zero_of_dvd hdvd] at hhalf
  simp only [roundHalfUp]
  rw [if_neg (by rw [hhalf]; omega),floor_of_dvd hdvd]

end Rational

/-- The nearest whole number is computed exactly, whatever is rounded on the way: it is the floor of
the value and a half. So no whole number is nearer, a half goes up, whole numbers stay as they are
and the order is kept. -/
theorem roundHalfUp_exact {x : Float} (hx : finite x = true) :
    finite (roundHalfUp x) = true ∧
    rational (roundHalfUp x) = ⌊rational x + 1 / 2⌋ ∧
    (∀ n : ℤ, |rational (roundHalfUp x) - rational x| ≤ |n - rational x|) ∧
    (∀ n : ℤ, rational x = n + 1 / 2 → rational (roundHalfUp x) = n + 1) ∧
    (∀ n : ℤ, rational x = n → roundHalfUp x = x) ∧
    ∀ y, finite y = true → x ≤ y → roundHalfUp x ≤ roundHalfUp y := by
  refine ⟨(roundHalfUp_spec hx).1,rational_roundHalfUp hx,?nearest,?half,
    fun n => roundHalfUp_of_whole hx,?mono⟩
  case nearest =>
    intro n
    rw [rational_roundHalfUp hx,← round_eq,abs_sub_comm,abs_sub_comm (n : ℚ)]
    exact round_le (rational x) n
  case half =>
    intro n h
    have hsum : rational x + 1 / 2 = (n + 1 : ℤ) := by
      rw [h]
      push_cast
      ring
    rw [rational_roundHalfUp hx,hsum,Int.floor_intCast,Int.cast_add,Int.cast_one]
  case mono =>
    intro y hy h
    have hle := (le_iff_rational hx hy).mp h
    rw [le_iff_rational (roundHalfUp_spec hx).1 (roundHalfUp_spec hy).1,rational_roundHalfUp hx,
      rational_roundHalfUp hy,Int.cast_le]
    exact Int.floor_le_floor (by linarith)

/-- Half of a whole number, -2.5, goes up to -2, and stays below 3, which is whole. -/
theorem roundHalfUp_exact_negative :
    finite (-2.5) = true ∧ rational (-2.5) = (-3 : ℤ) + 1 / 2 ∧
    rational (roundHalfUp (-2.5)) = (-3 : ℤ) + 1 ∧
    finite 3 = true ∧ rational 3 = (3 : ℤ) ∧ roundHalfUp 3 = 3 ∧
    (-2.5 : Float) ≤ 3 ∧ roundHalfUp (-2.5) ≤ roundHalfUp 3 := by
  have hfinite : finite (-2.5) = true := by decide +kernel
  have hthree : finite 3 = true := by decide +kernel
  have hle : (-2.5 : Float) ≤ 3 := by decide +kernel
  have hunits : 2 * signedUnits (-2.5) = -5 * one := by decide +kernel
  have hhalf : rational (-2.5) = (-3 : ℤ) + 1 / 2 := by
    have hpos : (one : ℚ) ≠ 0 := by exact_mod_cast one_pos.ne'
    have hcast : 2 * (signedUnits (-2.5) : ℚ) = -5 * one := by exact_mod_cast hunits
    rw [rational,div_eq_iff hpos]
    push_cast
    linarith
  have hwhole : rational 3 = (3 : ℤ) := rational_eq_intCast.mpr (by decide +kernel)
  obtain ⟨-,-,-,hup,-,hmono⟩ := roundHalfUp_exact hfinite
  obtain ⟨-,-,-,-,hfix,-⟩ := roundHalfUp_exact hthree
  exact ⟨hfinite,hhalf,hup (-3) hhalf,hthree,hwhole,hfix 3 hwhole,hle,hmono 3 hthree hle⟩

/-- Here the sum with a half would be rounded to 1. -/
example : roundHalfUp 0.49999999999999994 = 0 := by decide +kernel

end Reckoner.Number
