import Reckoner.Proofs.Steps

namespace Reckoner.Number
open Float.Model (Format UnpackedFloat)
open Float.Model.UnpackedFloat

/-- A mantissa after it was shifted: `m / d`, and how what was lost of it compares with a half. -/
structure Shifted (m d : Nat) (em : ExtendedMantissa) : Prop where
  mantissa : em.mantissa = m / d
  roundBit : em.roundBit = true ↔ d ≤ 2 * (m % d)
  stickyBit : em.stickyBit = true ↔ 2 * (m % d) ≠ 0 ∧ 2 * (m % d) ≠ d

namespace Shifted
variable {m d : Nat} {em : ExtendedMantissa}

theorem shiftRightOne (hd : 0 < d) (h : Shifted m d em) : Shifted m (d * 2) em.shiftRightOne := by
  have hlt := Nat.mod_lt m hd
  have hmod : m % (d * 2) = m % d + d * (m / d % 2) := Nat.mod_mul
  have hbit := Nat.mod_two_eq_zero_or_one (m / d)
  refine ⟨?_,?_,?_⟩
  · simp [ExtendedMantissa.shiftRightOne,h.mantissa,Nat.div_div_eq_div_mul]
  · simp only [ExtendedMantissa.shiftRightOne,h.mantissa,bne_iff_ne]
    rcases hbit with hbit | hbit <;> rw [hmod,hbit] <;> omega
  · simp only [ExtendedMantissa.shiftRightOne,Bool.or_eq_true,h.roundBit,h.stickyBit]
    rcases hbit with hbit | hbit <;> rw [hmod,hbit] <;> omega

theorem shiftRight (m j : Nat) :
    Shifted m (2 ^ j) (ExtendedMantissa.ofMantissaAndAccuracy m .exact >>> j) := by
  induction j with
  | zero => exact ⟨by simp; rfl,by simp [Nat.mod_one]; rfl,by simp [Nat.mod_one]; rfl⟩
  | succ j ih => exact ih.shiftRightOne (Nat.two_pow_pos j)

/-- The two bits say all that rounding has to know. -/
theorem roundedMantissa (hd : 0 < d) (h : Shifted m d em) :
    em.roundedMantissa = divNearest m d := by
  obtain ⟨q,r,s⟩ := em
  obtain ⟨hq,hr,hs⟩ := h
  dsimp only at hq hr hs
  cases r <;> cases s <;>
    simp only [Bool.false_eq_true,false_iff,true_iff,not_le] at hr hs <;>
    simp only [ExtendedMantissa.roundedMantissa,ExtendedMantissa.accuracy,
      Accuracy.roundToNearestEven,divNearest,hq] <;>
    split <;> (try split) <;> omega

end Shifted

/-- The double of a sign and a number of steps. -/
def ofSteps (s : Sign) (e m : Nat) : UnpackedFloat :=
  if h : m = 0 then .zero s else .finite s m (e - 1074) (Nat.pos_of_ne_zero h)

theorem finite_eq_ofSteps (s : Sign) {e m m' : Nat} {k : ℤ} {h : 0 < m'} (hm : m' = m)
    (hk : k = e - 1074) : .finite s m' k h = ofSteps s e m := by
  subst hm hk
  rw [ofSteps,dif_neg h.ne']

section Grid
variable {m : Nat} (hm : m ≠ 0) (k : Nat)
include hm

/-- The step that a number of units is rounded to. -/
theorem targetExponent_eq :
    Format.binary64.targetExponent (Float.Model.totalExponent m (k - 1074)) =
      doublings (m <<< k) - 1074 := by
  have hmin : Format.binary64.minExponent = -1074 := by decide
  have hbits : (Format.binary64.mantissaBits : ℤ) = 53 := by decide
  rw [Format.targetExponent,Float.Model.totalExponent,hmin,hbits,doublings,log2_shiftLeft hm]
  omega

theorem shiftToTargetExponent_eq (hk : k ≤ doublings (m <<< k)) :
    shiftToTargetExponent Format.binary64 m (k - 1074) .exact =
      (ExtendedMantissa.ofMantissaAndAccuracy m .exact >>> (doublings (m <<< k) - k),
        (doublings (m <<< k) : ℤ) - 1074) := by
  have hshift :
      ((doublings (m <<< k) - 1074 : ℤ) - (k - 1074)).toNat = doublings (m <<< k) - k := by
    omega
  rw [shiftToTargetExponent,targetExponent_eq hm,shiftToExponent,hshift]
  congr 1
  omega

end Grid

/-- Rounding up to the first step of the next binade moves the double there. -/
theorem exists_carry {e r : Nat} (hr : r ≤ 2 * binade) (he : e = 0 ∨ binade ≤ r) :
    ∃ e' m, InBinade e' m ∧ e' * binade + m = e * binade + r ∧
      (shiftToTargetExponent Format.binary64 r (e - 1074) .exact).1.mantissa = m ∧
      (shiftToTargetExponent Format.binary64 r (e - 1074) .exact).2 = e' - 1074 := by
  by_cases h0 : r = 0
  · subst h0
    have : e = 0 := he.resolve_right (by decide)
    subst this
    exact ⟨0,0,⟨by decide,.inl rfl⟩,rfl,by decide,by decide⟩
  · rcases Nat.lt_or_eq_of_le hr with hlt | rfl
    · have hstay : doublings (r <<< e) = e := log2_steps hlt he
      have hshift := shiftToTargetExponent_eq h0 e hstay.ge
      refine ⟨e,r,⟨hlt,he⟩,rfl,?_⟩
      rw [hshift,hstay,(Shifted.shiftRight r (e - e)).mantissa,Nat.sub_self]
      exact ⟨Nat.div_one r,rfl⟩
    · have hnext : doublings ((2 * binade) <<< e) = e + 1 := by
        have hlog : Nat.log2 (2 * binade) = 53 := by decide +kernel
        rw [doublings,log2_shiftLeft h0,hlog]
        omega
      have hshift := shiftToTargetExponent_eq h0 e (by omega)
      refine ⟨e + 1,binade,⟨by decide,.inr le_rfl⟩,by rw [Nat.succ_mul]; omega,?_⟩
      rw [hshift,hnext,(Shifted.shiftRight _ (e + 1 - e)).mantissa,Nat.add_sub_cancel_left]
      exact ⟨by decide,rfl⟩

def RoundsTo (n : Nat) (s : Sign) (f : UnpackedFloat) : Prop :=
  ∃ e m, InBinade e m ∧ min infinite (e * binade + m) = nearest n 1 ∧ f = ofSteps s e m

theorem roundsTo_roundWithAccuracy (s : Sign) {m k : Nat} (hm : m ≠ 0)
    (hk : k ≤ doublings (m <<< k)) :
    RoundsTo (m <<< k) s (roundWithAccuracy Format.binary64 s m (k - 1074) .exact) := by
  have hrounded : (ExtendedMantissa.ofMantissaAndAccuracy m .exact >>>
      (doublings (m <<< k) - k)).roundedMantissa =
        divNearest (m <<< k) (1 <<< doublings (m <<< k)) := by
    rw [(Shifted.shiftRight m _).roundedMantissa (Nat.two_pow_pos _),
      ← divNearest_scale _ _ (Nat.two_pow_pos k),← Nat.pow_add,Nat.sub_add_cancel hk,
      Nat.shiftLeft_eq,Nat.one_shiftLeft]
  obtain ⟨hle,hfull⟩ := divNearest_doublings (m <<< k)
  obtain ⟨e,r,hr,hbits,hfst,hsnd⟩ := exists_carry hle hfull
  refine ⟨e,r,hr,by rw [nearest_one,hbits],?_⟩
  rw [roundWithAccuracy,shiftToTargetExponent_eq hm k hk]
  simp only [hrounded,hfst,hsnd,ofSteps]

theorem roundsTo_round (s : Sign) {m : Nat} (hm : m ≠ 0) (k : Nat) :
    RoundsTo (m <<< k) s (UnpackedFloat.round Format.binary64 s m (k - 1074)) := by
  -- Steps that are too wide are made finer first, which is exact.
  obtain ⟨j,hj⟩ : ∃ j, k - doublings (m <<< k) = j := ⟨_,rfl⟩
  have hdown : ((k - 1074 : ℤ) - (doublings (m <<< k) - 1074)).toNat = j := by omega
  have hexp : (k - 1074 : ℤ) - j = (k - j : ℕ) - 1074 := by omega
  have hsame : (m <<< j) <<< (k - j) = m <<< k := by
    rw [← Nat.shiftLeft_add]
    congr 1
    omega
  have hne : m <<< j ≠ 0 := by simp [Nat.shiftLeft_eq,hm]
  have h : RoundsTo ((m <<< j) <<< (k - j)) s
      (roundWithAccuracy Format.binary64 s (m <<< j) ((k - j : ℕ) - 1074) .exact) :=
    roundsTo_roundWithAccuracy s hne (by rw [hsame]; omega)
  rw [hsame] at h
  simpa only [UnpackedFloat.round,decreaseExponent,targetExponent_eq hm,hdown,hexp] using h

/-- A sum of units, in steps of `k` doublings, is rounded once. Its sign is that of the sum. -/
theorem roundsTo_normalize {z : ℤ} (hz : z ≠ 0) (k : Nat) (zs : Sign) :
    RoundsTo (z.natAbs <<< k) (signOf (decide (z < 0)))
      (UnpackedFloat.normalize Format.binary64 z (k - 1074) zs) := by
  have hne : z.natAbs ≠ 0 := Int.natAbs_ne_zero.mpr hz
  rcases lt_or_gt_of_ne hz with hlt | hgt
  · have habs : (-z).toNat = z.natAbs := by omega
    simpa [UnpackedFloat.normalize,compare_lt_iff_lt.mpr hlt,habs,hlt,signOf] using
      roundsTo_round .negative hne k
  · have habs : z.toNat = z.natAbs := by omega
    simpa [UnpackedFloat.normalize,compare_gt_iff_gt.mpr hgt,habs,not_lt.mpr hgt.le,signOf] using
      roundsTo_round .positive hne k

/-- `f` is a number of units, rounded. Zero may have either sign. -/
def IsRounded (z : ℤ) (f : UnpackedFloat) : Prop :=
  ∃ s, RoundsTo z.natAbs s f ∧ (z ≠ 0 → s = signOf (decide (z < 0)))

section Units
variable (s : Sign) (n : Nat)

@[simp] theorem natAbs_apply : (s.apply n).natAbs = n := by cases s <;> simp [Sign.apply]

@[simp] theorem apply_zero : s.apply 0 = 0 := by cases s <;> rfl

theorem signOf_apply (h : s.apply n ≠ 0) : signOf (decide (s.apply n < 0)) = s := by
  cases s with
  | positive =>
    have hn : ¬(n : ℤ) < 0 := by omega
    simp [Sign.apply,signOf,hn]
  | negative =>
    have hn : 0 < n := by simpa [Sign.apply,Nat.pos_iff_ne_zero] using h
    simp [Sign.apply,signOf,hn]

theorem isRounded_zero : IsRounded 0 (.zero s) :=
  ⟨s,⟨0,0,⟨by decide,.inl rfl⟩,by decide,rfl⟩,fun h => absurd rfl h⟩

end Units

theorem isRounded_normalize (z : ℤ) (k : Nat) :
    IsRounded (z * 2 ^ k) (UnpackedFloat.normalize Format.binary64 z (k - 1074) .positive) := by
  by_cases hz : z = 0
  · subst hz
    simpa [UnpackedFloat.normalize] using isRounded_zero .positive
  · have hpow : (0 : ℤ) < 2 ^ k := by positivity
    have hunits : (z * 2 ^ k).natAbs = z.natAbs <<< k := by
      simp [Int.natAbs_mul,Int.natAbs_pow,Nat.shiftLeft_eq]
    refine ⟨signOf (decide (z < 0)),?_,fun _ => by simp [mul_neg_iff,hpow,hpow.not_gt]⟩
    exact hunits ▸ roundsTo_normalize hz k .positive

/-- What is a finite double already is not changed. -/
theorem isRounded_ofSteps (s : Sign) {e m : Nat} (h : InBinade e m)
    (hlt : e * binade + m < infinite) : IsRounded (s.apply (m <<< e : ℕ)) (ofSteps s e m) := by
  refine ⟨s,⟨e,m,h,?_,rfl⟩,fun hne => (signOf_apply s _ hne).symm⟩
  rw [natAbs_apply,min_eq_right hlt.le,← h.units_eq,nearest_units_one hlt.le]

theorem apply_shiftLeft (s : Sign) (m : Nat) {k e : Nat} (h : k ≤ e) :
    s.apply (m <<< e : ℕ) = s.apply (m <<< (e - k) : ℕ) * 2 ^ k := by
  have hfine : m <<< e = m <<< (e - k) * 2 ^ k := by
    rw [← Nat.shiftLeft_eq,← Nat.shiftLeft_add,Nat.sub_add_cancel h]
  cases s <;> simp [Sign.apply,hfine]

/-- Steps are added as steps of the finer of the two. -/
theorem add_ofSteps (s s' : Sign) (e e' : Nat) {m m' : Nat} (hm : m ≠ 0) (hm' : m' ≠ 0) :
    UnpackedFloat.add Format.binary64 (ofSteps s e m) (ofSteps s' e' m') =
      UnpackedFloat.normalize Format.binary64
        (s.apply (m <<< (e - min e e') : ℕ) + s'.apply (m' <<< (e' - min e e') : ℕ))
        ((min e e' : ℕ) - 1074) .positive := by
  have hmin : min ((e : ℤ) - 1074) (e' - 1074) = (min e e' : ℕ) - 1074 := by omega
  have he : ((e : ℤ) - 1074 - ((min e e' : ℕ) - 1074)).toNat = e - min e e' := by omega
  have he' : ((e' : ℤ) - 1074 - ((min e e' : ℕ) - 1074)).toNat = e' - min e e' := by omega
  simp only [ofSteps,hm,hm',dif_neg,not_false_eq_true,UnpackedFloat.add,decreaseExponent,hmin,he,
    he']

/-- The sum of two doubles is the sum of their units, rounded. -/
theorem isRounded_add (s s' : Sign) {e m e' m' : Nat} (h : InBinade e m) (h' : InBinade e' m')
    (hlt : e * binade + m < infinite) (hlt' : e' * binade + m' < infinite) :
    IsRounded (s.apply (m <<< e : ℕ) + s'.apply (m' <<< e' : ℕ))
      (UnpackedFloat.add Format.binary64 (ofSteps s e m) (ofSteps s' e' m')) := by
  by_cases hm : m = 0
  · subst hm
    simp only [Nat.zero_shiftLeft,Nat.cast_zero,apply_zero,zero_add]
    by_cases hm' : m' = 0
    · subst hm'
      simp only [Nat.zero_shiftLeft,Nat.cast_zero,apply_zero,ofSteps,dif_pos,UnpackedFloat.add]
      split
      · exact isRounded_zero _
      · exact isRounded_zero _
    · have hadd : UnpackedFloat.add Format.binary64 (ofSteps s e 0) (ofSteps s' e' m') =
          ofSteps s' e' m' := by
        simp [UnpackedFloat.add,ofSteps,hm']
      rw [hadd]
      exact isRounded_ofSteps s' h' hlt'
  by_cases hm' : m' = 0
  · subst hm'
    have hadd : UnpackedFloat.add Format.binary64 (ofSteps s e m) (ofSteps s' e' 0) =
        ofSteps s e m := by
      simp [UnpackedFloat.add,ofSteps,hm]
    simp only [hadd,Nat.zero_shiftLeft,Nat.cast_zero,apply_zero,add_zero]
    exact isRounded_ofSteps s h hlt
  rw [add_ofSteps s s' e e' hm hm',apply_shiftLeft s m (min_le_left e e'),
    apply_shiftLeft s' m' (min_le_right e e'),← add_mul]
  exact isRounded_normalize _ _

theorem toNat_packComponents_ofNat (s : Sign) {e m : Nat} (he : e < 2 ^ 11) :
    (packComponents Format.binary64 s (BitVec.ofNat _ e) (BitVec.ofNat _ m)).toNat =
      s.toBitVec.toNat * signBit + (e * binade + m % binade) := by
  have hm : (BitVec.ofNat 52 m).toNat = m % binade := by
    rw [BitVec.toNat_ofNat]
    rfl
  have he : (BitVec.ofNat 11 e).toNat = e := by rw [BitVec.toNat_ofNat,Nat.mod_eq_of_lt he]
  rw [toNat_packComponents,hm,he]

/-- Packing puts a double of too many steps at infinity. -/
theorem toNat_pack_ofSteps (s : Sign) {e m : Nat} (h : InBinade e m) :
    (pack Format.binary64 (ofSteps s e m)).toNat =
      s.toBitVec.toNat * signBit + min infinite (e * binade + m) := by
  have hlt := h.lt
  have hb : binade = 2 ^ 52 := by decide
  by_cases hm : m = 0
  · subst hm
    have he : e = 0 := h.full.resolve_right (by decide)
    subst he
    simp [ofSteps,pack,packedZero,toNat_packComponents]
  have hexp : ((e : ℤ) - 1074 + Format.binary64.exponentBias +
      Format.binary64.mantissaBitsWithoutImplicit).toNat = e + 1 := by
    have hbias : (Format.binary64.exponentBias : ℤ) = 1023 := by decide
    simp only [hbias]
    omega
  have hbits : Format.binary64.mantissaBits = 53 := by decide
  simp only [ofSteps,hm,dif_neg,not_false_eq_true,pack,hexp,hbits]
  by_cases htop : 2046 ≤ e
  · have hle : 2046 * binade ≤ e * binade := Nat.mul_le_mul_right _ htop
    have hmin : infinite ≤ e * binade + m := by
      have hfull := h.full
      rw [infinite]
      omega
    have hall : (-1#11).toNat = 2047 := by decide
    rw [if_pos (by omega),packedInfinity,toNat_packComponents,min_eq_left hmin,hall,infinite]
    rfl
  rw [if_neg (by omega),min_eq_right (h.lt_infinite (by omega)).le]
  by_cases hlow : m < binade
  · have he : e = 0 := h.full.resolve_right (by omega)
    have hlog : Nat.log2 m < 52 := (Nat.log2_lt hm).mpr (hb ▸ hlow)
    have hpack := @toNat_packComponents_ofNat s 0 m (by decide)
    rw [Nat.mod_eq_of_lt hlow] at hpack
    rw [if_neg (by omega),he]
    exact hpack
  · have hlog : Nat.log2 m = 52 := (Nat.log2_eq_iff hm).mpr (by omega)
    have hrest : m % binade = m - binade := by
      rw [Nat.mod_eq_sub_mod (by omega),Nat.mod_eq_of_lt (by omega)]
    rw [if_pos (by omega),toNat_packComponents_ofNat s (by omega),hrest,Nat.succ_mul]
    omega

theorem exists_unpack {x : Float} (hf : finite x = true) :
    ∃ e m, InBinade e m ∧ e * binade + m = magnitude x ∧
      unpack Format.binary64 x.toBits.toBitVec = ofSteps (signOf (negative x)) e m := by
  obtain ⟨e,m,hb,hmag⟩ := exists_components x
  have hlt : e.toNat * binade + m.toNat < infinite := hmag ▸ of_decide_eq_true hf
  have hm : m.toNat < binade := m.isLt
  have hbias : (Format.binary64.exponentBias : ℤ) = 1023 := by decide
  have htop : e ≠ -1#11 := by
    rintro rfl
    have hall : (-1#11).toNat = 2047 := by decide
    rw [hall,infinite] at hlt
    omega
  rw [hb]
  simp only [unpack,unpackExponent_packComponents,unpackMantissa_packComponents,
    unpackSign_packComponents,Sign.ofBitVec_toBitVec,if_neg htop,hbias]
  by_cases he : e = 0#11
  · subst he
    refine ⟨0,m.toNat,⟨by omega,.inl rfl⟩,by simpa using hmag.symm,?_⟩
    rw [if_pos rfl]
    split
    · rename_i h0
      subst h0
      rfl
    · exact finite_eq_ofSteps _ rfl (by decide)
  · have hpos : e.toNat ≠ 0 := fun h0 => he (BitVec.eq_of_toNat_eq h0)
    refine ⟨e.toNat - 1,binade + m.toNat,⟨by omega,.inr (by omega)⟩,?_,?_⟩
    · have hsplit : e.toNat * binade = (e.toNat - 1) * binade + binade := by
        rw [← Nat.succ_mul]
        congr 1
        omega
      omega
    · have hfirst : (1#1 ++ m).toNat = binade + m.toNat := by
        rw [BitVec.toNat_append,← Nat.shiftLeft_add_eq_or_of_lt m.isLt]
        rfl
      rw [if_neg he]
      exact finite_eq_ofSteps _ hfirst (by push_cast; omega)

/-- A finite double in units, with its sign. -/
def signedUnits (x : Float) : ℤ := (signOf (negative x)).apply (units (magnitude x))

/-- `x` is the double nearest to `z` units. -/
structure Rounded (x : Float) (z : ℤ) : Prop where
  magnitude : magnitude x = nearest z.natAbs 1
  negative : z ≠ 0 → negative x = decide (z < 0)

theorem rounded_of_isRounded {x : Float} {z : ℤ} {f : UnpackedFloat} (h : IsRounded z f)
    (hx : x.toBits.toBitVec = pack Format.binary64 f) : Rounded x z := by
  obtain ⟨s,⟨e,m,hm,hmin,rfl⟩,hs⟩ := h
  obtain ⟨b,rfl⟩ := signOf_surjective s
  have hlt : nearest z.natAbs 1 < signBit := (nearest_le _ _).trans_lt (by decide)
  have hbits : x.toBits.toNat = b.toNat * signBit + nearest z.natAbs 1 := by
    rw [← UInt64.toNat_toBitVec,hx,toNat_pack_ofSteps _ hm,toNat_signOf,hmin]
  refine ⟨magnitude_eq hlt hbits,fun hz => ?_⟩
  rw [negative_eq hlt hbits]
  exact signOf_injective (hs hz)

namespace Rounded
variable {x : Float} {z : ℤ} (h : Rounded x z)
include h

theorem finite_of_lt (hz : nearest z.natAbs 1 < infinite) : finite x = true :=
  decide_eq_true (h.magnitude.trans_lt hz)

theorem signedUnits_eq_sign_mul : signedUnits x = z.sign * units (nearest z.natAbs 1) := by
  rw [signedUnits,h.magnitude]
  rcases lt_trichotomy z 0 with hlt | rfl | hgt
  · simp [h.negative hlt.ne,hlt,signOf,Sign.apply,Int.sign_eq_neg_one_of_neg hlt]
  · have hnone : units (nearest 0 1) = 0 := by decide
    simp [hnone]
  · simp [h.negative hgt.ne',hgt.not_gt,signOf,Sign.apply,Int.sign_eq_one_of_pos hgt]

/-- What is a double already is not rounded. -/
theorem signedUnits_eq (hz : IsDouble z.natAbs) : signedUnits x = z := by
  rw [h.signedUnits_eq_sign_mul,hz.units_nearest.2,Int.sign_mul_natAbs]

/-- No double is nearer to what was rounded. -/
theorem abs_sub_le {y : Float} (hx : finite x = true) (hy : finite y = true) :
    |signedUnits x - z| ≤ |signedUnits y - z| := by
  have hmag : nearest z.natAbs 1 < infinite := h.magnitude ▸ of_decide_eq_true hx
  have hspec := (nearest_spec z.natAbs hmag (of_decide_eq_true hy)).1
  have hother : (signedUnits y).natAbs = units (Number.magnitude y) := natAbs_apply _ _
  rw [h.signedUnits_eq_sign_mul]
  simp only [Int.abs_eq_natAbs,Nat.cast_le] at hspec ⊢
  rcases lt_trichotomy z 0 with hlt | rfl | hgt
  · rw [Int.sign_eq_neg_one_of_neg hlt]
    omega
  · simp
  · rw [Int.sign_eq_one_of_pos hgt]
    omega

end Rounded

theorem exists_ofSteps {x : Float} (hf : finite x = true) :
    ∃ s e m, InBinade e m ∧ e * binade + m < infinite ∧
      unpack Format.binary64 x.toBits.toBitVec = ofSteps s e m ∧
      signedUnits x = s.apply (m <<< e : ℕ) := by
  obtain ⟨e,m,hm,hbits,hu⟩ := exists_unpack hf
  refine ⟨_,e,m,hm,hbits ▸ of_decide_eq_true hf,hu,?_⟩
  rw [signedUnits,← hbits,hm.units_eq]

theorem sub_ofSteps (s s' : Sign) (e m e' m' : Nat) :
    UnpackedFloat.sub Format.binary64 (ofSteps s e m) (ofSteps s' e' m') =
      UnpackedFloat.add Format.binary64 (ofSteps s e m) (ofSteps (-s') e' m') := by
  simp only [ofSteps]
  split <;> split <;> (try rfl)
  cases s' with
  | negative =>
    simp only [UnpackedFloat.sub,UnpackedFloat.add,Sign.apply,sub_neg_eq_add]
  | positive => rfl

theorem apply_neg (s : Sign) (n : ℤ) : (-s).apply n = -s.apply n := by
  cases s
  · exact (Int.neg_neg n).symm
  · rfl

section Operations
variable {x y : Float} (hx : finite x = true) (hy : finite y = true)
include hx hy

/-- The sum of two doubles is the double nearest to their exact sum. -/
theorem rounded_add : Rounded (x + y) (signedUnits x + signedUnits y) := by
  obtain ⟨s,e,m,hm,hlt,hu,hz⟩ := exists_ofSteps hx
  obtain ⟨s',e',m',hm',hlt',hu',hz'⟩ := exists_ofSteps hy
  rw [hz,hz']
  refine rounded_of_isRounded (isRounded_add s s' hm hm' hlt hlt') ?_
  rw [← hu,← hu']
  rfl

/-- The difference of two doubles is the double nearest to their exact difference. -/
theorem rounded_sub : Rounded (x - y) (signedUnits x - signedUnits y) := by
  obtain ⟨s,e,m,hm,hlt,hu,hz⟩ := exists_ofSteps hx
  obtain ⟨s',e',m',hm',hlt',hu',hz'⟩ := exists_ofSteps hy
  rw [hz,hz',sub_eq_add_neg,← apply_neg]
  refine rounded_of_isRounded (isRounded_add s (-s') hm hm' hlt hlt') ?_
  rw [← sub_ofSteps,← hu,← hu']
  rfl

end Operations

theorem compare_congr {α β : Type} [LinearOrder α] [LinearOrder β] {a b : α} {c d : β}
    (hlt : a < b ↔ c < d) (hgt : b < a ↔ d < c) : compare a b = compare c d := by
  rcases lt_trichotomy a b with h | h | h
  · rw [compare_lt_iff_lt.mpr h,compare_lt_iff_lt.mpr (hlt.mp h)]
  · have hcd : c = d :=
      le_antisymm (not_lt.mp (hgt.not.mp h.not_gt)) (not_lt.mp (hlt.not.mp h.not_lt))
    rw [compare_eq_iff_eq.mpr h,compare_eq_iff_eq.mpr hcd]
  · rw [compare_gt_iff_gt.mpr h,compare_gt_iff_gt.mpr (hgt.mp h)]

namespace InBinade
variable {e m e' m' : Nat} (h : InBinade e m) (h' : InBinade e' m')
include h h'

/-- All of a binade is below the next. -/
theorem shiftLeft_lt_shiftLeft (hlt : e < e') : m <<< e < m' <<< e' := by
  have hfull : binade ≤ m' := h'.full.resolve_left (by omega)
  refine (h.shiftLeft_lt hlt).trans_le ?_
  rw [Nat.shiftLeft_eq,Nat.shiftLeft_eq]
  exact Nat.mul_le_mul_right _ hfull

/-- Doubles are compared by their binades first. -/
theorem compare_then : (compare ((e : ℤ) - 1074) (e' - 1074)).then (compare m m') =
    compare (m <<< e) (m' <<< e') := by
  rcases Nat.lt_trichotomy e e' with hlt | rfl | hgt
  · rw [compare_lt_iff_lt.mpr (by omega),compare_lt_iff_lt.mpr (h.shiftLeft_lt_shiftLeft h' hlt)]
    rfl
  · rw [compare_eq_iff_eq.mpr rfl,Ordering.then,Nat.shiftLeft_eq,Nat.shiftLeft_eq]
    have hpow := Nat.two_pow_pos e
    exact compare_congr (Nat.mul_lt_mul_right hpow).symm (Nat.mul_lt_mul_right hpow).symm
  · rw [compare_gt_iff_gt.mpr (by omega),compare_gt_iff_gt.mpr (h'.shiftLeft_lt_shiftLeft h hgt)]
    rfl

/-- Unpacked doubles are in the order of their units. -/
theorem compare_ofSteps (s s' : Sign) : (ofSteps s e m).compare (ofSteps s' e' m') =
    some (compare (s.apply (m <<< e : ℕ)) (s'.apply (m' <<< e' : ℕ))) := by
  have hthen := h.compare_then h'
  have hn : 0 < m <<< e ↔ m ≠ 0 := by simp [Nat.shiftLeft_eq,Nat.pos_iff_ne_zero]
  have hn' : 0 < m' <<< e' ↔ m' ≠ 0 := by simp [Nat.shiftLeft_eq,Nat.pos_iff_ne_zero]
  generalize m <<< e = n at hthen hn ⊢
  generalize m' <<< e' = n' at hthen hn' ⊢
  by_cases hm : m = 0 <;> by_cases hm' : m' = 0 <;>
    simp only [ofSteps,hm,hm',dif_pos,dif_neg,not_false_eq_true]
  · have hzero : n = 0 := by omega
    have hzero' : n' = 0 := by omega
    simp [hzero,hzero',UnpackedFloat.compare]
  · have hzero : n = 0 := by omega
    rw [hzero,Nat.cast_zero,apply_zero]
    cases s' <;> simp only [UnpackedFloat.compare,Sign.apply]
    · exact congrArg some (compare_gt_iff_gt.mpr (by omega)).symm
    · exact congrArg some (compare_lt_iff_lt.mpr (by omega)).symm
  · have hzero : n' = 0 := by omega
    rw [hzero,Nat.cast_zero,apply_zero]
    cases s <;> simp only [UnpackedFloat.compare,Sign.apply]
    · exact congrArg some (compare_lt_iff_lt.mpr (by omega)).symm
    · exact congrArg some (compare_gt_iff_gt.mpr (by omega)).symm
  · cases s <;> cases s' <;> simp only [UnpackedFloat.compare,Sign.apply,hthen]
    · rw [Nat.compare_swap]
      exact congrArg some (compare_congr (by omega) (by omega))
    · exact congrArg some (compare_lt_iff_lt.mpr (by omega)).symm
    · exact congrArg some (compare_gt_iff_gt.mpr (by omega)).symm
    · exact congrArg some (compare_congr (by omega) (by omega))

end InBinade

/-- Doubles are in the order of their units. -/
theorem le_iff {x y : Float} (hx : finite x = true) (hy : finite y = true) :
    x ≤ y ↔ signedUnits x ≤ signedUnits y := by
  obtain ⟨s,e,m,hm,-,hu,hz⟩ := exists_ofSteps hx
  obtain ⟨s',e',m',hm',-,hu',hz'⟩ := exists_ofSteps hy
  have hle : x ≤ y ↔ UnpackedFloat.le (unpack Format.binary64 x.toBits.toBitVec)
      (unpack Format.binary64 y.toBits.toBitVec) = true := decide_eq_true_iff
  rw [hle,hu,hu',UnpackedFloat.le,hm.compare_ofSteps hm',hz,hz',Option.any_some,Std.isLE_compare]

end Reckoner.Number
