import Mathlib
import Reckoner.Token.Literal

namespace Reckoner

namespace Number
open Float.Model (Format)
open Float.Model.UnpackedFloat

/-- Any bits are a sign, a binade and a place in the binade. -/
theorem exists_packComponents (b : BitVec Format.binary64.numBits) :
    ∃ s e m, b = packComponents Format.binary64 s e m :=
  ⟨_,_,_,(packComponents_unpackSign_unpackExponent_unpackMantissa b).symm⟩

section Bits
variable (s : Sign) (e : BitVec Format.binary64.exponentBits)
  (m : BitVec Format.binary64.mantissaBitsWithoutImplicit) {b : BitVec Format.binary64.numBits}

/-- Turning the sign of a double is turning the sign of its bits. -/
theorem neg_unpack_packComponents :
    (unpack Format.binary64 (packComponents Format.binary64 s e m)).neg =
      unpack Format.binary64 (packComponents Format.binary64 (-s) e m) := by
  simp only [unpack,unpackMantissa_packComponents,unpackExponent_packComponents,
    unpackSign_packComponents,Sign.ofBitVec_toBitVec]
  split
  · split <;> rfl
  · split
    · split <;> rfl
    · rfl

theorem isNaNBits_packComponents_neg :
    isNaNBits (packComponents Format.binary64 (-s) e m) =
      isNaNBits (packComponents Format.binary64 s e m) := by
  simp only [isNaNBits,unpackExponent_packComponents,unpackMantissa_packComponents]

theorem pack_neg_unpack :
    pack Format.binary64 (unpack Format.binary64 (packComponents Format.binary64 s e m)).neg =
      if isNaNBits (packComponents Format.binary64 s e m) then packedNaN Format.binary64
      else packComponents Format.binary64 (-s) e m := by
  rw [neg_unpack_packComponents,pack_unpack,isNaNBits_packComponents_neg]

theorem pack_neg_unpack_packedNaN :
    pack Format.binary64 (unpack Format.binary64 (packedNaN Format.binary64)).neg =
      packedNaN Format.binary64 := by
  rw [packedNaN,pack_neg_unpack,← packedNaN,isNaNBits_packedNaN,if_pos rfl]

/-- Turning the sign twice changes nothing. There is only one NaN, so it is kept too. -/
theorem pack_neg_unpack_twice (hb : Format.binary64.Valid b) :
    pack Format.binary64
      (unpack Format.binary64 (pack Format.binary64 (unpack Format.binary64 b).neg)).neg = b := by
  obtain ⟨s,e,m,rfl⟩ := exists_packComponents b
  rw [pack_neg_unpack]
  cases hn : isNaNBits (packComponents Format.binary64 s e m) with
  | true =>
    have hv := pack_unpack_of_valid hb
    rw [pack_unpack,hn,if_pos rfl] at hv
    rw [if_pos rfl,pack_neg_unpack_packedNaN,hv]
  | false =>
    have hs : - -s = s := by cases s <;> rfl
    rw [if_neg Bool.false_ne_true,pack_neg_unpack,isNaNBits_packComponents_neg,hn,
      if_neg Bool.false_ne_true,hs]

end Bits

theorem eq_of_toBits {x y : Float} (h : x.toBits = y.toBits) : x = y := by
  rw [← Float.ofBits_toBits x,← Float.ofBits_toBits y,h]

theorem neg_neg (x : Float) : -(-x) = x := by
  apply eq_of_toBits
  apply UInt64.toBitVec_inj.mp
  exact pack_neg_unpack_twice x.toModel.valid

theorem nearest_le (n d : Nat) : nearest n d ≤ infinite := Nat.min_le_left _ _

theorem toBits_ofBits (b : UInt64) :
    (Float.ofBits b).toBits.toBitVec =
      if @isNaNBits Format.binary64 b.toBitVec then packedNaN Format.binary64
      else b.toBitVec :=
  @pack_unpack Format.binary64 b.toBitVec (by decide)

theorem negative_signed_false {bits : Nat} (h : bits ≤ infinite) :
    negative (signed false bits) = false := by
  have hbits : bits < signBit := Nat.lt_of_le_of_lt h (by decide)
  have hword : (UInt64.ofNat bits).toNat = bits :=
    UInt64.toNat_ofNat_of_lt (Nat.lt_trans hbits (by decide))
  apply decide_eq_false
  rw [Nat.not_le,signed,if_neg Bool.false_ne_true,← UInt64.toNat_toBitVec,toBits_ofBits]
  split
  · decide
  · rw [UInt64.toNat_toBitVec,hword]
    exact hbits

end Number

namespace Literal

/-- Only a literal with a sign has a negative value. -/
theorem negative_of_value {l : Literal} (h : Number.negative l.value = true) :
    l.negative = true := by
  obtain ⟨n,ds,fs⟩ := l
  cases n with
  | true => rfl
  | false =>
    have hv := Number.negative_signed_false
      (Number.nearest_le ((Number.Decimal.ofDigits ds fs).digits * Number.one)
        (Number.tenTo (Number.Decimal.ofDigits ds fs).places))
    exact absurd (h.symm.trans hv) (by decide)

/-- Without its sign a literal is worth the opposite. -/
theorem neg_value (ds fs : List Char) : -value ⟨true,ds,fs⟩ = value ⟨false,ds,fs⟩ :=
  Number.neg_neg _

end Literal

end Reckoner
