import Reckoner.Proofs.Negation
import Reckoner.Proofs.Spelling
import Reckoner.Number.Shortest

namespace Reckoner

namespace Number
open Float.Model (Format)
open Float.Model.UnpackedFloat

/-- In its binade a magnitude is a number of steps, of 53 bits unless it is in the lowest. -/
theorem exists_steps (bits : Nat) :
    ∃ e m, units bits = m <<< e ∧ e * binade + m = bits ∧ m < 2 * binade ∧
      (e = 0 ∨ binade ≤ m) := by
  have hpos : 0 < binade := by decide
  have hdiv := Nat.div_add_mod bits binade
  have hmod := Nat.mod_lt bits hpos
  refine ⟨bits / binade - 1,bits - (bits / binade - 1) * binade,rfl,?_⟩
  cases hq : bits / binade with
  | zero =>
    rw [hq,Nat.mul_zero] at hdiv
    simp only [Nat.zero_sub,Nat.zero_mul,Nat.sub_zero,Nat.zero_add,true_or,and_true,true_and]
    omega
  | succ q =>
    rw [hq,Nat.mul_comm,Nat.succ_mul] at hdiv
    rw [Nat.add_sub_cancel]
    omega

theorem log2_shiftLeft {m : Nat} (hm : m ≠ 0) (e : Nat) : Nat.log2 (m <<< e) = Nat.log2 m + e := by
  induction e with
  | zero => rfl
  | succ e ih =>
    have hne : m <<< e ≠ 0 := by simp [Nat.shiftLeft_eq,hm]
    rw [Nat.shiftLeft_succ,Nat.log2_two_mul hne,ih,Nat.add_assoc]

theorem log2_steps {e m : Nat} (hm : m < 2 * binade) (h : e = 0 ∨ binade ≤ m) :
    Nat.log2 (m <<< e) - 52 = e := by
  have hb : binade = 2 ^ 52 := by decide
  by_cases h0 : m = 0
  · subst h0
    have he : e = 0 := h.resolve_right (by decide)
    subst he
    decide
  · have hlt : Nat.log2 m < 53 := (Nat.log2_lt h0).mpr (by omega)
    have hle : e = 0 ∨ 52 ≤ Nat.log2 m := h.imp_right fun hm => (Nat.le_log2 h0).mpr (hb ▸ hm)
    rw [log2_shiftLeft h0]
    omega

theorem divNearest_mul (q : Nat) {d : Nat} (hd : 0 < d) : divNearest (q * d) d = q := by
  simp only [divNearest,Nat.mul_mod_left,Nat.mul_zero,hd,if_true,Nat.mul_div_cancel _ hd]

/-- Rounding is exact on what is a double already. -/
theorem nearest_units {bits k : Nat} (h : bits ≤ infinite) (hk : 0 < k) :
    nearest (units bits * k) k = bits := by
  obtain ⟨e,m,hu,hbits,hm,he⟩ := exists_steps bits
  have hsteps : m <<< e * k = m * (k <<< e) := by
    rw [Nat.shiftLeft_eq,Nat.shiftLeft_eq]
    ring
  have hwide : 0 < k <<< e := by
    rw [Nat.shiftLeft_eq]
    exact Nat.mul_pos hk (Nat.two_pow_pos e)
  rw [nearest,Nat.mul_div_cancel _ hk,hu,log2_steps hm he,hsteps,divNearest_mul m hwide,hbits,
    Nat.min_eq_right h]

theorem tenTo_pos (n : Nat) : 0 < tenTo n := Nat.pow_pos (by decide)

theorem fine_mul_one : fine * one = tenTo 1074 := by decide +kernel

/-- On the finest grid the double is a point, which reads back as the double. -/
theorem nearest_gridPoint_zero {bits : Nat} (h : bits ≤ infinite) :
    (gridPoint 0 (units bits * fine)).nearest = bits := by
  have hdigits : units bits * fine * tenTo (0 - 1074) * one = units bits * tenTo 1074 := by
    rw [Nat.zero_sub,show tenTo 0 = 1 from rfl,Nat.mul_one,Nat.mul_assoc,fine_mul_one]
  have hpoint : (gridPoint 0 (units bits * fine)).nearest =
      Number.nearest (units bits * fine * tenTo (0 - 1074) * one) (tenTo 1074) := rfl
  rw [hpoint,hdigits]
  exact nearest_units h (tenTo_pos 1074)

theorem nearest_searchGrids {bits : Nat} (h : bits ≤ infinite) (j : Nat) :
    (searchGrids bits (units bits * fine) j).nearest = bits := by
  induction j with
  | zero => exact nearest_gridPoint_zero h
  | succ j ih =>
    rw [searchGrids]
    cases hn : neighbour? bits (units bits * fine) (j + 1) with
    | none => exact ih
    | some d => exact nearest_of_neighbour? hn

/-- The shortest decimal of a double reads back as the double, since the search ends on the finest
grid at the latest. -/
theorem nearest_shortest {bits : Nat} (h : bits ≤ infinite) : (shortest bits).nearest = bits := by
  unfold shortest
  split
  · rename_i h0
    subst h0
    decide
  · exact nearest_searchGrids h _

theorem signed_magnitude {x : Float} (h : negative x = false) : signed false (magnitude x) = x := by
  have hlt : x.toBits.toNat < signBit := Nat.lt_of_not_le (of_decide_eq_false h)
  rw [signed,if_neg Bool.false_ne_true,magnitude,Nat.mod_eq_of_lt hlt,UInt64.ofNat_toNat,
    Float.ofBits_toBits]

/-- The bits of a double are its sign, its binade and its place in the binade, in this order. -/
theorem toNat_packComponents (s : Sign) (e : BitVec Format.binary64.exponentBits)
    (m : BitVec Format.binary64.mantissaBitsWithoutImplicit) :
    (packComponents Format.binary64 s e m).toNat =
      s.toBitVec.toNat * signBit + (e.toNat * binade + m.toNat) := by
  have hm : m.toNat < 2 ^ 52 := m.isLt
  have he : e.toNat < 2 ^ 11 := e.isLt
  have hsign : signBit = 2 ^ 11 * 2 ^ 52 := by decide
  have hbinade : binade = 2 ^ 52 := by decide
  rw [packComponents,BitVec.toNat_append,BitVec.toNat_append,← Nat.shiftLeft_add_eq_or_of_lt hm,
    ← Nat.shiftLeft_add_eq_or_of_lt he,Nat.shiftLeft_eq,Nat.shiftLeft_eq,hsign,hbinade]
  ring

theorem isNaNBits_of_lt {s : Sign} {e : BitVec Format.binary64.exponentBits}
    {m : BitVec Format.binary64.mantissaBitsWithoutImplicit}
    (h : e.toNat * binade + m.toNat < infinite) :
    isNaNBits (packComponents Format.binary64 s e m) = false := by
  rw [isNaNBits,unpackExponent_packComponents]
  apply decide_eq_false
  rintro ⟨he,_⟩
  have hlast : e.toNat = 2047 := by
    rw [he]
    decide
  rw [hlast,infinite] at h
  omega

def signOf (negative : Bool) : Sign := if negative then .negative else .positive

theorem signOf_injective : Function.Injective signOf := by
  intro b c h
  cases b <;> cases c <;> simp [signOf] at h ⊢

theorem signOf_surjective : Function.Surjective signOf := by
  intro s
  cases s with
  | negative => exact ⟨true,rfl⟩
  | positive => exact ⟨false,rfl⟩

theorem toNat_signOf (negative : Bool) : (signOf negative).toBitVec.toNat = negative.toNat := by
  cases negative <;> rfl

theorem components_lt (e : BitVec Format.binary64.exponentBits)
    (m : BitVec Format.binary64.mantissaBitsWithoutImplicit) :
    e.toNat * binade + m.toNat < signBit := by
  have hm : m.toNat < binade := m.isLt
  have he : e.toNat < 2048 := e.isLt
  have hle : e.toNat * binade ≤ 2047 * binade := Nat.mul_le_mul_right _ (by omega)
  have htop : 2047 * binade + binade = signBit := by decide
  omega

section Split
variable {x : Float} {s : Bool} {n : Nat} (hn : n < signBit)
  (hx : x.toBits.toNat = s.toNat * signBit + n)
include hn hx

theorem magnitude_eq : magnitude x = n := by
  rw [magnitude,hx,Nat.mul_add_mod_self_right,Nat.mod_eq_of_lt hn]

theorem negative_eq : negative x = s := by
  cases s with
  | false => exact decide_eq_false (by simpa [hx] using hn)
  | true => exact decide_eq_true (by simp [hx])

end Split

/-- The bits of a double are those of its sign and its magnitude. -/
theorem exists_components (x : Float) :
    ∃ (e : BitVec Format.binary64.exponentBits)
      (m : BitVec Format.binary64.mantissaBitsWithoutImplicit),
      x.toBits.toBitVec = packComponents Format.binary64 (signOf (negative x)) e m ∧
      magnitude x = e.toNat * binade + m.toNat := by
  obtain ⟨s,e,m,hb⟩ : ∃ s e m,
      (x.toBits.toBitVec : BitVec Format.binary64.numBits) = packComponents Format.binary64 s e m :=
    exists_packComponents _
  obtain ⟨b,rfl⟩ := signOf_surjective s
  have hword : x.toBits.toNat = b.toNat * signBit + (e.toNat * binade + m.toNat) := by
    rw [← toNat_signOf,← toNat_packComponents,← hb,UInt64.toNat_toBitVec]
  have hrest := components_lt e m
  exact ⟨e,m,(negative_eq hrest hword).symm ▸ hb,magnitude_eq hrest hword⟩

/-- The double of a sign and a finite magnitude has these as its bits. -/
theorem toBits_signed (s : Bool) {n : Nat} (h : n < infinite) :
    (signed s n).toBits.toNat = s.toNat * signBit + n := by
  have hsmall : infinite < signBit := by decide
  have hrange : s.toNat * signBit + n < 2 ^ 64 := by
    have htop : 2 * signBit = 2 ^ 64 := by decide
    have hone := Nat.mul_le_mul_right signBit s.toNat_le
    omega
  have hsigned : signed s n = Float.ofBits (UInt64.ofNat (s.toNat * signBit + n)) := by
    cases s <;> simp [signed]
  have hword : (UInt64.ofNat (s.toNat * signBit + n)).toNat = s.toNat * signBit + n :=
    UInt64.toNat_ofNat_of_lt hrange
  obtain ⟨t,e,m,hb⟩ := exists_packComponents (UInt64.ofNat (s.toNat * signBit + n)).toBitVec
  have hrest : e.toNat * binade + m.toNat = n := by
    have hbits := congrArg (· % signBit) (toNat_packComponents t e m)
    simpa only [← hb,UInt64.toNat_toBitVec,hword,Nat.mul_add_mod_self_right,
      Nat.mod_eq_of_lt (components_lt e m),Nat.mod_eq_of_lt (h.trans hsmall)] using hbits.symm
  rw [hsigned,← UInt64.toNat_toBitVec,toBits_ofBits,hb,isNaNBits_of_lt (hrest ▸ h),
    if_neg Bool.false_ne_true,← hb,UInt64.toNat_toBitVec,hword]

/-- Negation turns the sign bit, and nothing else. -/
theorem toBits_neg {x : Float} (hf : finite x = true) :
    (-x).toBits.toNat = (!negative x).toNat * signBit + magnitude x := by
  obtain ⟨e,m,hb,hmag⟩ := exists_components x
  have hlt : e.toNat * binade + m.toNat < infinite := hmag ▸ of_decide_eq_true hf
  have hturn : -signOf (negative x) = signOf (!negative x) := by cases negative x <;> rfl
  have hneg : (-x).toBits.toBitVec = packComponents Format.binary64 (signOf (!negative x)) e m := by
    change pack Format.binary64 (unpack Format.binary64 x.toBits.toBitVec).neg = _
    rw [hb,pack_neg_unpack,isNaNBits_of_lt hlt,if_neg Bool.false_ne_true,hturn]
  rw [← UInt64.toNat_toBitVec,hneg,toNat_packComponents,toNat_signOf,hmag]

/-- Negation turns the sign bit off. -/
theorem neg_eq_signed {x : Float} (h : negative x = true) (hf : finite x = true) :
    -x = signed false (magnitude x) := by
  apply eq_of_toBits
  apply UInt64.toNat_inj.mp
  rw [toBits_neg hf,toBits_signed false (of_decide_eq_true hf),h,Bool.not_true]

theorem negative_neg_signed {n : Nat} (h : n ≤ infinite) :
    negative (-(signed false n)) = true := by
  rcases Nat.lt_or_eq_of_le h with hlt | rfl
  · have hsmall : n < signBit := hlt.trans (by decide)
    have hbits := toBits_signed false hlt
    have hmag := magnitude_eq hsmall hbits
    have hf : finite (signed false n) = true := decide_eq_true (hmag.trans_lt hlt)
    have hneg := toBits_neg hf
    rw [hmag,negative_eq hsmall hbits] at hneg
    exact negative_eq hsmall hneg
  · decide +kernel

/-- A finite double is made of its sign and its magnitude. -/
theorem eq_of_magnitude {x : Float} (hf : finite x = true) :
    (if negative x then -(signed false (magnitude x)) else signed false (magnitude x)) = x := by
  cases h : negative x with
  | true => rw [if_pos rfl,← neg_eq_signed h hf,neg_neg]
  | false => rw [if_neg Bool.false_ne_true,signed_magnitude h]

theorem toList_text {x : Float} (hf : finite x = true) :
    (text x).toList =
      (if negative x then ['-'] else []) ++ (shortest (magnitude x)).text := by
  have hlt : magnitude x < infinite := of_decide_eq_true hf
  have hnan : ¬ infinite < magnitude x := by omega
  have hinf : magnitude x ≠ infinite := by omega
  rw [text,if_neg hnan,String.toList_ofList,magnitudeText,if_neg hinf]
  split <;> rfl

end Number

namespace Literal

/-- A literal with a sign is below zero, also where all its digits are zeros. -/
theorem negative_value (ds fs : List Char) : Number.negative (value ⟨true,ds,fs⟩) = true :=
  Number.negative_neg_signed (Number.nearest_le _ _)

/-- The literal that a decimal is written as. -/
def ofDecimal (negative : Bool) (d : Number.Decimal) : Literal := ⟨negative,d.whole,d.fraction⟩

variable (negative : Bool) (d : Number.Decimal)

theorem formed_ofDecimal : (ofDecimal negative d).Formed :=
  ⟨fun _ => Number.Decimal.isDigit_of_mem_whole,fun _ => Number.Decimal.isDigit_of_mem_fraction,
    .inl d.whole_ne_nil⟩

theorem text_ofDecimal :
    (ofDecimal negative d).text = (if negative then ['-'] else []) ++ d.text := by
  have hlen := d.length_fraction
  rw [text,ofDecimal,Number.Decimal.text,List.append_assoc]
  congr 1
  by_cases hp : d.places = 0
  · have hnil : d.fraction = [] := List.eq_nil_of_length_eq_zero (hlen.trans hp)
    rw [if_pos hp,if_pos hnil,List.append_nil]
  · have hne : d.fraction ≠ [] := fun hnil => hp (by rw [← hlen,hnil]; rfl)
    rw [if_neg hp,if_neg hne]

theorem value_ofDecimal :
    (ofDecimal negative d).value =
      if negative then -(Number.signed false d.nearest) else Number.signed false d.nearest := by
  rw [value,ofDecimal,Number.Decimal.ofDigits_whole_fraction]

/-- The text of a finite double is a literal, and the literal is worth the double. -/
theorem exists_of_finite {x : Float} (hf : Number.finite x = true) :
    ∃ l : Literal, l.Formed ∧ l.value = x ∧ (Number.text x).toList = l.text := by
  have hle : Number.magnitude x ≤ Number.infinite := Nat.le_of_lt (of_decide_eq_true hf)
  refine ⟨ofDecimal (Number.negative x) (Number.shortest (Number.magnitude x)),
    formed_ofDecimal _ _,?_,?_⟩
  · rw [value_ofDecimal,Number.nearest_shortest hle,Number.eq_of_magnitude hf]
  · rw [text_ofDecimal,Number.toList_text hf]

end Literal

end Reckoner
