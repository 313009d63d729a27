import Reckoner.Proofs.ReadBack

namespace Reckoner.Number

/-- Steps that were doubled `e` times: 53 bits of them, unless they were never doubled. -/
structure InBinade (e m : Nat) : Prop where
  lt : m < 2 * binade
  full : e = 0 ∨ binade ≤ m

theorem exists_inBinade (bits : Nat) :
    ∃ e m, InBinade e m ∧ e * binade + m = bits ∧ units bits = m <<< e := by
  obtain ⟨e,m,hu,hbits,hm,he⟩ := exists_steps bits
  exact ⟨e,m,⟨hm,he⟩,hbits,hu⟩

namespace InBinade
variable {e m : Nat} (h : InBinade e m)
include h

theorem units_eq : units (e * binade + m) = m <<< e := by
  have hm := h.lt
  have hlow : (e * binade + m) / binade - 1 = e := by
    rw [Nat.add_comm,Nat.add_mul_div_right _ _ (by decide)]
    rcases h.full with rfl | he
    · have : m / binade < 2 := Nat.div_lt_of_lt_mul (by omega)
      omega
    · have : m / binade = 1 := Nat.div_eq_of_lt_le (by omega) (by omega)
      omega
  simp only [units,hlow,Nat.add_sub_cancel_left]

/-- The binades of finite doubles. -/
theorem lt_infinite (he : e ≤ 2045) : e * binade + m < infinite := by
  have hm := h.lt
  have hle : e * binade ≤ 2045 * binade := Nat.mul_le_mul_right _ he
  rw [infinite]
  omega

theorem le_of_lt_infinite (hlt : e * binade + m < infinite) : e ≤ 2045 := by
  rcases h.full with rfl | hm
  · exact Nat.zero_le _
  · have hpos : 0 < binade := by decide
    have : (e + 1) * binade < 2047 * binade := by
      rw [Nat.succ_mul]
      exact Nat.lt_of_le_of_lt (Nat.add_le_add_left hm _) hlt
    have := Nat.lt_of_mul_lt_mul_right this
    omega

/-- All of a binade is below the first step of the next. -/
theorem shiftLeft_lt {k : Nat} (hk : e < k) : m <<< e < binade <<< k := by
  rw [Nat.shiftLeft_eq,Nat.shiftLeft_eq]
  calc m * 2 ^ e < 2 * binade * 2 ^ e := Nat.mul_lt_mul_of_pos_right h.lt (Nat.two_pow_pos e)
    _ = binade * 2 ^ (e + 1) := by ring
    _ ≤ binade * 2 ^ k := Nat.mul_le_mul_left _ (Nat.pow_le_pow_right (by decide) hk)

end InBinade

theorem shiftLeft_eq_mul (m e : Nat) : m <<< e = m * 1 <<< e := by
  rw [Nat.shiftLeft_eq,Nat.one_shiftLeft]

/-- How often the step of a double of `n` units was doubled. -/
def doublings (n : Nat) : Nat := Nat.log2 n - 52

theorem nearest_one (n : Nat) :
    nearest n 1 = min infinite (doublings n * binade + divNearest n (1 <<< doublings n)) := by
  simp only [nearest,Nat.div_one,doublings]

theorem divNearest_cases (n d : Nat) :
    divNearest n d = n / d ∧ 2 * (n % d) ≤ d ∨ divNearest n d = n / d + 1 ∧ d ≤ 2 * (n % d) := by
  simp only [divNearest]
  split
  · omega
  · split
    · omega
    · have := Nat.mod_two_eq_zero_or_one (n / d)
      omega

theorem divNearest_scale (n d : Nat) {c : Nat} (hc : 0 < c) :
    divNearest (n * c) (d * c) = divNearest n d := by
  have hrest : 2 * (n % d * c) = 2 * (n % d) * c := (Nat.mul_assoc _ _ _).symm
  simp only [divNearest,Nat.mul_div_mul_right _ _ hc,Nat.mul_mod_mul_right,hrest,
    Nat.mul_lt_mul_right hc]

theorem divNearest_mono {a b : Nat} (h : a ≤ b) (d : Nat) : divNearest a d ≤ divNearest b d := by
  rcases Nat.lt_or_eq_of_le (Nat.div_le_div_right (c := d) h) with hlt | heq
  · have ha := divNearest_cases a d
    have hb := divNearest_cases b d
    omega
  · have hmod : a % d ≤ b % d := by
      have ha := Nat.div_add_mod a d
      have hb := Nat.div_add_mod b d
      rw [heq] at ha
      omega
    simp only [divNearest,heq]
    split <;> split <;> (try split) <;> (try split) <;> omega

/-- Counted in steps, a number of units has 53 bits, unless it is in the lowest binade. -/
theorem inBinade_doublings (n : Nat) : InBinade (doublings n) (n / 1 <<< doublings n) := by
  have hb : binade = 2 ^ 52 := by decide
  by_cases h0 : n = 0
  · subst h0
    exact ⟨by decide,.inl rfl⟩
  have hpos := Nat.two_pow_pos (doublings n)
  rw [Nat.one_shiftLeft]
  constructor
  · rw [Nat.div_lt_iff_lt_mul hpos,hb,← Nat.pow_succ',← Nat.pow_add]
    refine Nat.lt_of_lt_of_le Nat.lt_log2_self (Nat.pow_le_pow_right (by decide) ?_)
    rw [doublings]
    omega
  · refine or_iff_not_imp_left.mpr fun he => ?_
    rw [Nat.le_div_iff_mul_le hpos,hb,← Nat.pow_add]
    refine Nat.le_trans (Nat.pow_le_pow_right (by decide) ?_) (Nat.log2_self_le h0)
    rw [doublings] at he ⊢
    omega

/-- Rounding may reach the first step of the next binade, but no further. -/
theorem divNearest_doublings (n : Nat) :
    divNearest n (1 <<< doublings n) ≤ 2 * binade ∧
      (doublings n = 0 ∨ binade ≤ divNearest n (1 <<< doublings n)) := by
  have hn := inBinade_doublings n
  have hlt := hn.lt
  have hfull := hn.full
  have hcases := divNearest_cases n (1 <<< doublings n)
  omega

theorem log2_mono {a b : Nat} (h : a ≤ b) : Nat.log2 a ≤ Nat.log2 b := by
  by_cases h0 : a = 0
  · subst h0
    exact Nat.zero_le _
  · rw [Nat.le_log2 (by omega)]
    exact Nat.le_trans (Nat.log2_self_le h0) h

/-- Rounding keeps the order. -/
theorem nearest_mono {a b : Nat} (h : a ≤ b) : nearest a 1 ≤ nearest b 1 := by
  rw [nearest_one,nearest_one]
  apply min_le_min_left
  have hle : doublings a ≤ doublings b := Nat.sub_le_sub_right (log2_mono h) 52
  rcases Nat.lt_or_eq_of_le hle with hlt | heq
  · -- `a` is rounded up to the first step of the next binade at most, and `b` is not below it.
    have ha := (divNearest_doublings a).1
    have hb := (divNearest_doublings b).2
    have hnext : (doublings a + 1) * binade ≤ doublings b * binade := Nat.mul_le_mul_right _ hlt
    rw [Nat.succ_mul] at hnext
    omega
  · rw [heq]
    exact Nat.add_le_add_left (divNearest_mono h _) _

theorem nearest_units_one {bits : Nat} (h : bits ≤ infinite) : nearest (units bits) 1 = bits := by
  have := nearest_units h Nat.one_pos
  rwa [Nat.mul_one] at this

theorem units_le_units {a b : Nat} (ha : a ≤ infinite) (hb : b ≤ infinite) :
    units a ≤ units b ↔ a ≤ b := by
  have hback {a b : Nat} (ha : a ≤ infinite) (hb : b ≤ infinite) (h : units a ≤ units b) :
      a ≤ b := by
    have := nearest_mono h
    rwa [nearest_units_one ha,nearest_units_one hb] at this
  refine ⟨hback ha hb,fun h => ?_⟩
  rcases Nat.le_total (units a) (units b) with hle | hle
  · exact hle
  · rw [Nat.le_antisymm h (hback hb ha hle)]

section Nearest
variable (n : Nat)

/-- A multiple is one of the two around a number, or it is beyond the one below or above. -/
theorem mul_cases (k q d : Nat) : k * d + d ≤ q * d ∨ k = q ∧ k * d = q * d ∨
    k = q + 1 ∧ k * d = q * d + d ∨ q * d + 2 * d ≤ k * d := by
  rcases Nat.lt_or_ge k q with hlt | hge
  · have := Nat.mul_le_mul_right d hlt
    rw [Nat.succ_mul] at this
    omega
  obtain ⟨j,rfl⟩ := Nat.exists_eq_add_of_le hge
  rw [Nat.add_mul]
  rcases j with _ | _ | j
  · simp
  · simp
  · have : 2 * d ≤ (j + 1 + 1) * d := Nat.mul_le_mul_right d (by omega)
    omega

/-- No multiple is nearer than that of the nearest quotient, and where another is as near the
quotient is even. -/
theorem divNearest_spec {d : Nat} (hd : 0 < d) (k : Nat) :
    |((divNearest n d * d : ℕ) : ℤ) - n| ≤ |((k * d : ℕ) : ℤ) - n| ∧
      (k ≠ divNearest n d → |((k * d : ℕ) : ℤ) - n| = |((divNearest n d * d : ℕ) : ℤ) - n| →
        divNearest n d % 2 = 0) := by
  have hn := Nat.div_add_mod' n d
  have hlt := Nat.mod_lt n hd
  have hcases := mul_cases k (n / d) d
  simp only [Int.abs_eq_natAbs,Nat.cast_le,Nat.cast_inj]
  rcases Nat.lt_trichotomy (2 * (n % d)) d with hlow | htie | hhigh
  · have hq : divNearest n d = n / d := by simp [divNearest,hlow]
    rw [hq]
    omega
  · have hparity := Nat.mod_two_eq_zero_or_one (n / d)
    have hq : divNearest n d = n / d + n / d % 2 := by simp [divNearest,htie]
    rw [hq]
    rcases hparity with heven | hodd
    · rw [heven,Nat.add_zero]
      omega
    · rw [hodd,Nat.succ_mul]
      omega
  · have hq : divNearest n d = n / d + 1 := by simp [divNearest,hhigh,hhigh.not_gt]
    rw [hq,Nat.succ_mul]
    omega

theorem units_nearest (h : nearest n 1 < infinite) :
    units (nearest n 1) = divNearest n (1 <<< doublings n) * 1 <<< doublings n := by
  obtain ⟨hle,hfull⟩ := divNearest_doublings n
  have hbits : nearest n 1 = doublings n * binade + divNearest n (1 <<< doublings n) := by
    rw [nearest_one] at h ⊢
    omega
  rcases Nat.lt_or_eq_of_le hle with hlt | heq
  · rw [hbits,InBinade.units_eq ⟨hlt,hfull⟩,shiftLeft_eq_mul]
  · have hcarry : InBinade (doublings n + 1) binade := ⟨by decide,.inr le_rfl⟩
    have hnext : doublings n * binade + 2 * binade = (doublings n + 1) * binade + binade := by ring
    rw [hbits,heq,hnext,hcarry.units_eq,Nat.shiftLeft_eq,Nat.one_shiftLeft]
    ring

/-- Rounding is to the nearest double, and to the even one if two are equally near. -/
theorem nearest_spec (h : nearest n 1 < infinite) {bits : Nat} (hlt : bits < infinite) :
    |(units (nearest n 1) : ℤ) - n| ≤ |(units bits : ℤ) - n| ∧
      (bits ≠ nearest n 1 → |(units bits : ℤ) - n| = |(units (nearest n 1) : ℤ) - n| →
        nearest n 1 % 2 = 0) := by
  have hpos : 0 < 1 <<< doublings n := by simp [Nat.one_shiftLeft]
  have hspec := divNearest_spec n hpos
  have hunits := units_nearest n h
  have hbits : nearest n 1 = doublings n * binade + divNearest n (1 <<< doublings n) := by
    rw [nearest_one] at h ⊢
    omega
  have hparity : nearest n 1 % 2 = divNearest n (1 <<< doublings n) % 2 := by
    have hb : doublings n * binade % 2 = 0 := by simp [Nat.mul_mod,show binade % 2 = 0 by decide]
    omega
  rw [hparity]
  obtain ⟨e,m,hm,rfl,hu⟩ := exists_inBinade bits
  rw [hunits]
  rcases Nat.lt_or_ge e (doublings n) with hlow | hhigh
  · -- A double of a finer step is below the first step of the binade, which is not above `n`.
    have hfar : units (e * binade + m) < binade * 1 <<< doublings n := by
      rw [hu,← shiftLeft_eq_mul]
      exact hm.shiftLeft_lt hlow
    have hbelow : binade * 1 <<< doublings n ≤ n :=
      (Nat.le_div_iff_mul_le hpos).mp ((inBinade_doublings n).full.resolve_left (by omega))
    obtain ⟨hle,-⟩ := hspec binade
    simp only [Int.abs_eq_natAbs,Nat.cast_le,Nat.cast_inj] at hle ⊢
    omega
  · have hmultiple : units (e * binade + m) = m <<< (e - doublings n) * 1 <<< doublings n := by
      rw [hu,← shiftLeft_eq_mul,← Nat.shiftLeft_add,Nat.sub_add_cancel hhigh]
    obtain ⟨hle,htie⟩ := hspec (m <<< (e - doublings n))
    rw [hmultiple]
    refine ⟨hle,fun hne => htie fun hsame => hne ?_⟩
    rw [← hsame,← hmultiple] at hunits
    exact Nat.le_antisymm ((units_le_units hlt.le h.le).mp hunits.ge)
      ((units_le_units h.le hlt.le).mp hunits.le)

end Nearest

/-- The numbers of units that are finite doubles. -/
def IsDouble (n : Nat) : Prop := ∃ bits < infinite, units bits = n

namespace IsDouble

theorem units_nearest {n : Nat} (h : IsDouble n) :
    nearest n 1 < infinite ∧ units (nearest n 1) = n := by
  obtain ⟨bits,hlt,rfl⟩ := h
  rw [nearest_units_one hlt.le]
  exact ⟨hlt,rfl⟩

theorem exists_steps {n : Nat} (h : IsDouble n) : ∃ e ≤ 2045, ∃ m < 2 * binade, n = m <<< e := by
  obtain ⟨bits,hlt,rfl⟩ := h
  obtain ⟨e,m,hm,rfl,hu⟩ := exists_inBinade bits
  exact ⟨e,hm.le_of_lt_infinite hlt,m,hm.lt,hu⟩

/-- Any number of 53 bits may be doubled up to the highest binade. -/
theorem shiftLeft {e m : Nat} (hm : m < 2 * binade) (he : e ≤ 2045) : IsDouble (m <<< e) := by
  induction e generalizing m with
  | zero =>
    have h : InBinade 0 m := ⟨hm,.inl rfl⟩
    exact ⟨_,h.lt_infinite he,h.units_eq⟩
  | succ e ih =>
    by_cases hb : binade ≤ m
    · have h : InBinade (e + 1) m := ⟨hm,.inr hb⟩
      exact ⟨_,h.lt_infinite he,h.units_eq⟩
    · have hdouble : m <<< (e + 1) = (2 * m) <<< e := by
        rw [Nat.shiftLeft_eq,Nat.shiftLeft_eq]
        ring
      rw [hdouble]
      exact ih (by omega) (by omega)

theorem of_dvd {d e m : Nat} (hm : m < 2 * binade) (he : e ≤ 2045) (hd : 2 ^ e ∣ d)
    (hle : d ≤ m <<< e) : IsDouble d := by
  obtain ⟨c,rfl⟩ := hd
  rw [Nat.shiftLeft_eq,Nat.mul_comm m] at hle
  have hc : c ≤ m := Nat.le_of_mul_le_mul_left hle (Nat.two_pow_pos e)
  rw [Nat.mul_comm,← Nat.shiftLeft_eq]
  exact shiftLeft (by omega) he

/-- A whole number of 53 bits is a double. -/
theorem mul_one {q : Nat} (hq : q < 2 * binade) : IsDouble (q * one) := by
  exact shiftLeft_eq_mul q 1074 ▸ shiftLeft hq (by decide)

end IsDouble

end Reckoner.Number
