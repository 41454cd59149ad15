import Conform.Double.Scaled
import Conform.Proofs.Double.Decimal

/-!
# Where scaling is exact

Digits below `2 ^ 53` are a double, and so are the powers of ten up to `10 ^ 22`, which are
`5 ^ 22 · 2 ^ 22` at most. Of the steps of `scaled` only the last one rounds then, and it rounds the
decimal itself.

* `scaled_eq_nearest`: short digits times a small power make the double nearest to the decimal.
-/

namespace Conform.Double

variable {n k : Nat}

/-! ## Exact magnitudes -/

theorem units_eq_shiftLeft {s : Nat} (hle : normal ≤ s) (hlt : s < 2 * normal) :
    units (k * normal + s) = s <<< k := by
  have hpos : 0 < normal := by decide
  obtain ⟨fraction, rfl⟩ := Nat.exists_eq_add_of_le hle
  have hfraction : fraction < normal := by omega
  have hsum : k * normal + (normal + fraction) = fraction + (k + 1) * normal := by ring
  have hlarge : ¬ fraction + (k + 1) * normal < normal := by
    rw [Nat.succ_mul]
    omega
  rw [hsum, units, if_neg hlarge, Nat.add_mul_mod_self_right, Nat.mod_eq_of_lt hfraction,
    Nat.add_mul_div_right _ _ hpos, Nat.div_eq_of_lt hfraction, Nat.zero_add, Nat.add_sub_cancel]

/-- A number of 53 bits and a power of two make a magnitude, of which a finite one is left when the
power is not too large. -/
theorem exists_units_eq (hn : n < 2 ^ 53) (hk : 52 ≤ k) :
    ∃ m, units m = n * 2 ^ k ∧ m < (k + 2) * normal := by
  have hnormal : normal = 2 ^ 52 := by decide
  by_cases hzero : n = 0
  · refine ⟨0, ?_, ?_⟩
    · rw [hzero, Nat.zero_mul]
      rfl
    · exact Nat.mul_pos (by omega) (by decide)
  · have hlog : n.log2 < 53 := (Nat.log2_lt hzero).mpr hn
    have hlow := Nat.log2_self_le hzero
    have hhigh := @Nat.lt_log2_self n
    generalize n.log2 = l at hlog hlow hhigh
    -- the leading bit of the number is moved to the place of the implicit one
    have hpos := Nat.two_pow_pos (52 - l)
    have hle : normal ≤ n * 2 ^ (52 - l) := by
      calc normal = 2 ^ l * 2 ^ (52 - l) := by
            rw [hnormal, ← Nat.pow_add]
            congr 1
            omega
        _ ≤ n * 2 ^ (52 - l) := Nat.mul_le_mul_right _ hlow
    have hlt : n * 2 ^ (52 - l) < 2 * normal := by
      calc n * 2 ^ (52 - l) < 2 ^ (l + 1) * 2 ^ (52 - l) := Nat.mul_lt_mul_of_pos_right hhigh hpos
        _ = 2 * normal := by
            rw [hnormal, ← Nat.pow_add, ← Nat.pow_succ']
            congr 1
            omega
    refine ⟨(k - 52 + l) * normal + n * 2 ^ (52 - l), ?_, ?_⟩
    · rw [units_eq_shiftLeft hle hlt, Nat.shiftLeft_eq, Nat.mul_assoc, ← Nat.pow_add]
      congr 2
      omega
    · calc (k - 52 + l) * normal + n * 2 ^ (52 - l) < (k - 52 + l) * normal + 2 * normal :=
            Nat.add_lt_add_left hlt _
        _ = (k - 52 + l + 2) * normal := (Nat.add_mul _ _ _).symm
        _ ≤ (k + 2) * normal := Nat.mul_le_mul_right _ (by omega)

/-- The double of a number that needs no rounding has just its value. -/
theorem units_magnitude_ofRatio (negative : Bool) {a : Nat} (hn : n < 2 ^ 53) (hk : 52 ≤ k)
    (hk' : k ≤ 2000) (h : a * one = n * 2 ^ k) :
    units (ofRatio negative a 1).magnitude = a * one := by
  obtain ⟨m, hm, hlt⟩ := exists_units_eq hn hk
  have hround : roundRatio a 1 = m := by
    rw [← roundRatio_units m]
    apply roundRatio_eq_of_mul_eq Nat.one_pos one_pos
    rw [hm, h, Nat.mul_one]
  have hfinite : m ≤ infinity := by
    calc m ≤ (k + 2) * normal := Nat.le_of_lt hlt
      _ ≤ 2047 * normal := Nat.mul_le_mul_right _ (by omega)
      _ = infinity := by decide
  have hmagnitude : (ofRatio negative a 1).magnitude = m := by
    rw [ofRatio, ofMagnitude, hround]
    exact Nat.min_eq_left hfinite
  rw [hmagnitude, hm, h]

theorem units_ofInt (hn : n < 2 ^ 53) : units (ofInt n).magnitude = n * one := by
  have hone : n * one = n * 2 ^ places := by rw [one, Nat.one_shiftLeft]
  rw [ofInt, Int.natAbs_natCast]
  exact units_magnitude_ofRatio _ hn (by decide) (by decide) hone

/-- `10 ^ 22` is the last power of ten among the doubles. -/
theorem units_powerOfTen {e : Nat} (he : e ≤ 22) :
    units (powerOfTen e).magnitude = 10 ^ e * one := by
  have hfive : 5 ^ e < 2 ^ 53 :=
    Nat.lt_of_le_of_lt (Nat.pow_le_pow_right (by decide) he) (by decide)
  have hplaces : places = 1074 := rfl
  have hone : 10 ^ e * one = 5 ^ e * 2 ^ (e + places) := by
    rw [one, Nat.one_shiftLeft, Nat.pow_add, ← Nat.mul_assoc, ← Nat.mul_pow]
  exact units_magnitude_ofRatio _ hfive (by omega) (by omega) hone

/-! ## One rounding -/

theorem scaled_eq_nearest {digits : Nat} {e : Int} (hdigits : digits < 2 ^ 53)
    (he : e.natAbs ≤ 22) : scaled digits e = nearest false digits e := by
  have hsign : (ofInt digits).negative = false := by
    simp [ofInt, ofRatio, ofMagnitude]
  have hpower (n : Nat) : (powerOfTen n).negative = false := rfl
  have hunits := units_ofInt hdigits
  have hpos {n : Nat} : 0 < 10 ^ n := Nat.pow_pos (by decide)
  rw [nearest_eq_ofRatio, scaled]
  by_cases hneg : e < 0
  · have hzero : e.toNat = 0 := by omega
    have hrounds : ((-e).toNat - 1) / largestPower = 0 := Nat.div_eq_of_lt (by
      rw [largestPower]
      omega)
    have hten : units (powerOfTen (-e).toNat).magnitude = 10 ^ (-e).toNat * one :=
      units_powerOfTen (by omega)
    simp only [if_pos hneg, hrounds, shrink, Nat.zero_mul, Nat.sub_zero, div, hsign, hpower, hunits,
      hten, hzero, Nat.pow_zero, Nat.mul_one, bne_self_eq_false]
    apply ofRatio_congr
    · exact Nat.mul_pos hpos one_pos
    · exact hpos
    · ring
  · have hzero : (-e).toNat = 0 := by omega
    have hle : e ≤ largestPower := by
      rw [largestPower]
      omega
    have hten : units (powerOfTen e.toNat).magnitude = 10 ^ e.toNat * one :=
      units_powerOfTen (by omega)
    simp only [if_neg hneg, if_pos hle, mul, hsign, hpower, hunits, hten, hzero, Nat.pow_zero,
      bne_self_eq_false]
    apply ofRatio_congr
    · exact Nat.mul_pos one_pos one_pos
    · exact Nat.one_pos
    · ring

/-- With more digits the double that is found may be another one. -/
example : nearest false 9939026791527539 (-17) ≠ scaled 9939026791527539 (-17) := by
  decide +kernel

end Conform.Double
