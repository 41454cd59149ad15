import Mathlib.Tactic.Ring
import Conform.Double.Rounding
import Conform.Json

/-!
# Finite doubles

A finite double is a number. Rounding to 53 bits moves a value to the next power of two at most, so
a 64-bit integer is far below the largest double: `isFinite_ofInt`.
-/

namespace Conform.Double

theorem isNaN_of_isFinite {x : Double} (h : x.isFinite = true) : x.isNaN = false := by
  simp only [isFinite, isNaN, decide_eq_true_eq, decide_eq_false_iff_not] at h ⊢
  omega

theorem roundHalfEven_le (a b : Nat) : roundHalfEven a b ≤ a / b + 1 := by
  simp only [roundHalfEven]
  split
  · omega
  · split <;> omega

/-- A quotient below `2 ^ n` units lies among the magnitudes with `n` bits, or right above them. -/
theorem roundRatio_le {a n : Nat} (h : a * one < 2 ^ (n + 53)) :
    roundRatio a 1 ≤ (n + 2) * normal := by
  have hnormal : normal = 2 ^ 52 := by decide
  simp only [roundRatio, Nat.div_one]
  generalize a * one = units at *
  have hk : units.log2 - 52 ≤ n := by
    by_cases h0 : units = 0
    · simp [h0]
    · have := (Nat.log2_lt h0).mpr h
      omega
  have hround : roundHalfEven units (1 <<< (units.log2 - 52)) ≤ 2 * normal := by
    generalize hexp : units.log2 - 52 = k
    have hbits : units < 2 ^ 53 * 2 ^ k := by
      rw [← Nat.pow_add]
      exact Nat.lt_of_lt_of_le Nat.lt_log2_self (Nat.pow_le_pow_right (by decide) (by omega))
    have hquotient : units / (1 <<< k) < 2 ^ 53 := by
      rw [Nat.one_shiftLeft]
      exact (Nat.div_lt_iff_lt_mul (Nat.two_pow_pos k)).mpr hbits
    have := roundHalfEven_le units (1 <<< k)
    rw [hnormal]
    omega
  calc (units.log2 - 52) * normal + roundHalfEven units (1 <<< (units.log2 - 52))
      ≤ n * normal + 2 * normal := Nat.add_le_add (Nat.mul_le_mul_right _ hk) hround
    _ = (n + 2) * normal := by ring

theorem isFinite_ofInt (n : Json.Integer) : (ofInt n.value).isFinite = true := by
  have habs : n.value.natAbs < 2 ^ 65 := by
    have hlower := n.lower
    have hupper := n.upper
    omega
  have hunits : n.value.natAbs * one < 2 ^ (places + 12 + 53) := by
    rw [one, Nat.one_shiftLeft, show places + 12 + 53 = 65 + places by omega, Nat.pow_add]
    exact Nat.mul_lt_mul_of_pos_right habs (Nat.two_pow_pos places)
  have hbound : roundRatio n.value.natAbs 1 < infinity :=
    Nat.lt_of_le_of_lt (roundRatio_le hunits) (by decide)
  simpa [isFinite, ofInt, ofRatio, ofMagnitude] using hbound

end Conform.Double
