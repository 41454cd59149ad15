import Mathlib.Tactic.Ring
import Conform.Double.Shortest

/-!
# Decimals and the doubles nearest to them

The double nearest to a decimal is found early where it is known to be infinite or zero. These
cut-offs change nothing: it is always the double nearest to one quotient of natural numbers
(`nearest_eq_ofRatio`), and rounding a quotient depends on its value only. So it does not matter how
many zeros stand at the end of the digits.

* `nearest_mul_pow`: zeros at the end count as much in the exponent.
* `nearest_of_shortest`: a finite double is the one nearest to its shortest digits, with its sign.
-/

namespace Conform.Double

/-! ## Rounding -/

/-- Rounding depends on the ratio, not on the numbers that stand for it. -/
theorem roundRatio_eq_of_mul_eq {a b c d : Nat} (hb : 0 < b) (hd : 0 < d) (h : a * d = c * b) :
    roundRatio a b = roundRatio c d := by
  rw [← roundRatio_mul_left a b hd, ← roundRatio_mul_left c d hb, Nat.mul_comm d a, h,
    Nat.mul_comm c b, Nat.mul_comm d b]

theorem le_roundRatio {a n : Nat} (h : 2 ^ (n + 52) ≤ a * one) : n * normal ≤ roundRatio a 1 := by
  have hne : a * one ≠ 0 := Nat.ne_of_gt (Nat.lt_of_lt_of_le (Nat.two_pow_pos _) h)
  have hlog := (Nat.le_log2 hne).mpr h
  simp only [roundRatio, Nat.div_one]
  exact Nat.le_trans (Nat.mul_le_mul_right _ (by omega)) (Nat.le_add_right _ _)

/-- Less than half a unit is rounded to zero. -/
theorem roundRatio_eq_zero {a b : Nat} (h : 2 * (a * one) < b) : roundRatio a b = 0 := by
  have hlt : a * one < b := by omega
  have hlog : Nat.log2 0 = 0 := rfl
  simp [roundRatio, roundHalfEven, Nat.div_eq_of_lt hlt, Nat.mod_eq_of_lt hlt, hlog, h]

/-- The nearest double depends on the ratio, not on the numbers that stand for it. -/
theorem ofRatio_congr (negative : Bool) {a b c d : Nat} (hb : 0 < b) (hd : 0 < d)
    (h : a * d = c * b) : ofRatio negative a b = ofRatio negative c d := by
  rw [ofRatio, ofRatio, roundRatio_eq_of_mul_eq hb hd h]

/-! ## The double nearest to a decimal -/

theorem eight_pow_le (n : Nat) : 2 ^ (3 * n) ≤ 10 ^ n := by
  rw [Nat.pow_mul]
  exact Nat.pow_le_pow_left (by decide) n

/-- A positive number from `10 ^ 400` on rounds to infinity. -/
theorem ofRatio_large (negative : Bool) {digits n : Nat} (hdigits : digits ≠ 0) (hn : 400 ≤ n) :
    ofRatio negative (digits * 10 ^ n) 1 = ofMagnitude negative infinity := by
  have hplaces : places = 1074 := rfl
  have hunits : 2 ^ (3 * n + places) ≤ digits * 10 ^ n * one := by
    rw [one, Nat.one_shiftLeft, Nat.pow_add]
    refine Nat.mul_le_mul_right _ (Nat.le_trans (eight_pow_le n) ?_)
    exact Nat.le_mul_of_pos_left _ (Nat.pos_of_ne_zero hdigits)
  have hround : infinity ≤ roundRatio (digits * 10 ^ n) 1 := by
    rw [show 3 * n + places = 3 * n + 1022 + 52 by omega] at hunits
    refine Nat.le_trans ?_ (le_roundRatio hunits)
    calc infinity = 2047 * normal := by decide
      _ ≤ (3 * n + 1022) * normal := Nat.mul_le_mul_right _ (by omega)
  rw [ofRatio, ofMagnitude, ofMagnitude]
  simp only [Nat.min_eq_right hround, Nat.min_self]

/-- A number too far below the least positive double rounds to zero. -/
theorem ofRatio_small (negative : Bool) {digits n : Nat} (h : digits.log2 + 1080 < 3 * n) :
    ofRatio negative digits (10 ^ n) = zero negative := by
  have hplaces : places = 1074 := rfl
  have hunits : 2 * (digits * one) < 10 ^ n := by
    calc 2 * (digits * one) = digits * 2 ^ (places + 1) := by
          rw [one, Nat.one_shiftLeft]
          ring
      _ < 2 ^ (digits.log2 + 1) * 2 ^ (places + 1) :=
        Nat.mul_lt_mul_of_pos_right Nat.lt_log2_self (Nat.two_pow_pos _)
      _ = 2 ^ (digits.log2 + 1 + (places + 1)) := (Nat.pow_add _ _ _).symm
      _ ≤ 2 ^ (3 * n) := Nat.pow_le_pow_right (by decide) (by omega)
      _ ≤ 10 ^ n := eight_pow_le n
  rw [ofRatio, roundRatio_eq_zero hunits, zero]

/-- The cut-offs change nothing. -/
theorem nearest_eq_ofRatio (negative : Bool) (digits : Nat) (e : Int) :
    nearest negative digits e =
      ofRatio negative (digits * 10 ^ e.toNat) (10 ^ (-e).toNat) := by
  unfold nearest
  split
  · rename_i hzero
    have hpos : 0 < 10 ^ (-e).toNat := Nat.pow_pos (by decide)
    have hunits : 2 * (0 * one) < 10 ^ (-e).toNat := by omega
    rw [hzero, Nat.zero_mul, ofRatio, roundRatio_eq_zero hunits, zero]
  rename_i hdigits
  split
  · rename_i hlarge
    have hexp : (-e).toNat = 0 := by omega
    rw [hexp, Nat.pow_zero, ofRatio_large negative hdigits (by omega)]
  split
  · have hexp : (-e).toNat = 0 := by omega
    rw [hexp, Nat.pow_zero]
    rfl
  have hexp : e.toNat = 0 := by omega
  rw [hexp, Nat.pow_zero, Nat.mul_one]
  split
  · rename_i hsmall
    exact (ofRatio_small negative hsmall).symm
  · rfl

/-- Zeros moved from the exponent into the digits do not change the number. -/
theorem nearest_mul_pow (negative : Bool) (digits zeros : Nat) (e : Int) :
    nearest negative (digits * 10 ^ zeros) (e - zeros) = nearest negative digits e := by
  have hexp : zeros + (e - zeros).toNat + (-e).toNat = e.toNat + (-(e - zeros)).toNat := by omega
  rw [nearest_eq_ofRatio, nearest_eq_ofRatio]
  apply ofRatio_congr negative (Nat.pow_pos (by decide)) (Nat.pow_pos (by decide))
  rw [Nat.mul_assoc, Nat.mul_assoc, Nat.mul_assoc, ← Nat.pow_add, ← Nat.pow_add, ← Nat.pow_add,
    ← hexp, Nat.add_assoc]

theorem nearest_negative (negative : Bool) (digits : Nat) (e : Int) :
    { nearest false digits e with negative := negative } = nearest negative digits e := by
  rw [nearest_eq_ofRatio, nearest_eq_ofRatio]
  rfl

/-! ## Shortest digits -/

theorem zero_of_magnitude {x : Double} (h : x.magnitude = 0) : zero x.negative = x := by
  cases x
  subst h
  rfl

/-- Read with one rounding, the shortest digits of a finite double are this double. -/
theorem nearest_of_shortest {x : Double} (h : x.isFinite = true) :
    nearest x.negative x.shortest.digits x.shortest.exponent = x := by
  have hmagnitude := nearest_shortest h
  rw [nearestMagnitude, nearest_eq_ofRatio] at hmagnitude
  rw [nearest_eq_ofRatio]
  cases x
  simp only [ofRatio, ofMagnitude, mk.injEq, true_and] at hmagnitude ⊢
  exact hmagnitude

theorem shortest_digits_ne_zero {x : Double} (h : x.isFinite = true) (hzero : x.magnitude ≠ 0) :
    x.shortest.digits ≠ 0 := by
  intro hdigits
  have hread := nearest_of_shortest h
  rw [nearest, if_pos hdigits] at hread
  exact hzero (by rw [← hread]; exact Nat.zero_min _)

end Conform.Double
