import Conform.Double

/-!
# Rounding to the nearest double

Every finite double is a whole number of units of `2 ^ -1074`, and the magnitude `m + k · 2 ^ 52`
with `2 ^ 52 ≤ m < 2 ^ 53` stands for `m · 2 ^ k` units; below `2 ^ 52` a magnitude counts the
units themselves. `roundRatio` therefore works on natural numbers alone: it takes a quotient in
units, finds the `k` that leaves 53 bits, and rounds to the nearest `m`, a half to the even one.
A carry of `m` into `2 ^ 53` lands on the next magnitude by itself.
Powers are shifts or `Nat.pow` throughout, so they do not depend on the instances in scope.

* `roundHalfEven_mul`: a quotient that comes out even is not changed.
* `roundRatio_mul_left`: a common factor does not matter.
* `roundRatio_units`: the value of a double rounds to that double.
-/

namespace Conform.Double

/-! ## Values in units -/

/-- The magnitude of the smallest double with 53 bits, `2 ^ 52`. -/
def normal : Nat := 0x10000000000000

/-- The value of a finite magnitude, in units of `2 ^ -1074`. -/
def units (magnitude : Nat) : Nat :=
  if magnitude < normal then magnitude
  else (normal + magnitude % normal) <<< (magnitude / normal - 1)

/-- The places behind the binary point of the smallest double. -/
def places : Nat := 1074

/-- How many units make one. -/
def one : Nat := 1 <<< places

theorem one_pos : 0 < one := by
  rw [one, Nat.shiftLeft_eq, Nat.one_mul]
  exact Nat.two_pow_pos places

/-- The natural number nearest to `a / b`, the even one of two that are equally near. -/
def roundHalfEven (a b : Nat) : Nat :=
  let q := a / b
  let r := a % b
  if 2 * r < b then q else if 2 * r > b then q + 1 else q + q % 2

/-- The magnitude nearest to `a / b`, possibly beyond infinity. -/
def roundRatio (a b : Nat) : Nat :=
  let a := a * one
  let k := (a / b).log2 - 52
  k * normal + roundHalfEven a (b <<< k)

/-- The double nearest to a quotient of natural numbers, with a sign. -/
def ofRatio (negative : Bool) (a b : Nat) : Double :=
  ofMagnitude negative (roundRatio a b)

/-! ## Integers and single precision -/

/-- The double nearest to an integer. -/
def ofInt (n : Int) : Double :=
  ofRatio (n < 0) n.natAbs 1

/-- The 32-bit number with these bits, which every double can hold. -/
def ofSingle (bits : UInt32) : Double :=
  let negative : Bool := bits.toNat / 0x80000000 = 1
  let scale := bits.toNat / 0x800000 % 0x100
  let fraction := bits.toNat % 0x800000
  if scale = 0xff then
    if fraction = 0 then ofMagnitude negative infinity else nan
  else if scale = 0 then ofRatio negative fraction (1 <<< 149)
  else ofRatio negative ((0x800000 + fraction) <<< (scale - 1)) (1 <<< 149)

/-! ## Values round to themselves -/

theorem roundHalfEven_mul (q : Nat) {b : Nat} (hb : 0 < b) : roundHalfEven (q * b) b = q := by
  simp [roundHalfEven, Nat.mul_div_cancel _ hb, hb]

theorem roundHalfEven_mul_left (a b : Nat) {c : Nat} (hc : 0 < c) :
    roundHalfEven (c * a) (c * b) = roundHalfEven a b := by
  have h1 : 2 * (c * (a % b)) < c * b ↔ 2 * (a % b) < b := by
    rw [Nat.mul_left_comm]
    exact Nat.mul_lt_mul_left hc
  have h2 : c * b < 2 * (c * (a % b)) ↔ b < 2 * (a % b) := by
    rw [Nat.mul_left_comm 2]
    exact Nat.mul_lt_mul_left hc
  simp only [roundHalfEven, Nat.mul_mod_mul_left, Nat.mul_div_mul_left _ _ hc, gt_iff_lt, h1, h2]

theorem roundRatio_mul_left (a b : Nat) {c : Nat} (hc : 0 < c) :
    roundRatio (c * a) (c * b) = roundRatio a b := by
  simp only [roundRatio, Nat.shiftLeft_eq, Nat.mul_assoc, Nat.mul_div_mul_left _ _ hc,
    roundHalfEven_mul_left _ _ hc]

theorem roundRatio_units (magnitude : Nat) : roundRatio (units magnitude) one = magnitude := by
  have hone := one_pos
  have hnormal : normal = 2 ^ 52 := by decide
  simp only [roundRatio, Nat.mul_div_cancel _ hone]
  unfold units
  split
  · rename_i h
    have hlog : magnitude.log2 - 52 = 0 := by
      by_cases h0 : magnitude = 0
      · simp [h0]
      · have := (Nat.log2_lt h0).mpr (hnormal ▸ h)
        omega
    simp [hlog, roundHalfEven_mul _ hone]
  · rename_i h
    have hm : magnitude % normal < normal := Nat.mod_lt _ (by decide)
    have hk : 1 ≤ magnitude / normal := (Nat.one_le_div_iff (by decide)).mpr (Nat.le_of_not_lt h)
    have hsplit := Nat.div_add_mod' magnitude normal
    generalize magnitude % normal = fraction at *
    obtain ⟨k, hexp⟩ : ∃ k, magnitude / normal = k + 1 := ⟨_, (Nat.sub_add_cancel hk).symm⟩
    have hpos := Nat.two_pow_pos k
    have hlog : ((normal + fraction) * 2 ^ k).log2 = 52 + k := by
      have hne : (normal + fraction) * 2 ^ k ≠ 0 :=
        Nat.ne_of_gt (Nat.mul_pos (Nat.add_pos_left (by decide) _) hpos)
      refine (Nat.log2_eq_iff hne).mpr ⟨?_, ?_⟩
      · rw [Nat.pow_add, ← hnormal]
        exact Nat.mul_le_mul_right _ (Nat.le_add_right _ _)
      · rw [show 52 + k + 1 = 53 + k by omega, Nat.pow_add 2 53, Nat.pow_succ 2 52, ← hnormal]
        exact Nat.mul_lt_mul_of_pos_right (by omega) hpos
    rw [hexp, Nat.add_sub_cancel, Nat.shiftLeft_eq, hlog, Nat.add_sub_cancel_left, Nat.shiftLeft_eq,
      Nat.mul_assoc, Nat.mul_comm (2 ^ k) one, roundHalfEven_mul _ (Nat.mul_pos hone hpos)]
    rw [hexp, Nat.succ_mul] at hsplit
    omega

end Conform.Double
