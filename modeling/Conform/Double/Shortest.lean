import Conform.Double.Rounding

/-!
# The fewest digits that tell a double

`shortest x` is a decimal to which no double is nearer than `x` (`nearest`). A unit is
`5 ^ 1074 · 10 ^ -1074`, so every finite double has an exact decimal, `exact x`. For one digit, two
digits and so on up to seventeen, the two decimals of that many digits on either side of the exact
one are tried; the first length at which one of them tells the double is taken, of two that do the
nearer one, and the even one if they are equally near. Should no length do, the exact decimal
stands.

* `nearest_shortest`: the double is the one nearest to the chosen digits, for all finite doubles.
-/

namespace Conform

/-- The number `digits · 10 ^ exponent`. -/
structure Decimal where
  digits : Nat
  exponent : Int
deriving DecidableEq

namespace Double

/-- The double nearest to `digits · 10 ^ exponent`. Beyond `10 ^ 400` all is infinite; a number
below `2 ^ -1080` is zero, and `10 ^ e` is more than `2 ^ (3 e)`. -/
def nearest (negative : Bool) (digits : Nat) (exponent : Int) : Double :=
  if digits = 0 then zero negative
  else if 400 ≤ exponent then ofMagnitude negative infinity
  else if 0 ≤ exponent then ofRatio negative (digits * Nat.pow 10 exponent.toNat) 1
  else if digits.log2 + 1080 < 3 * (-exponent).toNat then zero negative
  else ofRatio negative digits (Nat.pow 10 (-exponent).toNat)

/-- The magnitude nearest to a decimal. -/
def nearestMagnitude (d : Decimal) : Nat :=
  (nearest false d.digits d.exponent).magnitude

/-- The number `u / 2 ^ p` as a decimal. -/
def ofBinary (u p : Nat) : Decimal :=
  ⟨u * Nat.pow 5 p, -(p : Int)⟩

/-- The exact decimal of a finite magnitude. -/
def exact (magnitude : Nat) : Decimal :=
  ofBinary (units magnitude) places

/-- Of `exact.digits / grid` and one more as decimals, the nearer of those that tell the double. -/
def candidate? (magnitude : Nat) (exact : Decimal) (dropped : Nat) : Option Decimal :=
  let grid := Nat.pow 10 dropped
  let below : Decimal := ⟨exact.digits / grid, exact.exponent + dropped⟩
  let above : Decimal := ⟨exact.digits / grid + 1, exact.exponent + dropped⟩
  let nearer := roundHalfEven exact.digits grid
  let pair := if nearer = below.digits then [below, above] else [above, below]
  pair.find? fun d => nearestMagnitude d = magnitude

/-- The fewest digits that tell the double, or the exact decimal if seventeen do not. -/
def shortest (x : Double) : Decimal :=
  let exact := exact x.magnitude
  let length := (Nat.toDigits 10 exact.digits).length
  let found := (List.range 17).findSome? fun n => candidate? x.magnitude exact (length - (n + 1))
  found.getD exact

/-! ## The double that is told -/

theorem two_mul_le_log2 (u n : Nat) (hu : u ≠ 0) : 2 * n ≤ (u * Nat.pow 5 n).log2 := by
  have h5 : 0 < Nat.pow 5 n := Nat.pow_pos (by decide)
  refine (Nat.le_log2 (Nat.mul_ne_zero hu (Nat.ne_of_gt h5))).mpr ?_
  calc 2 ^ (2 * n) = 4 ^ n := by rw [Nat.pow_mul]
    _ ≤ Nat.pow 5 n := Nat.pow_le_pow_left (by decide) n
    _ ≤ u * Nat.pow 5 n := Nat.le_mul_of_pos_left _ (Nat.pos_of_ne_zero hu)

theorem units_eq_zero {magnitude : Nat} : units magnitude = 0 ↔ magnitude = 0 := by
  unfold units
  split
  · rfl
  · rename_i h
    have hnormal : 0 < normal := by decide
    rw [Nat.shiftLeft_eq_zero_iff]
    omega

theorem roundRatio_ofBinary (u p : Nat) :
    roundRatio (u * Nat.pow 5 p) (Nat.pow 10 p) = roundRatio u (1 <<< p) := by
  have h5 : 0 < Nat.pow 5 p := Nat.pow_pos (by decide)
  have hten : Nat.pow 10 p = Nat.pow 5 p * 1 <<< p := by
    rw [Nat.shiftLeft_eq, Nat.one_mul]
    exact Nat.mul_pow 5 2 p
  rw [hten, Nat.mul_comm u, roundRatio_mul_left _ _ h5]

/-- The decimal of a binary fraction other than zero is not cut short when it is read. -/
theorem nearestMagnitude_ofBinary {u p : Nat} (hu : u ≠ 0) (hp : 0 < p) (hp' : p ≤ 1080) :
    nearestMagnitude (ofBinary u p) = min (roundRatio u (1 <<< p)) infinity := by
  have h5 : 0 < Nat.pow 5 p := Nat.pow_pos (by decide)
  have hdigits : ¬ u * Nat.pow 5 p = 0 := Nat.mul_ne_zero hu (Nat.ne_of_gt h5)
  have hlarge : ¬ (400 : Int) ≤ -(p : Int) := by omega
  have hneg : ¬ (0 : Int) ≤ -(p : Int) := by omega
  have hsmall : ¬ (u * Nat.pow 5 p).log2 + 1080 < 3 * p := by
    have := two_mul_le_log2 u p hu
    omega
  simp only [nearestMagnitude, ofBinary, nearest, hdigits, hlarge, hneg, if_false, Int.neg_neg,
    Int.toNat_natCast, hsmall, ofRatio, ofMagnitude, roundRatio_ofBinary]

theorem nearestMagnitude_exact {magnitude : Nat} (h : magnitude < infinity) :
    nearestMagnitude (exact magnitude) = magnitude := by
  by_cases h0 : magnitude = 0
  · subst h0
    simp [nearestMagnitude, exact, ofBinary, nearest, units, normal, zero, ofMagnitude]
  · have hread := nearestMagnitude_ofBinary (mt units_eq_zero.mp h0)
      (show 0 < places by decide) (show places ≤ 1080 by decide)
    rw [← one, roundRatio_units, Nat.min_eq_left (Nat.le_of_lt h)] at hread
    exact hread

theorem nearest_shortest {x : Double} (h : x.isFinite = true) :
    nearestMagnitude x.shortest = x.magnitude := by
  simp only [shortest]
  generalize hfound : (List.range 17).findSome? _ = found
  cases found with
  | none => exact nearestMagnitude_exact (by simpa [isFinite] using h)
  | some d =>
    obtain ⟨n, -, hn⟩ := List.exists_of_findSome?_eq_some hfound
    simpa [candidate?] using List.find?_some hn

end Double

end Conform
