/-!
# Doubles

A double is its 64 bits: a sign, and the other 63 bits read as one number, the magnitude. Within
one sign a larger magnitude is a larger double, the infinities have the magnitude `infinity`, and
what lies above it is not a number. So comparing doubles is comparing integers (`rank`), and no
floating-point operation is needed.

`equal` and `le` are the comparisons of floating-point numbers: a NaN is not equal to itself, and
the two zeros are equal. Lean's `=` tells all bit patterns apart.

* `equal_self`: exactly the NaNs differ from themselves.
* `equal_comm`, `equal_trans`.
* `isFinite_of_equal`: equal doubles are both finite or both not.
-/

namespace Conform

/-- The bits of a double, those behind the sign read as one number. -/
structure Double where
  negative : Bool
  magnitude : Nat
  magnitude_lt : magnitude < 0x8000000000000000
deriving DecidableEq

namespace Double

/-- The magnitude of the infinities: all exponent bits set, all others clear. -/
def infinity : Nat := 0x7ff0000000000000

/-- What lies above the infinities is not a number. -/
def isNaN (x : Double) : Bool :=
  infinity < x.magnitude

/-- Neither infinite nor a NaN. -/
def isFinite (x : Double) : Bool :=
  x.magnitude < infinity

/-- Position on the number line. The two zeros share rank 0. -/
def rank (x : Double) : Int :=
  if x.negative then -(x.magnitude : Int) else x.magnitude

/-- Equality of floating-point numbers. -/
def equal (x y : Double) : Bool :=
  !x.isNaN && !y.isNaN && x.rank == y.rank

/-- The order of floating-point numbers; a NaN is not comparable to anything. -/
def le (x y : Double) : Bool :=
  !x.isNaN && !y.isNaN && decide (x.rank ≤ y.rank)

/-! ## Bits -/

/-- The double of a 64-bit word. -/
def ofBits (bits : UInt64) : Double where
  negative := bits.toNat / 0x8000000000000000 = 1
  magnitude := bits.toNat % 0x8000000000000000
  magnitude_lt := Nat.mod_lt _ (by decide)

/-- The word that holds the double. -/
def toBits (x : Double) : UInt64 :=
  UInt64.ofNat ((if x.negative then 0x8000000000000000 else 0) + x.magnitude)

/-- Sign and magnitude; magnitudes above infinity become infinity. -/
def ofMagnitude (negative : Bool) (magnitude : Nat) : Double where
  negative := negative
  magnitude := min magnitude infinity
  magnitude_lt := Nat.lt_of_le_of_lt (Nat.min_le_right _ _) (by decide)

/-- Zero with its sign. -/
def zero (negative : Bool) : Double :=
  ofMagnitude negative 0

/-- The NaN that computations yield. -/
def nan : Double where
  negative := false
  magnitude := 0x7ff8000000000000
  magnitude_lt := by decide

/-! ## Comparison -/

/-- Numbers are equal when they stand at one place of the line; what is no number equals nothing. -/
theorem equal_iff {x y : Double} :
    x.equal y = true ↔ x.isNaN = false ∧ y.isNaN = false ∧ x.rank = y.rank := by
  simp [equal, and_assoc]

/-- Numbers are ordered by their places on the line; what is no number is not ordered. -/
theorem le_iff {x y : Double} :
    x.le y = true ↔ x.isNaN = false ∧ y.isNaN = false ∧ x.rank ≤ y.rank := by
  simp [le, and_assoc]

theorem equal_self {x : Double} : x.equal x = true ↔ x.isNaN = false := by
  simp [equal_iff]

theorem equal_comm (x y : Double) : x.equal y = y.equal x := by
  rw [Bool.eq_iff_iff, equal_iff, equal_iff]
  exact ⟨fun ⟨hx, hy, h⟩ => ⟨hy, hx, h.symm⟩, fun ⟨hy, hx, h⟩ => ⟨hx, hy, h.symm⟩⟩

theorem equal_trans {x y z : Double} (hxy : x.equal y = true) (hyz : y.equal z = true) :
    x.equal z = true := by
  rw [equal_iff] at *
  exact ⟨hxy.1, hyz.2.1, hxy.2.2.trans hyz.2.2⟩

theorem magnitude_eq_natAbs_rank (x : Double) : x.magnitude = x.rank.natAbs := by
  unfold rank
  split <;> omega

theorem isFinite_of_equal {x y : Double} (h : x.equal y = true) : x.isFinite = y.isFinite := by
  rw [equal_iff] at h
  simp [isFinite, magnitude_eq_natAbs_rank, h.2.2]

end Double

end Conform
