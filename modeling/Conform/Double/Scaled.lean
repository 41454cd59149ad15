import Conform.Double.Rounding

/-!
# Digits times a power of ten

The digits are rounded to a double, and this double is multiplied or divided by a power of ten,
which is a double as well. Each of the steps rounds, so the outcome is near the decimal but need not
be the double nearest to it: `0.09939026791527539` comes out one unit in the last place too high.

Powers go up to `10 ^ 308`. A larger one is out of range unless there is nothing to multiply, and a
smaller one is reached by dividing by `10 ^ 308` first.
-/

namespace Conform.Double

/-- The product of two finite doubles. -/
def mul (x y : Double) : Double :=
  ofRatio (x.negative != y.negative) (units x.magnitude * units y.magnitude) (one * one)

/-- The quotient of two finite doubles, the second one not zero. -/
def div (x y : Double) : Double :=
  ofRatio (x.negative != y.negative) (units x.magnitude) (units y.magnitude)

/-- The exponent of the largest power of ten among the doubles. -/
def largestPower : Nat := 308

/-- The double nearest to a power of ten. -/
def powerOfTen (e : Nat) : Double :=
  ofRatio false (Nat.pow 10 e) 1

/-- Divided by the largest power so many times, or until nothing is left. -/
def shrink (x : Double) : Nat → Double
  | 0 => x
  | n + 1 => if x.magnitude = 0 then x else shrink (x.div (powerOfTen largestPower)) n

/-- The digits times a power of ten; infinity if that is out of range. -/
def scaled (digits : Nat) (exponent : Int) : Double :=
  let x := ofInt digits
  if exponent < 0 then
    let e := (-exponent).toNat
    let rounds := (e - 1) / largestPower
    (shrink x rounds).div (powerOfTen (e - rounds * largestPower))
  else if exponent ≤ largestPower then x.mul (powerOfTen exponent.toNat)
  else if x.magnitude = 0 then x
  else ofMagnitude false infinity

end Conform.Double
