import Conform.Double.Shortest

/-!
# Doubles as text

A double is written with the fewest digits that tell it. Between `10 ^ -5` and `10 ^ 16` the
digits stand around a point, with at least one digit on either side; otherwise one digit stands
before the point and a signed exponent follows, with no point when there is only one digit.
-/

namespace Conform.Double

/-- A decimal as its digits, without zeros at the end, and the exponent of the first of them. -/
def scientific (d : Decimal) : List Char × Int :=
  let all := Nat.toDigits 10 d.digits
  let significant := (all.reverse.dropWhile (· = '0')).reverse
  (if significant = [] then ['0'] else significant, d.exponent + all.length - 1)

/-- Digits around a point, the first of them with the exponent `e`. -/
def positional (digits : List Char) (e : Int) : List Char :=
  if e < 0 then '0' :: '.' :: List.replicate (-e - 1).toNat '0' ++ digits
  else
    let whole := e.toNat + 1
    digits.take whole ++ List.replicate (whole - digits.length) '0' ++ '.' ::
      (if digits.length ≤ whole then ['0'] else digits.drop whole)

/-- The first digit, the others behind a point, and the exponent. -/
def exponential (digits : List Char) (e : Int) : List Char :=
  let fraction := digits.drop 1
  digits.take 1 ++ (if fraction = [] then [] else '.' :: fraction) ++
    'e' :: (if e < 0 then '-' else '+') :: Nat.toDigits 10 e.natAbs

/-- The text of a finite double. -/
def text (x : Double) : String :=
  let (digits, e) := if x.magnitude = 0 then (['0'], 0) else scientific x.shortest
  let body := if -5 ≤ e ∧ e ≤ 15 then positional digits e else exponential digits e
  String.ofList (if x.negative then '-' :: body else body)

end Conform.Double
