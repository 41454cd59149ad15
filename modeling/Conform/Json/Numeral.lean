import Conform.Double.Scaled
import Conform.Json.Token
import Conform.Text.Glyph

/-!
# Numbers in JSON text

A number is read one glyph at a time. Its digits are kept as one number, the significand, as long as
a 64-bit word can hold it. A digit that does not fit is not looked at: before the point it only
counts as one more power of ten, and behind it it is passed over with all that follow. Whole digits
alone make an integer if a 64-bit word can hold it with its sign. Minus zero and all other numbers
are the significand times a power of ten (`Double.scaled`), and one that is not finite is out of
range.
-/

namespace Conform.Json

open Text

/-- What was read last. -/
inductive Numeral.Phase where
  | minus
  | leadingZero
  | whole
  /-- whole digits that no longer fit -/
  | surplus
  | point
  | fraction
  /-- fraction digits that no longer fit -/
  | remainder
  | exponentMark
  | exponentSign
  | exponent
deriving DecidableEq

/-- What has been read of a number. -/
structure Numeral where
  phase : Numeral.Phase
  negative : Bool
  significand : Nat
  /-- the power of ten that the place of the point makes -/
  shift : Int
  exponentNegative : Bool
  exponent : Nat

namespace Numeral

/-- A sign, or a first digit. -/
def start (phase : Phase) (negative : Bool) (digit : Nat) : Numeral :=
  ⟨phase, negative, digit, 0, false, 0⟩

/-- The least number that a 64-bit word cannot hold. -/
def wordLimit : Nat := 0x10000000000000000

/-- The largest exponent that is taken as it stands. -/
def maxExponent : Nat := 0x7fffffff

/-- The value of a decimal digit. -/
def digit? : Glyph → Option Nat
  | some c => if BigInt.isDigit c then some (BigInt.digitValue c) else none
  | none => none

/-- What a further glyph does to a number. -/
inductive Extension where
  | more (n : Numeral)
  | ended
  | invalid

/-- A further digit before the point. -/
def wholeDigit (n : Numeral) (d : Nat) : Numeral :=
  if n.phase ≠ .surplus ∧ n.significand * 10 + d < wordLimit then
    { n with phase := .whole, significand := n.significand * 10 + d }
  else { n with phase := .surplus, shift := n.shift + 1 }

/-- A further digit behind the point. -/
def fractionDigit (n : Numeral) (d : Nat) : Numeral :=
  if n.phase ≠ .remainder ∧ n.significand * 10 + d < wordLimit then
    { n with phase := .fraction, significand := n.significand * 10 + d, shift := n.shift - 1 }
  else { n with phase := .remainder }

/-- A further digit of the exponent. -/
def exponentDigit (n : Numeral) (d : Nat) : Numeral :=
  { n with phase := .exponent, exponent := n.exponent * 10 + d }

/-- A point or an exponent may follow the digits of a whole number. -/
def afterWhole (n : Numeral) (g : Glyph) : Extension :=
  if g = some '.' then .more { n with phase := .point }
  else if g = some 'e' ∨ g = some 'E' then .more { n with phase := .exponentMark }
  else .ended

/-- A number and the glyph that follows. -/
def extend (n : Numeral) (g : Glyph) : Extension :=
  match n.phase, digit? g with
  | .minus, some d =>
    .more { n with phase := if d = 0 then .leadingZero else .whole, significand := d }
  | .minus, none => .invalid
  | .leadingZero, some _ => .invalid
  | .leadingZero, none => afterWhole n g
  | .whole, some d | .surplus, some d => .more (wholeDigit n d)
  | .whole, none | .surplus, none => afterWhole n g
  | .point, some d | .fraction, some d | .remainder, some d => .more (fractionDigit n d)
  | .point, none => .invalid
  | .fraction, none | .remainder, none =>
    if g = some 'e' ∨ g = some 'E' then .more { n with phase := .exponentMark } else .ended
  | .exponentMark, some d => .more (exponentDigit n d)
  | .exponentMark, none =>
    if g = some '+' then .more { n with phase := .exponentSign }
    else if g = some '-' then .more { n with phase := .exponentSign, exponentNegative := true }
    else .invalid
  | .exponentSign, some d => .more (exponentDigit n d)
  | .exponentSign, none => .invalid
  | .exponent, some d => .more (exponentDigit n d)
  | .exponent, none => .ended

/-- The number may end here. -/
def isComplete (n : Numeral) : Bool :=
  match n.phase with
  | .leadingZero | .whole | .surplus | .fraction | .remainder | .exponent => true
  | .minus | .point | .exponentMark | .exponentSign => false

/-- The integer that the digits stand for, when there is neither point nor exponent. -/
def integer? (n : Numeral) : Option Integer :=
  match n.phase with
  | .leadingZero | .whole =>
    if n.negative then
      if n.significand = 0 then none else Integer.ofInt? (-(n.significand : Int))
    else Integer.ofInt? n.significand
  | _ => none

/-- The exponent with its sign. -/
def signedExponent (n : Numeral) : Int :=
  if n.exponentNegative then -(n.exponent : Int) else n.exponent

/-- The number without its sign. An exponent that is too large makes zero or infinity, whatever the
digits before it. -/
def unsigned (n : Numeral) : Double :=
  if n.exponent ≤ maxExponent then .scaled n.significand (n.shift + n.signedExponent)
  else if n.significand = 0 ∨ n.exponentNegative = true then .zero false
  else .ofMagnitude false Double.infinity

/-- The number as a double, infinite if it is out of range. -/
def toDouble (n : Numeral) : Double :=
  { n.unsigned with negative := n.negative }

/-- The scalar that has been read. -/
def value (n : Numeral) : Except Fault Scalar :=
  match n.integer? with
  | some i => .ok (.integer i)
  | none =>
    if h : n.toDouble.isFinite = true then .ok (.float n.toDouble h) else .error .numberOutOfRange

end Numeral

end Conform.Json
