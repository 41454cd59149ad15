import Conform.Text.Quoted

/-!
# Big integers

A big integer is kept as it is written: a sign and decimal digits. It is canonical when its digits
are those of a number, without zeros in front, and zero has no sign. `parse` and `ofInt` build
canonical ones only, so two of them are equal exactly when they denote the same integer (`toInt`).
-/

namespace Conform

/-- An integer of any size, as a sign and decimal digits. -/
structure BigInt where
  negative : Bool
  digits : List Char
deriving DecidableEq

/-- A text that is no integer. -/
structure BigInt.Malformed where
  text : String

/-- What a refused text is reported with. -/
def BigInt.Malformed.message (e : BigInt.Malformed) : String :=
  "invalid bigint literal: " ++ Text.quoted e.text

namespace BigInt

/-- One of the ten decimal digits. -/
def isDigit (c : Char) : Bool :=
  '0' ≤ c && c ≤ '9'

/-- The number that a digit stands for. -/
def digitValue (c : Char) : Nat :=
  c.toNat - '0'.toNat

/-- Zero, which has one digit and no sign. -/
def zero : BigInt := ⟨false, ['0']⟩

/-- Drops zeros in front, and the sign of zero. -/
def ofParts (negative : Bool) (digits : List Char) : BigInt :=
  match digits.dropWhile (· = '0') with
  | [] => zero
  | significant => ⟨negative, significant⟩

/-- The sign in front of digits, a plus or none counting as positive. -/
def splitSign : List Char → Bool × List Char
  | '-' :: rest => (true, rest)
  | '+' :: rest => (false, rest)
  | text => (false, text)

/-- A text is an integer if it is one or more digits after at most one sign. -/
def parse (text : String) : Except Malformed BigInt :=
  let (negative, digits) := splitSign text.toList
  if digits ≠ [] ∧ digits.all isDigit then .ok (ofParts negative digits)
  else .error ⟨text⟩

/-- The big integer of an integer, in its canonical form. -/
def ofInt (n : Int) : BigInt :=
  ofParts (n < 0) (Nat.toDigits 10 n.natAbs)

/-- A signed machine integer of any width. The magnitude is unsigned, so the least one has its. -/
def ofSigned {w : Nat} (n : BitVec w) : BigInt :=
  ofParts (n.slt 0) (Nat.toDigits 10 n.abs.toNat)

/-- An unsigned machine integer of any width. -/
def ofUnsigned {w : Nat} (n : BitVec w) : BigInt :=
  ofParts false (Nat.toDigits 10 n.toNat)

/-- Only the single digit zero counts, so this is meant for canonical big integers. -/
def isZero (n : BigInt) : Bool :=
  n.digits = ['0']

/-- The digits with a minus in front if there is one. -/
def toText (n : BigInt) : String :=
  String.ofList (if n.negative then '-' :: n.digits else n.digits)

/-- The decimal text of an integer. -/
def decimal (n : Int) : String :=
  (ofInt n).toText

/-! ## The integer that is denoted -/

/-- The number that decimal digits stand for, whether or not zeros stand in front. -/
def magnitude (digits : List Char) : Nat :=
  digits.foldl (fun n c => n * 10 + digitValue c) 0

/-- The integer that is denoted. -/
def toInt (n : BigInt) : Int :=
  if n.negative then -(magnitude n.digits : Int) else magnitude n.digits

/-- The integer as a signed 64-bit word, if it fits. -/
def toInt64? (n : BigInt) : Option Int64 :=
  if -0x8000000000000000 ≤ n.toInt ∧ n.toInt < 0x8000000000000000 then some (Int64.ofInt n.toInt)
  else none

/-- The integer as an unsigned 64-bit word, if it fits. -/
def toUInt64? (n : BigInt) : Option UInt64 :=
  if 0 ≤ n.toInt ∧ n.toInt < 0x10000000000000000 then some (UInt64.ofNat n.toInt.toNat) else none

end BigInt

end Conform
