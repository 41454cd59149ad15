import Conform.Check.Rejection

/-!
# Leaves

One leaf schema against one value: first the kind of the value, then its size. The length of a
text is the number of its characters, and a number must be finite. A constant accepts equal values
only, and no bounds apply to it.
-/

namespace Conform

/-- Inclusive bounds on a count. -/
def Bounds.allows (bounds : Bounds UInt64) (n : Nat) : Bool :=
  bounds.min.all (·.toNat ≤ n) && bounds.max.all (n ≤ ·.toNat)

/-- Inclusive bounds on a number. -/
def Bounds.contain (bounds : Bounds Double) (x : Double) : Bool :=
  bounds.min.all (·.le x) && bounds.max.all x.le

/-- A constant accepts what is equal to it, so a NaN is never accepted. -/
def Constant.accepts : Constant → Value → Bool
  | string text, .string other => text == other
  | number x, .number y => x.equal y
  | _, _ => false

/-- A text of the wrong length. -/
def Bounds.checkText (bounds : Bounds UInt64) (text : String) : Option Code :=
  if bounds.allows text.length then none else some .invalidRange

/-- The code for which the leaf rejects the value, if it does. -/
def Leaf.reject? : Leaf → Value → Option Code
  | string length, .string text => length.checkText text
  | number range, .number x =>
    if x.isFinite then if range.contain x then none else some .invalidRange
    else some .invalidType
  | bigint, .bigInt _ => none
  | boolean, .bool _ => none
  | literal value, subject => if value.accepts subject then none else some .invalidType
  | _, _ => some .invalidType

namespace Schema

/-- What the node by itself says to a value, whatever it exempts. Nodes with schemas inside reject
every value here. -/
def verify : Schema → Value → Option Code
  | leaf _ l _, subject => l.reject? subject
  | _, _ => some .invalidType

/-- What a key schema says to a key. -/
def verifyKey (schema : Schema) (key : String) : Option Code :=
  match schema with
  | leaf _ (.string length) _ => length.checkText key
  | _ => some .invalidType

end Schema

end Conform
