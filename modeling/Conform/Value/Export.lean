import Conform.Double.Rounding
import Conform.Json
import Conform.Value

/-!
# Values and JSON

`toJson` is the tree of a value: an entry with nothing under it is left out, while an absent item
and an absent value become null, as do numbers that are not finite. A big integer is an integer if
a 64-bit word can hold it and otherwise a string of its digits.

A value can also be handed to an encoder piece by piece. `Encoded` is what the encoder receives,
where each container announces how much it will hold; `encode` says what a value hands over, and
`Encoded.toJson` is the tree that an encoder for JSON makes of it, with members in the order in
which they arrive.

`ofJson` reads a tree back; all numbers become doubles.
-/

namespace Conform

/-- What an encoder receives. -/
inductive Encoded where
  | unit
  | bool (b : Bool)
  | signed (n : Int64)
  | unsigned (n : UInt64)
  | float (x : Double)
  | text (text : String)
  | items (announced : Nat) (items : List Encoded)
  | entries (announced : Nat) (entries : List (String × Encoded))

namespace Encoded

mutual

/-- The tree of what an encoder has received. -/
def toJson : Encoded → Json
  | unit => .null
  | bool b => .bool b
  | signed n => .scalar (.integer (.ofInt64 n))
  | unsigned n => .scalar (.integer (.ofUInt64 n))
  | float x => .ofDouble x
  | text t => .string t
  | items _ list => .array (itemsToJson list)
  | entries _ list => .object (entriesToJson list)

def itemsToJson : List Encoded → List Json
  | [] => []
  | item :: rest => toJson item :: itemsToJson rest

/-- The trees of the entries under their keys. -/
def entriesToJson : List (String × Encoded) → List (String × Json)
  | [] => []
  | (key, value) :: rest => (key, toJson value) :: entriesToJson rest

end

end Encoded

namespace Value

/-! ## Export -/

mutual

/-- The tree of a value. -/
def toJson : Value → Json
  | absent | null => .null
  | bool b => .bool b
  | number x => .ofDouble x
  | bigInt n => .ofBigInt n
  | string text => .string text
  | sequence items => .array (itemsToJson items)
  | mapping entries => .object (Entries.sorted (entriesToJson entries))

/-- The trees of the items; an absent one becomes null. -/
def itemsToJson : List Value → List Json
  | [] => []
  | item :: rest => toJson item :: itemsToJson rest

/-- The trees of the entries, without those that have nothing under them. -/
def entriesToJson : List (String × Value) → List (String × Json)
  | [] => []
  | (key, value) :: rest =>
    if value.isAbsent then entriesToJson rest else (key, toJson value) :: entriesToJson rest

end

/-- A big integer is handed over as a word if one can hold it. -/
def encodeBigInt (n : BigInt) : Encoded :=
  match n.toInt64?, n.toUInt64? with
  | some word, _ => .signed word
  | none, some word => .unsigned word
  | none, none => .text n.toText

mutual

/-- What a value hands over to an encoder. -/
def encode : Value → Encoded
  | absent | null => .unit
  | bool b => .bool b
  | number x => if x.isFinite then .float x else .unit
  | bigInt n => encodeBigInt n
  | string text => .text text
  | sequence items => .items items.length (encodeItems items)
  | mapping entries =>
    .entries (entries.countP fun entry => !entry.2.isAbsent) (encodeEntries entries)

def encodeItems : List Value → List Encoded
  | [] => []
  | item :: rest => encode item :: encodeItems rest

/-- What the entries hand over, without those that have nothing under them. -/
def encodeEntries : List (String × Value) → List (String × Encoded)
  | [] => []
  | (key, value) :: rest =>
    if value.isAbsent then encodeEntries rest else (key, encode value) :: encodeEntries rest

end

/-! ## Import -/

/-- The value of a scalar; every number becomes a double. -/
def ofScalar : Json.Scalar → Value
  | .null => null
  | .bool b => bool b
  | .integer n => number (.ofInt n.value)
  | .float x _ => number x
  | .string text => string text

mutual

/-- The value of a tree. -/
def ofJson : Json → Value
  | .scalar s => ofScalar s
  | .array items => sequence (itemsOfJson items)
  | .object members => mapping (entriesOfJson members)

def itemsOfJson : List Json → List Value
  | [] => []
  | item :: rest => ofJson item :: itemsOfJson rest

/-- The values of the members under their keys. -/
def entriesOfJson : List (String × Json) → List (String × Value)
  | [] => []
  | (key, value) :: rest => (key, ofJson value) :: entriesOfJson rest

end

end Value

end Conform
