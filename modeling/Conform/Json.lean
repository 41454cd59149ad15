import Conform.BigInt
import Conform.Double
import Conform.Entries

/-!
# JSON trees

A JSON value is a scalar, an array, or an object with its members in order. Numbers keep the form
in which they are written: an integer that a 64-bit word can hold, or a finite double. An object
may repeat a key, as a text may; `normalize` sorts every object by key and keeps the last of the
members that share one.
-/

namespace Conform

/-- An integer that a signed or an unsigned 64-bit word can hold. -/
structure Json.Integer where
  value : Int
  lower : -0x8000000000000000 ≤ value
  upper : value < 0x10000000000000000
deriving DecidableEq

/-- A value without parts. -/
inductive Json.Scalar where
  | null
  | bool (b : Bool)
  | integer (n : Json.Integer)
  | float (x : Double) (finite : x.isFinite = true)
  | string (text : String)
deriving DecidableEq

/-- A JSON value with the members of objects in the order of the text. -/
inductive Json where
  | scalar (s : Json.Scalar)
  | array (items : List Json)
  | object (members : List (String × Json))

namespace Json

def null : Json := .scalar .null

def bool (b : Bool) : Json := .scalar (.bool b)

def string (text : String) : Json := .scalar (.string text)

/-- The integer, if a signed or an unsigned 64-bit word can hold it. -/
def Integer.ofInt? (n : Int) : Option Integer :=
  if h : -0x8000000000000000 ≤ n ∧ n < 0x10000000000000000 then some ⟨n, h.1, h.2⟩ else none

/-- The integer that a signed word holds. -/
def Integer.ofInt64 (n : Int64) : Integer :=
  ⟨n.toInt, n.le_toInt, Int.lt_trans n.toInt_lt (by decide)⟩

/-- The integer that an unsigned word holds. -/
def Integer.ofUInt64 (n : UInt64) : Integer where
  value := n.toNat
  lower := Int.le_trans (by decide) (Int.natCast_nonneg _)
  upper := by
    have := n.toNat_lt
    omega

/-- A double that is not finite has no number in JSON. -/
def ofDouble (x : Double) : Json :=
  if h : x.isFinite = true then .scalar (.float x h) else null

/-- An unsigned word as a number of JSON. -/
def ofUInt64 (n : UInt64) : Json :=
  .scalar (.integer (.ofUInt64 n))

/-- A count, as an integer if a word can hold it and else as its digits. -/
def ofNat (n : Nat) : Json :=
  match Integer.ofInt? n with
  | some i => .scalar (.integer i)
  | none => string (BigInt.decimal n)

/-- A big integer that no 64-bit word can hold is a string of its digits. -/
def ofBigInt (n : BigInt) : Json :=
  match n.toInt64? with
  | some word => .scalar (.integer (.ofInt64 word))
  | none =>
    match n.toUInt64? with
    | some word => .scalar (.integer (.ofUInt64 word))
    | none => string n.toText

mutual

/-- The tree with all objects sorted by key, and one member for each key. -/
def normalize : Json → Json
  | .scalar s => .scalar s
  | .array items => .array (normalizeItems items)
  | .object members => .object (Entries.sorted (normalizeMembers members))

def normalizeItems : List Json → List Json
  | [] => []
  | item :: rest => normalize item :: normalizeItems rest

/-- The values of the members one by one; the members themselves are not sorted. -/
def normalizeMembers : List (String × Json) → List (String × Json)
  | [] => []
  | (key, value) :: rest => (key, normalize value) :: normalizeMembers rest

end

end Json

end Conform
