import Conform.Json
import Conform.Schema

/-!
# Literals from schemas

The literal of a schema is an object: `type`, then the keys of the kind in their fixed order, then
the shared keys. What is not set is left out. `toLiteral` keeps the order of the fields of an
object, and `toJson` sorts all keys.
-/

namespace Conform

namespace Literal

/-- A member that is there if it is set. -/
def member? (key : String) (value : Option Json) : List (String × Json) :=
  match value with
  | some value => [(key, value)]
  | none => []

/-- A flag is written only if it is set. -/
def flag? (key : String) (b : Bool) : List (String × Json) :=
  if b then [(key, .bool true)] else []

/-- A brand as an array of its two parts. -/
def brandJson (brand : Brand) : Json :=
  .array [.string brand.category, .string brand.subcategory]

/-- The bounds on a length that are set. -/
def lengthMembers (length : Bounds UInt64) : List (String × Json) :=
  member? "minLength" (length.min.map .ofUInt64) ++ member? "maxLength" (length.max.map .ofUInt64)

/-- The bounds on a number that are set. -/
def rangeMembers (range : Bounds Double) : List (String × Json) :=
  member? "min" (range.min.map .ofDouble) ++ member? "max" (range.max.map .ofDouble)

/-- A constant as a text or a number. -/
def constantJson : Constant → Json
  | .string text => .string text
  | .number x => .ofDouble x

/-- The keys of a leaf. -/
def leafMembers (leaf : Leaf) (brand : Option Brand) : List (String × Json) :=
  (match leaf with
    | .string length => lengthMembers length
    | .number range => rangeMembers range
    | .bigint | .boolean => []
    | .literal value => [("of", constantJson value)]) ++ member? "brand" (brand.map brandJson)

/-- The shared keys of a node. -/
def infoMembers (info : Info) : List (String × Json) :=
  flag? "optional" info.optional ++ flag? "nullable" info.nullable ++
    member? "description" (info.description.map .string)

/-- A node with the keys of its kind. -/
def nodeJson (kind : Kind) (own : List (String × Json)) (info : Info) : Json :=
  .object (("type", .string kind.name) :: own ++ infoMembers info)

end Literal

namespace Schema

open Literal

mutual

/-- The literal of a schema, with keys and fields in their order. -/
def toLiteral : Schema → Json
  | leaf info scalar brand => nodeJson scalar.kind (leafMembers scalar brand) info
  | array info element length =>
    nodeJson .array (("of", toLiteral element) :: lengthMembers length) info
  | tuple info positions => nodeJson .tuple [("of", .array (toLiterals positions))] info
  | object info fields => nodeJson .object [("of", .object (fieldLiterals fields))] info
  | record info value none => nodeJson .record [("of", toLiteral value)] info
  | record info value (some key) =>
    nodeJson .record [("of", toLiteral value), ("key", toLiteral key)] info
  | union info alternatives => nodeJson .union [("of", .array (toLiterals alternatives))] info

def toLiterals : List Schema → List Json
  | [] => []
  | schema :: rest => toLiteral schema :: toLiterals rest

def fieldLiterals : List (String × Schema) → List (String × Json)
  | [] => []
  | (name, schema) :: rest => (name, toLiteral schema) :: fieldLiterals rest

end

/-- The literal as a JSON value, in which all keys are sorted. -/
def toJson (schema : Schema) : Json :=
  schema.toLiteral.normalize

end Schema

end Conform
