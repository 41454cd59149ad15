import Conform.Check.Path
import Conform.Schema.Equality
import Conform.Schema.Literal.Encode
import Conform.Value.Equality
import Conform.Value.Export

/-!
# Rejections

A rejection says which part of a schema refused which part of a value, where, and whether the
value had the wrong shape or only the wrong size.
-/

namespace Conform

/-- Whether a value had the wrong shape or only the wrong size. -/
inductive Code where
  /-- The value is not of the kind that the node asks for. -/
  | invalidType
  /-- The value is of that kind and out of bounds. -/
  | invalidRange
deriving DecidableEq

/-- The name by which a code is reported. -/
def Code.text : Code → String
  | invalidType => "INVALID_TYPE"
  | invalidRange => "INVALID_RANGE"

/-- The code, where the refused part stands, and the part of the schema that refused it. -/
structure Rejection where
  code : Code
  path : Path
  schema : Schema
  subject : Value

namespace Rejection

/-- The path as a message shows it. -/
def place (path : Path) : String :=
  if path.isRoot then "(root)" else path.pointer

/-- A line about the rejection; it names the kinds and does not show the value. -/
def message (r : Rejection) : String :=
  r.code.text ++ " at " ++ place r.path ++ ": " ++ r.schema.kind.name ++ " schema rejected " ++
    r.subject.kindName ++ " value"

/-- The messages of a list, one a line. -/
def report (rejections : List Rejection) : String :=
  String.intercalate "\n" (rejections.map message)

/-- The rejection as a JSON object, with the schema as its literal. -/
def toJson (r : Rejection) : Json :=
  .object [("code", .string r.code.text), ("path", r.path.toJson),
    ("schema", r.schema.toLiteral), ("subject", r.subject.encode.toJson)]

/-- The list as JSON, all objects in it sorted by key. -/
def listToJson (rejections : List Rejection) : Json :=
  (Json.array (rejections.map toJson)).normalize

/-- Rejections are compared as values and schemas are, so one with a NaN is not equal to itself. -/
def equal (r r' : Rejection) : Bool :=
  r.code == r'.code && r.path == r'.path && r.schema.equal r'.schema && r.subject.equal r'.subject

/-- Lists are equal one by one. -/
def equalList : List Rejection → List Rejection → Bool
  | [], [] => true
  | r :: rest, r' :: rest' => equal r r' && equalList rest rest'
  | _, _ => false

end Rejection

end Conform
