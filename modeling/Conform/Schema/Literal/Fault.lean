import Conform.Double.Notation
import Conform.Json.Token
import Conform.Schema
import Conform.Text.Quoted

/-!
# What is wrong with a schema literal

The causes for which a literal is refused, and their wording.
-/

namespace Conform

/-- What a reader sees where a value begins. -/
inductive Sight where
  | scalar (s : Json.Scalar)
  | array
  | object

/-- What a reader sees of a tree before it reads what is inside. -/
def Json.sight : Json → Sight
  | .scalar s => .scalar s
  | .array _ => .array
  | .object _ => .object

/-- What was found, in the words of a message. -/
def Sight.text : Sight → String
  | scalar .null => "null"
  | scalar (.bool true) => "boolean `true`"
  | scalar (.bool false) => "boolean `false`"
  | scalar (.integer n) => "integer `" ++ BigInt.decimal n.value ++ "`"
  | scalar (.float x _) => "floating point `" ++ x.text ++ "`"
  | scalar (.string text) => "string " ++ Text.quoted text
  | array => "sequence"
  | object => "map"

/-- What should stand there. -/
inductive Wanted where
  | node
  | flag
  | text
  | length
  | number
  | brand
  | nodes
  | fields
  | tag

/-- What was expected, in the words of a message. -/
def Wanted.phrase : Wanted → String
  | node => "struct SchemaLiteral"
  | flag => "a boolean"
  | text => "a string"
  | length => "usize"
  | number => "f64"
  | brand => "tuple struct Brand"
  | nodes => "a sequence"
  | fields => "a map"
  | tag => "variant identifier"

/-- Why a literal is refused. -/
inductive LiteralFault where
  | json (f : Json.Fault)
  | wrongType (found : Sight) (wanted : Wanted)
  | negativeLength (n : Int)
  | tagOutOfRange (n : Int)
  | unknownKind (name : String)
  | unknownKey (key : String) (allowed : List String)
  | duplicateKey (key : String)
  | missingKey (key : String)
  | brandTooShort (count : Nat)
  | brandTooLong (count : Nat)
  | notConstant
  | defect (d : Schema.Defect)

namespace LiteralFault

/-- A name as a message shows it. -/
def ticked (name : String) : String :=
  "`" ++ name ++ "`"

/-- One name, one of two, or one of many. -/
def oneOf : List String → String
  | [name] => ticked name
  | [first, second] => ticked first ++ " or " ++ ticked second
  | names => "one of " ++ String.intercalate ", " (names.map ticked)

/-- What is wrong, without saying that it is about a literal. -/
def detail : LiteralFault → String
  | json f => f.message
  | wrongType found wanted => "invalid type: " ++ found.text ++ ", expected " ++ wanted.phrase
  | negativeLength n => "invalid value: integer " ++ ticked (BigInt.decimal n) ++ ", expected usize"
  | tagOutOfRange n =>
    "invalid value: integer " ++ ticked (BigInt.decimal n) ++ ", expected variant index 0 <= i < 10"
  | unknownKind name =>
    "unknown variant " ++ ticked name ++ ", expected " ++ oneOf (Kind.all.map Kind.name)
  | unknownKey key allowed => "unknown field " ++ ticked key ++ ", expected " ++ oneOf allowed
  | duplicateKey key => "duplicate field " ++ ticked key
  | missingKey key => "missing field " ++ ticked key
  | brandTooShort count =>
    "invalid length " ++ BigInt.decimal count ++ ", expected tuple struct Brand with 2 elements"
  | brandTooLong count =>
    "invalid length " ++ BigInt.decimal count ++ ", expected 2 elements in sequence"
  | notConstant => "data did not match any variant of untagged enum LiteralValue"
  | defect d => d.message

/-- What the fault is reported with. -/
def message (fault : LiteralFault) : String :=
  "invalid schema literal: " ++ fault.detail

end LiteralFault

end Conform
