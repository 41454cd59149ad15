import Conform.Json.Read
import Conform.Json.Render
import Conform.Schema.Literal.Decode
import Conform.Schema.Literal.Encode

/-!
# Literals as text

The outermost node of a literal is read while its text is scanned: a shared key is looked at as
soon as its value begins, so a fault there comes before any later fault of the text. The value of
every other key is read as a whole, and the node is completed at the end of its object. Only then
may it matter that something follows.
-/

namespace Conform

namespace Literal

open Json (Frame Stream Token)

/-- How far the outermost node has been read; `others` holds the members that no shared key names,
last first. -/
inductive Reading where
  | members (header : Header) (others : List (String × Json))
  | shared (header : Header) (others : List (String × Json)) (m : Shared)
  | value (header : Header) (others : List (String × Json)) (key : String) (frames : List Frame)

/-- Where the reader of the outermost node stands after a token. -/
inductive Outcome where
  | pending (reading : Reading)
  | complete (schema : Schema)

/-- What a reader sees at a token that begins a value. -/
def sightOf : Token → Sight
  | .scalar s => .scalar s
  | .openArray => .array
  | .openObject | .key _ | .close => .object

/-- The end of the node: its kind and the keys of that kind. -/
def endNode (header : Header) (others : List (String × Json)) : Except LiteralFault Schema := do
  let members := others.reverse
  let kind ← findKind members none
  let body ← body kind members .empty
  complete header.info kind body

/-- What a token does to the outermost node. -/
def readToken (token : Token) : Reading → Except LiteralFault Outcome
  | .members header others =>
    match token with
    | .key key =>
      match Shared.ofName? key with
      | some m => do
        header.declare m
        return .pending (.shared header others m)
      | none => return .pending (.value header others key [])
    | _ => do return .complete (← endNode header others)
  | .shared header others m => do
    let header ← header.assign m (sightOf token)
    return .pending (.members header others)
  | .value header others key frames =>
    match Json.feed frames token with
    | .pending frames => return .pending (.value header others key frames)
    | .complete tree => return .pending (.members header ((key, tree) :: others))

/-- The outermost node from the tokens that are left; no token may follow it. -/
def readNode (reading : Reading) : Stream → Except LiteralFault Schema
  | .done => .error (.json .endInObject)
  | .fault f => .error (.json f)
  | .next token rest => do
    match ← readToken token reading with
    | .pending reading => readNode reading rest
    | .complete schema =>
      match rest.finish with
      | .error f => .error (.json f)
      | .ok () => .ok schema

/-- A literal is an object, and nothing else is looked at. -/
def readLiteral : Stream → Except LiteralFault Schema
  | .next .openObject rest => readNode (.members .empty []) rest
  | .next token _ => .error (.wrongType (sightOf token) .node)
  | .fault f => .error (.json f)
  | .done => .error (.json .endInValue)

end Literal

namespace Schema

/-- The schema that the text of a literal describes; its fields keep the order of the text. -/
def ofText (text : String) : Except LiteralFault Schema :=
  Literal.readLiteral (Json.tokens (Text.glyphs text))

/-- The literal of a schema as text, with fields in the order of their declaration. -/
def toText (schema : Schema) : String :=
  schema.toLiteral.render

end Schema

end Conform
