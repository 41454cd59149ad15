import Conform.Json.Scan

/-!
# Trees from tokens

The containers that a token stream has opened and not yet closed are kept on a stack of frames,
innermost first, each with what it holds so far. `ofStream` builds the tree of the whole text with
members in text order and repeated keys kept; `ofText` and `ofBytes` sort them.
-/

namespace Conform.Json

/-- An open container; items and members stand last first. -/
inductive Frame where
  | array (items : List Json)
  | object (members : List (String × Json))
  /-- an object with a key whose value is due -/
  | member (members : List (String × Json)) (key : String)

/-- Where the reader of a tree stands after a token. -/
inductive Progress where
  | pending (frames : List Frame)
  | complete (tree : Json)

/-- A value is finished and goes into the innermost container. -/
def place (tree : Json) : List Frame → Progress
  | [] => .complete tree
  | .array items :: outer => .pending (.array (tree :: items) :: outer)
  | .member members key :: outer => .pending (.object ((key, tree) :: members) :: outer)
  | .object members :: outer => .pending (.object members :: outer)

/-- The innermost container is complete. -/
def closeFrame : List Frame → Progress
  | [] => .complete null
  | .array items :: outer => place (.array items.reverse) outer
  | .object members :: outer | .member members _ :: outer => place (.object members.reverse) outer

/-- A key has been read, and its value is due in the innermost object. -/
def setKey (key : String) : List Frame → Progress
  | .object members :: outer | .member members _ :: outer => .pending (.member members key :: outer)
  | frames => .pending frames

/-- What a token does to the open containers. -/
def feed (frames : List Frame) : Token → Progress
  | .scalar s => place (.scalar s) frames
  | .openArray => .pending (.array [] :: frames)
  | .openObject => .pending (.object [] :: frames)
  | .key key => setKey key frames
  | .close => closeFrame frames

/-- The tree of the tokens, if nothing follows it. -/
def ofStream (frames : List Frame) : Stream → Except Fault Json
  | .done => .error .endInValue
  | .fault f => .error f
  | .next token rest =>
    match feed frames token with
    | .pending frames => ofStream frames rest
    | .complete tree => rest.finish.map fun _ => tree

/-- The tree of a text, objects sorted by key. -/
def ofGlyphs (text : List Text.Glyph) : Except Fault Json :=
  (ofStream [] (tokens text)).map normalize

/-- The tree of a text, objects sorted by key. -/
def ofText (text : String) : Except Fault Json :=
  ofGlyphs (Text.glyphs text)

/-- The tree of a text in bytes, objects sorted by key. -/
def ofBytes (bytes : ByteArray) : Except Fault Json :=
  ofGlyphs (Text.glyphsOfBytes bytes)

end Conform.Json
