import Conform.Json

/-!
# Paths

A path leads from a value to one of its parts, a key or an index at each step. Its pointer is the
text of the steps with a slash in front of each; in a key a tilde is written `~0` and a slash `~1`,
so that every pointer can be taken apart again. The path to the value itself has the empty pointer.
-/

namespace Conform

/-- One step into a value. -/
inductive Segment where
  | key (name : String)
  | index (i : Nat)
deriving DecidableEq

/-- The steps from a value to one of its parts, the outermost first. -/
abbrev Path := List Segment

/-- The key itself, or the index in digits. -/
def Segment.text : Segment → String
  | key name => name
  | index i => BigInt.decimal i

/-- The text with a replacement for every occurrence of a character. -/
def Segment.replace (c : Char) (replacement text : List Char) : List Char :=
  text.flatMap fun other => if other = c then replacement else [other]

/-- Tildes are replaced first, so that only those of the text itself are. -/
def Segment.escaped (text : List Char) : List Char :=
  replace '/' ['~', '1'] (replace '~' ['~', '0'] text)

/-- A slash and the text, in which a key is escaped. -/
def Segment.pointer : Segment → List Char
  | key name => '/' :: escaped name.toList
  | index i => '/' :: (BigInt.decimal i).toList

namespace Path

/-- The text of the whole path. -/
def pointer (path : Path) : String :=
  String.ofList (path.flatMap Segment.pointer)

/-- The path to the value itself. -/
def isRoot (path : Path) : Bool :=
  path.isEmpty

/-- The path as an array of texts and numbers. -/
def toJson (path : Path) : Json :=
  .array <| path.map fun
    | .key name => .string name
    | .index i => .ofNat i

end Path

end Conform
