import Conform.Double.Notation
import Conform.Json
import Conform.Text.Quoted

/-!
# JSON as text

Compact text: no blanks, members in their order. In a string the quote, the backslash and the
controls are escaped, the latter by a letter or by two hexadecimal digits; all else is written as
it is.
-/

namespace Conform.Json

/-- A control character as the four hexadecimal digits of its number. -/
def escapedControl (n : Nat) : List Char :=
  let digits := Text.hexDigits n
  ['\\', 'u', '0', '0'] ++ List.replicate (2 - digits.length) '0' ++ digits

/-- A character of a string as it is written between the quotes. -/
def escaped (c : Char) : List Char :=
  if c = '"' then ['\\', '"']
  else if c = '\\' then ['\\', '\\']
  else if c = '\x08' then ['\\', 'b']
  else if c = '\x0c' then ['\\', 'f']
  else if c = '\n' then ['\\', 'n']
  else if c = '\r' then ['\\', 'r']
  else if c = '\t' then ['\\', 't']
  else if c.toNat < 0x20 then escapedControl c.toNat
  else [c]

/-- A text between quotes. -/
def renderString (text : String) : List Char :=
  '"' :: text.toList.flatMap escaped ++ ['"']

/-- The text of a scalar. -/
def Scalar.render : Scalar → List Char
  | .null => ['n', 'u', 'l', 'l']
  | .bool true => ['t', 'r', 'u', 'e']
  | .bool false => ['f', 'a', 'l', 's', 'e']
  | .integer n => (BigInt.decimal n.value).toList
  | .float x _ => x.text.toList
  | .string text => renderString text

/-- Texts with commas between them. -/
def commas : List (List Char) → List Char
  | [] => []
  | [text] => text
  | text :: rest => text ++ ',' :: commas rest

mutual

/-- The text of a tree, without blanks and with members in their order. -/
def renderChars : Json → List Char
  | .scalar s => s.render
  | .array items => '[' :: commas (renderItems items) ++ [']']
  | .object members => '\x7b' :: commas (renderMembers members) ++ ['\x7d']

def renderItems : List Json → List (List Char)
  | [] => []
  | item :: rest => renderChars item :: renderItems rest

/-- The texts of the members, each a key, a colon and a value. -/
def renderMembers : List (String × Json) → List (List Char)
  | [] => []
  | (key, value) :: rest => (renderString key ++ ':' :: renderChars value) :: renderMembers rest

end

/-- The text of a tree as a string. -/
def render (tree : Json) : String :=
  String.ofList (renderChars tree)

end Conform.Json
