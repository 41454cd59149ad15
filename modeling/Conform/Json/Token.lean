import Conform.Json

/-!
# JSON tokens

Text is read as a stream of tokens that ends well or in the first fault of the text. A consumer
that stops at a token of its own accord therefore never sees a fault that stands later.
-/

namespace Conform.Json

/-- A unit of the text: a scalar, a key, or the beginning or the end of a container. -/
inductive Token where
  | scalar (s : Scalar)
  | openArray
  | openObject
  | key (name : String)
  | close

/-- What is wrong with a JSON text. -/
inductive Fault where
  | endInValue
  | endInString
  | endInArray
  | endInObject
  | expectedValue
  | expectedWord
  | expectedCommaOrBracket
  | expectedCommaOrBrace
  | expectedColon
  | invalidNumber
  | numberOutOfRange
  | invalidEscape
  | unfinishedSurrogatePair
  | loneSurrogate
  | controlCharacter
  | invalidUnicode
  | keyNotString
  | trailingComma
  | trailingCharacters
  | tooDeep
deriving DecidableEq

/-- How a fault is reported, without the place in the text. -/
def Fault.message : Fault → String
  | .endInValue => "EOF while parsing a value"
  | .endInString => "EOF while parsing a string"
  | .endInArray => "EOF while parsing a list"
  | .endInObject => "EOF while parsing an object"
  | .expectedValue => "expected value"
  | .expectedWord => "expected ident"
  | .expectedCommaOrBracket => "expected `,` or `]`"
  | .expectedCommaOrBrace => "expected `,` or `\x7d`"
  | .expectedColon => "expected `:`"
  | .invalidNumber => "invalid number"
  | .numberOutOfRange => "number out of range"
  | .invalidEscape => "invalid escape"
  | .unfinishedSurrogatePair => "unexpected end of hex escape"
  | .loneSurrogate => "lone leading surrogate in hex escape"
  | .controlCharacter => "control character (\\u0000-\\u001F) found while parsing a string"
  | .invalidUnicode => "invalid unicode code point"
  | .keyNotString => "key must be a string"
  | .trailingComma => "trailing comma"
  | .trailingCharacters => "trailing characters"
  | .tooDeep => "recursion limit exceeded"

/-- The tokens of a text up to its end or its first fault. -/
inductive Stream where
  | done
  | fault (f : Fault)
  | next (token : Token) (rest : Stream)

namespace Stream

/-- The tokens in front of the stream. -/
def after (tokens : List Token) (rest : Stream) : Stream :=
  tokens.foldr .next rest

/-- Nothing may follow. -/
def finish : Stream → Except Fault Unit
  | .done => .ok ()
  | .fault f => .error f
  | .next _ _ => .error .trailingCharacters

end Stream

end Conform.Json
