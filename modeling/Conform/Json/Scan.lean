import Conform.Json.Numeral

/-!
# Scanning JSON text

`scan` reads glyphs from left to right and emits the tokens of the text. It knows which containers
are open, innermost first, and what it is in the middle of (`Mode`); every step takes one glyph.
The grammar is checked here, so the first glyph that no JSON text could have in that place is the
fault that is reported, and the end of the text is a fault wherever something is still due.
-/

namespace Conform.Json

open Text

/-- A container that has been opened and not yet closed. -/
inductive Opened where
  | array
  | object

/-- What may stand next between two tokens. -/
inductive Due where
  /-- a value -/
  | value
  /-- a value, or the end of an array without items -/
  | firstItem
  /-- a value after a comma -/
  | item
  /-- a key, or the end of an object without members -/
  | firstKey
  /-- a key after a comma -/
  | key
  /-- the colon between key and value -/
  | colon
  /-- what separates or ends the values of the innermost container -/
  | separator

/-- How far a string has been read. -/
inductive StringPhase where
  | plain
  | backslash
  /-- within the four bytes of a code unit; `unit` is `none` once one is no hexadecimal digit, and
  `high` the first half of a surrogate pair -/
  | hex (bytes : Nat) (unit : Option Nat) (high : Option Nat)
  /-- a first half has been read, and a second escape is due -/
  | high (unit : Nat)
  | highBackslash (unit : Nat)

/-- What the scanner is in the middle of. -/
inductive Mode where
  | due (d : Due)
  | word (left : List Char) (meaning : Scalar)
  | number (n : Numeral)
  /-- `body` holds the characters so far, the last one first -/
  | string (isKey : Bool) (phase : StringPhase) (body : List Char) (wellFormed : Bool)

/-- At most so many containers may be open at once. -/
def maxDepth : Nat := 127

/-- What one glyph leads to: tokens, and where the scan goes on. -/
structure Step where
  tokens : List Token
  next : Except Fault (List Opened × Mode)

namespace Step

/-- No token is complete yet. -/
def go (opened : List Opened) (mode : Mode) : Step :=
  ⟨[], .ok (opened, mode)⟩

/-- A token is complete, and this is due next. -/
def emit (token : Token) (opened : List Opened) (d : Due) : Step :=
  ⟨[token], .ok (opened, .due d)⟩

/-- Nothing more is read. -/
def halt (f : Fault) : Step :=
  ⟨[], .error f⟩

end Step

/-! ## Between tokens -/

/-- A blank may stand between any two tokens. -/
def isBlank (g : Glyph) : Bool :=
  g = some ' ' || g = some '\n' || g = some '\t' || g = some '\r'

/-- A container is opened, unless too many are open already. -/
def openContainer (opened : List Opened) (container : Opened) : Step :=
  if opened.length < maxDepth then
    match container with
    | .array => .emit .openArray (.array :: opened) .firstItem
    | .object => .emit .openObject (.object :: opened) .firstKey
  else .halt .tooDeep

/-- A string or a key begins. -/
def stringMode (isKey : Bool) : Mode :=
  .string isKey .plain [] true

/-- The first glyph of a value tells what value it is. -/
def beginValue (opened : List Opened) (g : Glyph) : Step :=
  match g with
  | some 'n' => .go opened (.word ['u', 'l', 'l'] .null)
  | some 't' => .go opened (.word ['r', 'u', 'e'] (.bool true))
  | some 'f' => .go opened (.word ['a', 'l', 's', 'e'] (.bool false))
  | some '"' => .go opened (stringMode false)
  | some '[' => openContainer opened .array
  | some '\x7b' => openContainer opened .object
  | some '-' => .go opened (.number (.start .minus true 0))
  | _ =>
    match Numeral.digit? g with
    | some 0 => .go opened (.number (.start .leadingZero false 0))
    | some d => .go opened (.number (.start .whole false d))
    | none => .halt .expectedValue

/-- A value is separated from the next one or ends its container. -/
def afterValue (opened : List Opened) (g : Glyph) : Step :=
  match opened with
  | [] => .halt .trailingCharacters
  | .array :: outer =>
    if g = some ',' then .go opened (.due .item)
    else if g = some ']' then .emit .close outer .separator
    else .halt .expectedCommaOrBracket
  | .object :: outer =>
    if g = some ',' then .go opened (.due .key)
    else if g = some '\x7d' then .emit .close outer .separator
    else .halt .expectedCommaOrBrace

/-- A glyph between two tokens. -/
def stepDue (opened : List Opened) (d : Due) (g : Glyph) : Step :=
  if isBlank g then .go opened (.due d)
  else
    match d with
    | .value => beginValue opened g
    | .firstItem =>
      if g = some ']' then .emit .close opened.tail .separator else beginValue opened g
    | .item => if g = some ']' then .halt .trailingComma else beginValue opened g
    | .firstKey =>
      if g = some '"' then .go opened (stringMode true)
      else if g = some '\x7d' then .emit .close opened.tail .separator
      else .halt .keyNotString
    | .key =>
      if g = some '"' then .go opened (stringMode true)
      else if g = some '\x7d' then .halt .trailingComma
      else .halt .keyNotString
    | .colon => if g = some ':' then .go opened (.due .value) else .halt .expectedColon
    | .separator => afterValue opened g

/-! ## Within a token -/

/-- A glyph within one of the words; only the very next character of the word will do. -/
def stepWord (opened : List Opened) (left : List Char) (meaning : Scalar) (g : Glyph) : Step :=
  match left with
  | [] => .halt .expectedWord
  | c :: left =>
    if g = some c then
      if left = [] then .emit (.scalar meaning) opened .separator
      else .go opened (.word left meaning)
    else .halt .expectedWord

/-- A number is known to have ended only at the glyph that follows it. -/
def stepNumber (opened : List Opened) (n : Numeral) (g : Glyph) : Step :=
  match n.extend g with
  | .more n => .go opened (.number n)
  | .invalid => .halt .invalidNumber
  | .ended =>
    match n.value with
    | .error f => .halt f
    | .ok s =>
      let step := stepDue opened .separator g
      ⟨.scalar s :: step.tokens, step.next⟩

/-- The value of a hexadecimal digit. -/
def hexDigit? : Glyph → Option Nat
  | some c =>
    if BigInt.isDigit c then some (BigInt.digitValue c)
    else if 'a' ≤ c ∧ c ≤ 'f' then some (c.toNat - 'a'.toNat + 10)
    else if 'A' ≤ c ∧ c ≤ 'F' then some (c.toNat - 'A'.toNat + 10)
    else none
  | none => none

/-- The character that a short escape stands for. -/
def shortEscape? : Glyph → Option Char
  | some '"' => some '"'
  | some '\\' => some '\\'
  | some '/' => some '/'
  | some 'b' => some '\x08'
  | some 'f' => some '\x0c'
  | some 'n' => some '\n'
  | some 'r' => some '\r'
  | some 't' => some '\t'
  | _ => none

/-- The code unit is the first half of a surrogate pair. -/
def isHighSurrogate (unit : Nat) : Bool :=
  0xd800 ≤ unit && unit ≤ 0xdbff

/-- The code unit is the second half of a surrogate pair. -/
def isLowSurrogate (unit : Nat) : Bool :=
  0xdc00 ≤ unit && unit ≤ 0xdfff

/-- The four digits of a code unit are complete. -/
def stepUnit (opened : List Opened) (isKey : Bool) (body : List Char) (wellFormed : Bool)
    (high : Option Nat) (unit : Nat) : Step :=
  match high with
  | none =>
    if isLowSurrogate unit then .halt .loneSurrogate
    else if isHighSurrogate unit then .go opened (.string isKey (.high unit) body wellFormed)
    else .go opened (.string isKey .plain (Char.ofNat unit :: body) wellFormed)
  | some high =>
    if isLowSurrogate unit then
      let c := Char.ofNat (0x10000 + (high - 0xd800) * 0x400 + (unit - 0xdc00))
      .go opened (.string isKey .plain (c :: body) wellFormed)
    else .halt .loneSurrogate

/-- The closing quote. Bytes that are no text are a fault only here. -/
def endString (opened : List Opened) (isKey : Bool) (body : List Char) (wellFormed : Bool) : Step :=
  if wellFormed then
    let text := String.ofList body.reverse
    if isKey then .emit (.key text) opened .colon
    else .emit (.scalar (.string text)) opened .separator
  else .halt .invalidUnicode

/-- A glyph within a string or a key. -/
def stepString (opened : List Opened) (isKey : Bool) (phase : StringPhase) (body : List Char)
    (wellFormed : Bool) (g : Glyph) : Step :=
  match phase with
  | .plain =>
    match g with
    | none => .go opened (.string isKey .plain body false)
    | some '"' => endString opened isKey body wellFormed
    | some '\\' => .go opened (.string isKey .backslash body wellFormed)
    | some c =>
      if c.toNat < 0x20 then .halt .controlCharacter
      else .go opened (.string isKey .plain (c :: body) wellFormed)
  | .backslash =>
    if g = some 'u' then .go opened (.string isKey (.hex 0 (some 0) none) body wellFormed)
    else
      match shortEscape? g with
      | some c => .go opened (.string isKey .plain (c :: body) wellFormed)
      | none => .halt .invalidEscape
  | .hex bytes unit high =>
    let bytes := bytes + g.size
    let unit := do return (← unit) * 16 + (← hexDigit? g)
    if bytes < 4 then .go opened (.string isKey (.hex bytes unit high) body wellFormed)
    else
      match unit with
      | none => .halt .invalidEscape
      | some unit => stepUnit opened isKey body wellFormed high unit
  | .high unit =>
    if g = some '\\' then .go opened (.string isKey (.highBackslash unit) body wellFormed)
    else .halt .unfinishedSurrogatePair
  | .highBackslash unit =>
    if g = some 'u' then .go opened (.string isKey (.hex 0 (some 0) (some unit)) body wellFormed)
    else .halt .unfinishedSurrogatePair

/-! ## The whole text -/

/-- What a glyph leads to. -/
def step (opened : List Opened) (mode : Mode) (g : Glyph) : Step :=
  match mode with
  | .due d => stepDue opened d g
  | .word left meaning => stepWord opened left meaning g
  | .number n => stepNumber opened n g
  | .string isKey phase body wellFormed => stepString opened isKey phase body wellFormed g

/-- The end of the text behind a value, a fault if some container is still open. -/
def endAfterValue : List Opened → Stream
  | [] => .done
  | .array :: _ => .fault .endInArray
  | .object :: _ => .fault .endInObject

/-- The end of the text. -/
def scanEnd (opened : List Opened) : Mode → Stream
  | .due .separator => endAfterValue opened
  | .due .firstItem => .fault .endInArray
  | .due .firstKey | .due .colon => .fault .endInObject
  | .due .value | .due .item | .due .key => .fault .endInValue
  | .word _ _ => .fault .endInValue
  | .string _ _ _ _ => .fault .endInString
  | .number n =>
    if n.isComplete then
      match n.value with
      | .error f => .fault f
      | .ok s => .next (.scalar s) (endAfterValue opened)
    else .fault .endInValue

/-- The tokens of the glyphs that follow. -/
def scan (opened : List Opened) (mode : Mode) : List Glyph → Stream
  | [] => scanEnd opened mode
  | g :: rest =>
    let step := step opened mode g
    .after step.tokens <|
      match step.next with
      | .error f => .fault f
      | .ok (opened, mode) => scan opened mode rest

/-- The tokens of a whole text. -/
def tokens (text : List Glyph) : Stream :=
  scan [] (.due .value) text

end Conform.Json
