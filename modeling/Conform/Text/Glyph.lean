/-!
# Glyphs

Text that arrives as bytes need not be well-formed. It is read as a list of glyphs: a character
where the bytes encode one, and `none` for each byte that is no part of a character. A string is
all characters.
-/

namespace Conform.Text

/-- A character, or `none` for a byte that is no part of one. -/
abbrev Glyph := Option Char

/-- The glyphs of a string. -/
def glyphs (text : String) : List Glyph :=
  text.toList.map some

/-- How many bytes the glyph takes. -/
def Glyph.size : Glyph → Nat
  | some c => c.utf8Size
  | none => 1

/-- The glyphs of the bytes from index `i` on. -/
def glyphsFrom (bytes : ByteArray) (i : Nat) : List Glyph :=
  if _h : i < bytes.size then
    match bytes.utf8DecodeChar? i with
    | some c => some c :: glyphsFrom bytes (i + c.utf8Size)
    | none => none :: glyphsFrom bytes (i + 1)
  else []
termination_by bytes.size - i
decreasing_by
  · have := c.utf8Size_pos
    omega
  · omega

/-- The glyphs of bytes. -/
def glyphsOfBytes (bytes : ByteArray) : List Glyph :=
  glyphsFrom bytes 0

end Conform.Text
