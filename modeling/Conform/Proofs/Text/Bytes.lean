import Conform.Json.Read

/-!
# The bytes of a text

Texts are ordered by their characters, from the first one in which they differ. Their UTF-8 bytes
are in the same order, whatever follows the character: of two characters the greater one has no
smaller first byte, and where the lengths are the same the bytes are digits of the code point.

The glyphs of these bytes are the characters of the text, so a text is read as its bytes are
(`Json.ofBytes_toUTF8`).
-/

namespace Conform

namespace Text

/-- The UTF-8 encoding of a text. -/
def bytes (text : String) : List UInt8 :=
  text.toUTF8.data.toList

theorem bytes_eq_flatMap (text : String) :
    bytes text = text.toList.flatMap String.utf8EncodeChar := by
  rw [bytes, String.toUTF8_eq_toByteArray, ← String.utf8Encode_toList, List.utf8Encode,
    List.toList_data_toByteArray]

theorem encoded_lt_encoded {c d : Char} (h : c < d) (left right : List UInt8) :
    String.utf8EncodeChar c ++ left < String.utf8EncodeChar d ++ right := by
  have hlt : c.val.toNat < d.val.toNat := h
  have hd : d.val.toNat < 0x110000 := by
    rcases d.valid with hvalid | hvalid
    · exact Nat.lt_trans hvalid (by decide)
    · exact hvalid.2
  have hdigits (n : Nat) : n / 4096 = n / 64 / 64 ∧ n / 262144 = n / 64 / 64 / 64 := by omega
  unfold String.utf8EncodeChar
  generalize c.val.toNat = v at *
  generalize d.val.toNat = w at *
  simp only [hdigits]
  -- by the numbers of bytes of both characters, then byte after byte
  (repeat' split) <;>
    simp only [List.cons_append, List.nil_append, List.cons_lt_cons_iff, UInt8.lt_iff_toNat_lt,
      ← UInt8.toNat_inj, UInt8.toNat_ofNat'] <;>
    omega

/-- The order of texts is the order of their bytes. -/
theorem bytes_lt_bytes {s t : String} (h : s < t) : bytes s < bytes t := by
  have hchars : s.toList < t.toList := h
  rw [bytes_eq_flatMap, bytes_eq_flatMap]
  generalize s.toList = cs, t.toList = ds at hchars ⊢
  induction hchars with
  | @nil d ds =>
    obtain ⟨b, rest, hbytes⟩ :=
      List.exists_cons_of_ne_nil (String.utf8EncodeChar_ne_nil (c := d))
    rw [List.flatMap_nil, List.flatMap_cons, hbytes]
    exact List.nil_lt_cons b _
  | cons _ ih => exact List.append_left_lt ih
  | rel hlt => exact encoded_lt_encoded hlt _ _

/-! ## Decoding -/

/-- Decoding goes on behind the characters that are decoded already. -/
theorem glyphsFrom_utf8Encode (before chars : List Char) :
    glyphsFrom (before ++ chars).utf8Encode before.utf8Encode.size = chars.map some := by
  induction chars generalizing before with
  | nil =>
    rw [glyphsFrom, dif_neg (by simp)]
    rfl
  | cons c rest ih =>
    have hdecoded : (before ++ c :: rest).utf8Encode.utf8DecodeChar? before.utf8Encode.size =
        some c := by
      rw [ByteArray.utf8DecodeChar?_eq_utf8DecodeChar?_extract, List.utf8Encode_append,
        ByteArray.extract_append_eq_right rfl ByteArray.size_append]
      exact List.utf8DecodeChar?_utf8Encode_cons
    have hlt : before.utf8Encode.size < (before ++ c :: rest).utf8Encode.size :=
      ByteArray.lt_size_of_isSome_utf8DecodeChar? (by rw [hdecoded]; rfl)
    have hsize : (before ++ [c]).utf8Encode.size = before.utf8Encode.size + c.utf8Size := by
      rw [List.utf8Encode_append, ByteArray.size_append, List.utf8Encode_singleton,
        List.size_toByteArray, String.length_utf8EncodeChar]
    rw [glyphsFrom, dif_pos hlt, hdecoded]
    simp only [← hsize]
    rw [List.append_cons, ih, List.map_cons]

theorem glyphsOfBytes_toUTF8 (text : String) : glyphsOfBytes text.toUTF8 = glyphs text := by
  have h := glyphsFrom_utf8Encode [] text.toList
  rwa [List.nil_append, String.utf8Encode_toList] at h

end Text

/-- Reading a text from its bytes is reading the text. -/
theorem Json.ofBytes_toUTF8 (text : String) : ofBytes text.toUTF8 = ofText text := by
  rw [ofBytes, Text.glyphsOfBytes_toUTF8, ofText]

end Conform
