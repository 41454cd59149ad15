import Conform.Proofs.BigInt
import Conform.Proofs.Json.Equality
import Conform.Value.Export

/-!
# Big integers that fit a word

A word is read from its decimal text digit by digit, and the reader gives up at the first digit that
leads out of the word's span. No integer of the span is lost that way, for what stands in front of
its last digit is nearer to zero than itself: `Span.read_eq_some_iff`.

The narrowing conversions of big integers are stated on the integer that is denoted. They are what
is read from the text (`Canonical.toInt64?_eq_read`, `Canonical.toUInt64?_eq_read`), and the export,
which tries one after the other, leaves no integer between the two spans and makes the same tree of
no two integers: `narrowed_and_exported`.
-/

namespace Conform.BigInt

/-! ## Reading a word -/

/-- The integers that a word can be: those from `lower` up to `upper`, which is itself not one. -/
structure Span where
  lower : Int
  upper : Int

namespace Span

/-- The integers of a signed 64-bit word. -/
def signed64 : Span := ⟨-0x8000000000000000, 0x8000000000000000⟩

/-- The integers of an unsigned 64-bit word. -/
def unsigned64 : Span := ⟨0, 0x10000000000000000⟩

/-- The integer lies in the span; the upper end does not belong to it. -/
def Holds (span : Span) (n : Int) : Prop :=
  span.lower ≤ n ∧ n < span.upper

instance (span : Span) (n : Int) : Decidable (span.Holds n) :=
  inferInstanceAs (Decidable (_ ∧ _))

/-- Puts a digit behind an integer, as long as that stays in the span. Behind a minus the digits
count downwards. -/
def extend (span : Span) (negative : Bool) (n : Int) (c : Char) : Option Int :=
  let next := if negative then n * 10 - digitValue c else n * 10 + digitValue c
  if span.Holds next then some next else none

/-- Reads a decimal text with a sign or without one. -/
def read (span : Span) (text : String) : Option Int :=
  let (negative, digits) := splitSign text.toList
  if digits ≠ [] ∧ digits.all isDigit then digits.foldlM (span.extend negative) 0 else none

end Span

/-- One more digit moves the integer away from zero. -/
theorem signedValue_append_singleton (negative : Bool) (front : List Char) (c : Char) :
    signedValue negative (front ++ [c]) =
      if negative then signedValue negative front * 10 - digitValue c
      else signedValue negative front * 10 + digitValue c := by
  cases negative <;> simp only [signedValue, magnitude_append_singleton] <;> grind

namespace Span

variable {span : Span}

/-- What stands in front of the last digit lies between zero and the whole. -/
theorem holds_front (h0 : span.Holds 0) {negative : Bool} {front : List Char} {c : Char}
    (h : span.Holds (signedValue negative (front ++ [c]))) :
    span.Holds (signedValue negative front) := by
  simp only [Holds, signedValue, magnitude_append_singleton] at *
  cases negative <;> simp only [Bool.false_eq_true, if_true, if_false] at * <;> omega

/-- No step in between leaves the span if the last one does not: each goes away from zero. -/
theorem foldlM_extend (h0 : span.Holds 0) (negative : Bool) (digits : List Char) :
    digits.foldlM (span.extend negative) 0 =
      if span.Holds (signedValue negative digits) then some (signedValue negative digits)
      else none := by
  induction digits using List.reverseRecOn with
  | nil => cases negative <;> simp [signedValue, magnitude, h0]
  | append_singleton front c ih =>
    rw [List.foldlM_append, ih]
    by_cases hfront : span.Holds (signedValue negative front)
    · simp [hfront, extend, signedValue_append_singleton]
    · have hwhole : ¬ span.Holds (signedValue negative (front ++ [c])) :=
        fun h => hfront (holds_front h0 h)
      simp [hfront, hwhole]

/-- A text is read exactly if it is a decimal text of an integer of the span. -/
theorem read_eq_some_iff (h0 : span.Holds 0) {text : String} {n : Int} :
    span.read text = some n ↔ Denotes text n ∧ span.Holds n := by
  rw [denotes_iff]
  simp only [read, foldlM_extend h0, Numeral, ← all_isDigit_iff]
  split
  · rename_i hnumeral
    rw [Option.ite_none_right_eq_some, Option.some.injEq]
    constructor
    · rintro ⟨hspan, rfl⟩
      exact ⟨⟨hnumeral, rfl⟩, hspan⟩
    · rintro ⟨⟨-, rfl⟩, hspan⟩
      exact ⟨hspan, rfl⟩
  · rename_i hnumeral
    simp only [reduceCtorEq, false_iff]
    exact fun h => hnumeral h.1.1

/-- A text is read exactly if what it denotes lies in the span. -/
theorem read_of_denotes (h0 : span.Holds 0) {text : String} {n : Int} (h : Denotes text n) :
    span.read text = if span.Holds n then some n else none := by
  apply Option.ext
  intro m
  rw [read_eq_some_iff h0, Option.ite_none_right_eq_some, Option.some.injEq]
  constructor
  · rintro ⟨hm, hspan⟩
    obtain rfl := h.unique hm
    exact ⟨hspan, rfl⟩
  · rintro ⟨hspan, rfl⟩
    exact ⟨h, hspan⟩

end Span

/-! ## Narrowing -/

/-- The signed word, if there is one, is the integer itself. -/
theorem map_toInt_toInt64? (b : BigInt) :
    b.toInt64?.map Int64.toInt =
      if Span.signed64.Holds b.toInt then some b.toInt else none := by
  show (if Span.signed64.Holds b.toInt then some (Int64.ofInt b.toInt) else none).map _ = _
  split
  · rename_i h
    rw [Option.map_some, Int64.toInt_ofInt_of_le h.1 h.2]
  · rfl

/-- The unsigned word, if there is one, is the integer itself. -/
theorem map_toNat_toUInt64? (b : BigInt) :
    b.toUInt64?.map (fun word => (word.toNat : Int)) =
      if Span.unsigned64.Holds b.toInt then some b.toInt else none := by
  show (if Span.unsigned64.Holds b.toInt then some (UInt64.ofNat b.toInt.toNat) else none).map _ = _
  split
  · rename_i h
    have hlt : b.toInt < 0x10000000000000000 := h.2
    have hsize : b.toInt.toNat < UInt64.size := by
      simp only [UInt64.size]
      omega
    rw [Option.map_some, UInt64.toNat_ofNat_of_lt' hsize, Int.toNat_of_nonneg h.1]
  · rfl

namespace Canonical

variable {b : BigInt}

/-- To convert a canonical big integer is to read its text. -/
theorem toInt64?_eq_read (h : b.Canonical) :
    b.toInt64?.map Int64.toInt = Span.signed64.read b.toText := by
  rw [map_toInt_toInt64?, Span.read_of_denotes (by decide) h.denotes_toText]

/-- A big integer with a sign has no unsigned word, and without one its digits are its text. -/
theorem toUInt64?_eq_read (h : b.Canonical) :
    b.toUInt64?.map (fun word => (word.toNat : Int)) =
      if b.negative then none else Span.unsigned64.read (String.ofList b.digits) := by
  rw [map_toNat_toUInt64?]
  by_cases hnegative : b.negative = true
  · have hlt : b.toInt < 0 := h.toInt_neg_iff.mpr hnegative
    have hout : ¬ Span.unsigned64.Holds b.toInt := by
      rintro ⟨hle, -⟩
      simp only [Span.unsigned64] at hle
      omega
    rw [if_pos hnegative, if_neg hout]
  · have htext : b.toText = String.ofList b.digits := by rw [toText, if_neg hnegative]
    rw [if_neg hnegative, ← htext, Span.read_of_denotes (by decide) h.denotes_toText]

end Canonical

theorem toInt64?_eq_none_iff {b : BigInt} :
    b.toInt64? = none ↔ ¬ Span.signed64.Holds b.toInt := by
  rw [← Option.map_eq_none_iff, map_toInt_toInt64?]
  simp

theorem toUInt64?_eq_none_iff {b : BigInt} :
    b.toUInt64? = none ↔ ¬ Span.unsigned64.Holds b.toInt := by
  rw [← Option.map_eq_none_iff, map_toNat_toUInt64?]
  simp

/-! ## Export -/

/-- The two spans overlap, and together they are the integers of JSON. -/
theorem exists_integer {b : BigInt} (hlower : -2 ^ 63 ≤ b.toInt) (hupper : b.toInt < 2 ^ 64) :
    ∃ i : Json.Integer, i.value = b.toInt ∧ (Value.bigInt b).toJson = .scalar (.integer i) := by
  rw [Value.toJson, Json.ofBigInt]
  have hsigned := map_toInt_toInt64? b
  have hunsigned := map_toNat_toUInt64? b
  cases hword : b.toInt64? with
  | some word =>
    rw [hword, Option.map_some, eq_comm, Option.ite_none_right_eq_some] at hsigned
    exact ⟨.ofInt64 word, (Option.some.inj hsigned.2).symm, rfl⟩
  | none =>
    have hout := toInt64?_eq_none_iff.mp hword
    have hin : Span.unsigned64.Holds b.toInt := by
      simp only [Span.Holds, Span.signed64, Span.unsigned64] at hout ⊢
      omega
    cases hword' : b.toUInt64? with
    | some word =>
      rw [hword', Option.map_some, if_pos hin] at hunsigned
      exact ⟨.ofUInt64 word, Option.some.inj hunsigned, rfl⟩
    | none => exact absurd hin (toUInt64?_eq_none_iff.mp hword')

/-- An integer that no word can hold is exported as its text. -/
theorem toJson_of_out {b : BigInt} (h : ¬ (-2 ^ 63 ≤ b.toInt ∧ b.toInt < 2 ^ 64)) :
    (Value.bigInt b).toJson = .string b.toText := by
  have hsigned : b.toInt64? = none := by
    rw [toInt64?_eq_none_iff]
    simp only [Span.Holds, Span.signed64]
    omega
  have hunsigned : b.toUInt64? = none := by
    rw [toUInt64?_eq_none_iff]
    simp only [Span.Holds, Span.unsigned64]
    omega
  rw [Value.toJson, Json.ofBigInt, hsigned, hunsigned]

/-- A big integer is recovered from its tree: from the integer, or from the text. -/
theorem Canonical.eq_of_toJson_equal {a b : BigInt} (ha : a.Canonical) (hb : b.Canonical)
    (h : (Value.bigInt a).toJson.equal (Value.bigInt b).toJson = true) : a = b := by
  by_cases hin : -2 ^ 63 ≤ a.toInt ∧ a.toInt < 2 ^ 64
  · obtain ⟨i, hi, hatree⟩ := exists_integer hin.1 hin.2
    by_cases hin' : -2 ^ 63 ≤ b.toInt ∧ b.toInt < 2 ^ 64
    · obtain ⟨j, hj, hbtree⟩ := exists_integer hin'.1 hin'.2
      rw [hatree, hbtree] at h
      have hij : i = j := by simpa [Json.equal, Json.Scalar.equal] using h
      exact ha.eq_of_toInt hb (by rw [← hi, ← hj, hij])
    · rw [hatree, toJson_of_out hin'] at h
      simp [Json.equal, Json.Scalar.equal, Json.string] at h
  · by_cases hin' : -2 ^ 63 ≤ b.toInt ∧ b.toInt < 2 ^ 64
    · obtain ⟨j, hj, hbtree⟩ := exists_integer hin'.1 hin'.2
      rw [hbtree, toJson_of_out hin] at h
      simp [Json.equal, Json.Scalar.equal, Json.string] at h
    · rw [toJson_of_out hin, toJson_of_out hin'] at h
      have htext : a.toText = b.toText := by
        simpa [Json.equal, Json.Scalar.equal, Json.string] using h
      have hdenotes := hb.denotes_toText
      rw [← htext] at hdenotes
      exact ha.eq_of_toInt hb (ha.denotes_toText.unique hdenotes)

/-- **Narrowing and export are exact.** A word is what is read from the text, and it is there if the
integer fits; a 64-bit integer is exported as itself, any other as its decimal text, and no two big
integers in the same way. -/
theorem narrowed_and_exported {b : BigInt} {n : Int} (h : Obtained b n) :
    (b.toInt64?.map Int64.toInt = Span.signed64.read b.toText ∧
      b.toInt64?.map Int64.toInt = if -2 ^ 63 ≤ n ∧ n < 2 ^ 63 then some n else none) ∧
    (b.toUInt64?.map (fun word => (word.toNat : Int)) =
        (if b.negative then none else Span.unsigned64.read (String.ofList b.digits)) ∧
      b.toUInt64?.map (fun word => (word.toNat : Int)) =
        if 0 ≤ n ∧ n < 2 ^ 64 then some n else none) ∧
    ((∃ i : Json.Integer, i.value = n ∧ (Value.bigInt b).toJson = .scalar (.integer i)) ↔
      -2 ^ 63 ≤ n ∧ n < 2 ^ 64) ∧
    (¬ (-2 ^ 63 ≤ n ∧ n < 2 ^ 64) → (Value.bigInt b).toJson = .string (toString n)) ∧
    ∀ c m, Obtained c m → b ≠ c →
      (Value.bigInt b).toJson.equal (Value.bigInt c).toJson = false := by
  have hcanonical : b.Canonical := h.eq_ofInt ▸ canonical_ofInt n
  have hn : b.toInt = n := by rw [h.eq_ofInt, toInt_ofInt]
  subst hn
  refine ⟨⟨hcanonical.toInt64?_eq_read, ?_⟩, ⟨hcanonical.toUInt64?_eq_read, ?_⟩, ⟨?_, ?_⟩, ?_, ?_⟩
  · rw [map_toInt_toInt64?]
    exact if_congr (by simp [Span.Holds, Span.signed64]) rfl rfl
  · rw [map_toNat_toUInt64?]
    exact if_congr (by simp [Span.Holds, Span.unsigned64]) rfl rfl
  · rintro ⟨i, hi, -⟩
    have hlower := i.lower
    have hupper := i.upper
    omega
  · rintro ⟨hlower, hupper⟩
    exact exists_integer hlower hupper
  · intro hout
    rw [toJson_of_out hout, hcanonical.toText_eq]
  · intro c m hc hne
    rw [← Bool.not_eq_true]
    intro hequal
    have hcanonical' : c.Canonical := hc.eq_ofInt ▸ canonical_ofInt m
    exact hne (hcanonical.eq_of_toJson_equal hcanonical' hequal)

/-- The least signed word, and the first integer that no word can be. -/
theorem narrowed_and_exported_atBounds :
    Obtained (ofSigned 0x8000000000000000#64) (-2 ^ 63) ∧
    Obtained (ofUnsigned 0x10000000000000000#65) (2 ^ 64) ∧
    (ofSigned 0x8000000000000000#64).toInt64?.map Int64.toInt = some (-2 ^ 63) ∧
    (ofSigned 0x8000000000000000#64).toUInt64?.map (fun word => (word.toNat : Int)) = none ∧
    (Value.bigInt (ofUnsigned 0x10000000000000000#65)).toJson = .string "18446744073709551616" ∧
    (Value.bigInt (ofSigned 0x8000000000000000#64)).toJson.equal
      (Value.bigInt (ofUnsigned 0x10000000000000000#65)).toJson = false := by
  have hleast : Obtained (ofSigned 0x8000000000000000#64) (-2 ^ 63) := .signed 0x8000000000000000#64
  have hpast : Obtained (ofUnsigned 0x10000000000000000#65) (2 ^ 64) :=
    .unsigned 0x10000000000000000#65
  have hne : ofSigned 0x8000000000000000#64 ≠ ofUnsigned 0x10000000000000000#65 := by decide
  obtain ⟨⟨-, hsigned⟩, ⟨-, hunsigned⟩, -, -, hdistinct⟩ := narrowed_and_exported hleast
  obtain ⟨-, -, -, htext, -⟩ := narrowed_and_exported hpast
  exact ⟨hleast, hpast, hsigned, hunsigned, htext (by decide), hdistinct _ _ hpast hne⟩

end Conform.BigInt
