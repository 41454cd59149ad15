import Mathlib.Data.List.Induction
import Mathlib.Tactic.Common
import Conform.BigInt

/-!
# Big integers are canonical

A big integer is a sign and a string of digits, and two are equal when both agree. That is equality
of integers only as far as each integer has a single such form:

* every string of digits without zeros in front is the decimal string of its value
  (`Standard.eq_toDigits`), so a canonical big integer is determined by what it denotes
  (`Canonical.eq_of_toInt`);
* a text is accepted exactly when it denotes an integer, and it is read as that integer in its
  canonical form (`parse_eq_ok_of_denotes`, `denotes_of_parse`), and so is a machine integer
  (`ofSigned_eq_ofInt`, `ofUnsigned_eq_ofInt`);
* hence for whatever is obtained from either, equality is equality of integers, and the text is the
  decimal text of the integer and is read back (`canonical_representation`).
-/

namespace Conform.BigInt

/-! ## Digits and their value -/

theorem isDigit_eq (c : Char) : isDigit c = c.isDigit := by
  simp only [isDigit, Char.isDigit, Char.le_def, ge_iff_le]

theorem digitValue_lt {c : Char} (h : c.isDigit = true) : digitValue c < 10 := by
  obtain ⟨_, hle⟩ := Char.isDigit_iff_toNat.mp h
  have hzero : '0'.toNat = 48 := rfl
  have hnine : '9'.toNat = 57 := rfl
  simp only [digitValue]
  omega

/-- A digit is determined by its value. -/
theorem digitChar_digitValue {c : Char} (h : c.isDigit = true) :
    Nat.digitChar (digitValue c) = c := by
  obtain ⟨hge, _⟩ := Char.isDigit_iff_toNat.mp h
  have hzero : '0'.toNat = 48 := rfl
  apply Char.toNat_inj.mp
  rw [Nat.toNat_digitChar_of_lt_ten (digitValue_lt h), digitValue]
  omega

theorem magnitude_eq_ofDigitChars (digits : List Char) :
    magnitude digits = Nat.ofDigitChars 10 digits 0 := by
  simp only [magnitude, digitValue, Nat.ofDigitChars_eq_foldl, Nat.mul_comm]

/-- The digits of a number stand for it. -/
@[simp]
theorem magnitude_toDigits (n : Nat) : magnitude (Nat.toDigits 10 n) = n := by
  rw [magnitude_eq_ofDigitChars, Nat.ofDigitChars_ten_toDigits]

/-- One more digit at the end. -/
theorem magnitude_append_singleton (digits : List Char) (c : Char) :
    magnitude (digits ++ [c]) = magnitude digits * 10 + digitValue c := by
  simp [magnitude]

/-- A zero in front does not count. -/
theorem magnitude_zero_cons (digits : List Char) :
    magnitude ('0' :: digits) = magnitude digits := by
  simp [magnitude, digitValue]

theorem magnitude_dropWhile_zero (digits : List Char) :
    magnitude (digits.dropWhile (· = '0')) = magnitude digits := by
  induction digits with
  | nil => rfl
  | cons c digits ih =>
    by_cases hc : c = '0'
    · subst hc
      simpa [magnitude_zero_cons] using ih
    · simp [hc]

/-- The integer of a sign and digits. -/
def signedValue (negative : Bool) (digits : List Char) : Int :=
  if negative then -(magnitude digits : Int) else magnitude digits

/-! ## Digits of a number -/

/-- The digits of a number, without zeros in front. -/
structure Standard (digits : List Char) : Prop where
  nonempty : digits ≠ []
  isDigit : ∀ c ∈ digits, c.isDigit = true
  head : digits.head? = some '0' → digits = ['0']

/-- The only number with a zero in front is zero. -/
theorem Standard.eq_zero_of_head {front back : List Char} (h : Standard (front ++ back))
    (hzero : front.head? = some '0') : front = ['0'] ∧ back = [] := by
  obtain ⟨rest, rfl⟩ := List.head?_eq_some_iff.mp hzero
  have heq := h.head rfl
  simp only [List.cons_append, List.cons.injEq, true_and, List.append_eq_nil_iff] at heq
  obtain ⟨rfl, rfl⟩ := heq
  exact ⟨rfl, rfl⟩

/-- The digits of a number go on being so when some are cut off at the end. -/
theorem Standard.front {front back : List Char} (h : Standard (front ++ back))
    (hfront : front ≠ []) : Standard front :=
  ⟨hfront, fun c hc => h.isDigit c (List.mem_append_left _ hc), fun hzero =>
    (h.eq_zero_of_head hzero).1⟩

/-- By induction from the right, as the decimal string is built: a last digit is the remainder, and
what stands in front of it, if anything, has no zero in front either and so is positive. -/
theorem Standard.eq_toDigits {digits : List Char} (h : Standard digits) :
    digits = Nat.toDigits 10 (magnitude digits) := by
  induction digits using List.reverseRecOn with
  | nil => exact absurd rfl h.nonempty
  | append_singleton front c ih =>
    have hc : c.isDigit = true := h.isDigit c (by simp)
    have hlt := digitValue_lt hc
    rw [magnitude_append_singleton]
    by_cases hfront : front = []
    · subst hfront
      rw [Nat.toDigits_of_lt_base (by simpa [magnitude] using hlt)]
      simp [magnitude, digitChar_digitValue hc]
    · have heq := ih (h.front hfront)
      have hhead : front.head? ≠ some '0' := fun hzero => by simpa using h.eq_zero_of_head hzero
      have hpos : 0 < magnitude front := by
        apply Nat.pos_of_ne_zero
        intro hzero
        rw [hzero] at heq
        exact hhead (by rw [heq]; rfl)
      rw [Nat.toDigits_of_base_le (by omega) (by omega)]
      have hdiv : (magnitude front * 10 + digitValue c) / 10 = magnitude front := by omega
      have hmod : (magnitude front * 10 + digitValue c) % 10 = digitValue c := by omega
      rw [hdiv, hmod, ← heq, digitChar_digitValue hc]

/-! ## Canonical big integers -/

/-- Digits of a number without zeros in front, and no sign at zero. -/
structure Canonical (n : BigInt) : Prop where
  digits : Standard n.digits
  sign : n.isZero = true → n.negative = false

/-- A sign is never that of zero. -/
theorem Canonical.magnitude_pos {n : BigInt} (h : n.Canonical) (hneg : n.negative = true) :
    0 < magnitude n.digits := by
  apply Nat.pos_of_ne_zero
  intro hzero
  have hdigits := h.digits.eq_toDigits
  rw [hzero] at hdigits
  have hsign := h.sign (by simp [isZero, hdigits])
  rw [hneg] at hsign
  cases hsign

/-- The sign tells whether the integer is negative. -/
theorem Canonical.toInt_neg_iff {n : BigInt} (h : n.Canonical) :
    n.toInt < 0 ↔ n.negative = true := by
  cases hneg : n.negative with
  | false => simp [toInt, hneg]
  | true =>
    have hpos := h.magnitude_pos hneg
    simp only [toInt, hneg, if_true, iff_true]
    omega

theorem natAbs_toInt (n : BigInt) : n.toInt.natAbs = magnitude n.digits := by
  cases hneg : n.negative <;> simp [toInt, hneg]

/-- Canonical digits are those of the absolute value. -/
theorem Canonical.digits_eq {n : BigInt} (h : n.Canonical) :
    n.digits = Nat.toDigits 10 n.toInt.natAbs := by
  rw [natAbs_toInt]
  exact h.digits.eq_toDigits

/-- A canonical big integer is determined by the integer that it denotes. -/
theorem Canonical.eq_of_toInt {a b : BigInt} (ha : a.Canonical) (hb : b.Canonical)
    (h : a.toInt = b.toInt) : a = b := by
  have hdigits : a.digits = b.digits := by rw [ha.digits_eq, hb.digits_eq, h]
  have hnegative : a.negative = b.negative := by
    rw [Bool.eq_iff_iff, ← ha.toInt_neg_iff, ← hb.toInt_neg_iff, h]
  cases a
  cases b
  simp_all

/-- The text is the decimal notation of the integer. -/
theorem Canonical.toText_eq {n : BigInt} (h : n.Canonical) : n.toText = toString n.toInt := by
  rw [toText, h.digits_eq, Int.toString_eq_repr, Int.repr_eq_if, Nat.repr_eq_ofList_toDigits,
    Nat.repr_eq_ofList_toDigits]
  by_cases hneg : n.negative = true
  · have hlt := h.toInt_neg_iff.mpr hneg
    have hnat : (-n.toInt).toNat = n.toInt.natAbs := by omega
    rw [if_pos hneg, if_neg (by omega), hnat, String.ofList_cons]
    rfl
  · have hle : 0 ≤ n.toInt := by
      have := h.toInt_neg_iff.not.mpr hneg
      omega
    have hnat : n.toInt.toNat = n.toInt.natAbs := by omega
    rw [if_neg hneg, if_pos hle, hnat]

/-! ## Dropping zeros in front -/

theorem head?_dropWhile_zero (digits : List Char) :
    (digits.dropWhile (· = '0')).head? ≠ some '0' := by
  intro hzero
  have hnot := List.head?_dropWhile_not (· = '0') digits
  simp [hzero] at hnot

/-- Whatever digits there are, the result is canonical. -/
theorem canonical_ofParts (negative : Bool) {digits : List Char}
    (h : ∀ c ∈ digits, c.isDigit = true) : (ofParts negative digits).Canonical := by
  rw [ofParts]
  split
  · exact ⟨⟨by simp [zero], by simp [zero], fun _ => rfl⟩, fun _ => rfl⟩
  · rename_i hne
    have hhead := head?_dropWhile_zero digits
    refine ⟨⟨hne, fun c hc => h c ((List.dropWhile_sublist _).mem hc),
      fun hzero => absurd hzero hhead⟩, fun hzero => ?_⟩
    rw [isZero, decide_eq_true_eq] at hzero
    exact absurd (congrArg List.head? hzero) hhead

/-- Zeros in front do not change what is denoted. -/
theorem toInt_ofParts (negative : Bool) (digits : List Char) :
    (ofParts negative digits).toInt = signedValue negative digits := by
  rw [signedValue, ← magnitude_dropWhile_zero, ofParts]
  split
  · rename_i hnil
    simp [hnil, zero, toInt, magnitude, digitValue]
  · rfl

/-! ## Integers that are converted -/

theorem canonical_ofInt (n : Int) : (ofInt n).Canonical :=
  canonical_ofParts _ fun _ hc => Nat.isDigit_of_mem_toDigits (by omega) (by omega) hc

/-- The big integer of an integer denotes it. -/
theorem toInt_ofInt (n : Int) : (ofInt n).toInt = n := by
  rw [ofInt, toInt_ofParts, signedValue, magnitude_toDigits]
  by_cases hn : n < 0
  · simp only [hn, decide_true, if_true]
    omega
  · simp only [hn, decide_false, Bool.false_eq_true, if_false]
    omega

/-- Numbers are written without zeros in front. -/
theorem standard_toDigits (n : Nat) : Standard (Nat.toDigits 10 n) := by
  have hdigits := (canonical_ofInt n).digits_eq
  rw [toInt_ofInt, Int.natAbs_natCast] at hdigits
  exact hdigits ▸ (canonical_ofInt n).digits

/-- At the least integer of a width as well, whose magnitude is not an integer of that width. -/
theorem ofSigned_eq_ofInt {w : Nat} (n : BitVec w) : ofSigned n = ofInt n.toInt := by
  have hsign : n.slt 0 = decide (n.toInt < 0) := by
    rw [Bool.eq_iff_iff, BitVec.slt_iff_toInt_lt, decide_eq_true_eq, BitVec.ofNat_eq_ofNat,
      BitVec.toInt_zero]
  have hmagnitude : n.abs.toNat = n.toInt.natAbs := by
    have hlt := n.isLt
    rw [BitVec.toNat_abs, BitVec.toInt_eq_msb_cond]
    split <;> omega
  rw [ofSigned, ofInt, hsign, hmagnitude]

theorem ofUnsigned_eq_ofInt {w : Nat} (n : BitVec w) : ofUnsigned n = ofInt n.toNat := by
  have hsign : decide ((n.toNat : Int) < 0) = false := by simp
  rw [ofUnsigned, ofInt, hsign, Int.natAbs_natCast]

/-! ## Texts that denote an integer -/

/-- One or more decimal digits. -/
def Numeral (digits : List Char) : Prop :=
  digits ≠ [] ∧ ∀ c ∈ digits, c.isDigit = true

/-- A text that is an integer: one or more decimal digits after at most one sign. -/
inductive Denotes : String → Int → Prop
  | unsigned {digits : List Char} (h : Numeral digits) :
    Denotes (String.ofList digits) (magnitude digits)
  | positive {digits : List Char} (h : Numeral digits) :
    Denotes (String.ofList ('+' :: digits)) (magnitude digits)
  | negative {digits : List Char} (h : Numeral digits) :
    Denotes (String.ofList ('-' :: digits)) (-(magnitude digits : Int))

theorem all_isDigit_iff (digits : List Char) :
    digits.all isDigit = true ↔ ∀ c ∈ digits, c.isDigit = true := by
  simp only [List.all_eq_true, isDigit_eq]

theorem splitSign_of_numeral {digits : List Char} (h : Numeral digits) :
    splitSign digits = (false, digits) := by
  obtain ⟨hne, hdigits⟩ := h
  unfold splitSign
  split
  · exact absurd (hdigits '-' (by simp)) (by decide)
  · exact absurd (hdigits '+' (by simp)) (by decide)
  · rfl

/-- A text is accepted exactly if digits follow the sign, and all of it is used. -/
theorem parse_eq_ok_iff (text : String) (n : BigInt) :
    parse text = .ok n ↔ Numeral (splitSign text.toList).2 ∧
      n = ofParts (splitSign text.toList).1 (splitSign text.toList).2 := by
  simp only [parse, Numeral, ← all_isDigit_iff]
  split
  · rename_i h
    simp only [h, Except.ok.injEq, ne_eq, not_false_eq_true, and_self, true_and]
    exact eq_comm
  · rename_i h
    simp only [ne_eq, reduceCtorEq, false_iff]
    exact fun hall => h hall.1

/-- What a text denotes is read off its sign and its digits. -/
theorem denotes_iff {text : String} {n : Int} :
    Denotes text n ↔ Numeral (splitSign text.toList).2 ∧
      n = signedValue (splitSign text.toList).1 (splitSign text.toList).2 := by
  constructor
  · intro h
    cases h with
    | unsigned h =>
      rw [String.toList_ofList, splitSign_of_numeral h]
      exact ⟨h, rfl⟩
    | positive h =>
      rw [String.toList_ofList]
      exact ⟨h, rfl⟩
    | negative h =>
      rw [String.toList_ofList]
      exact ⟨h, rfl⟩
  · rintro ⟨hnumeral, rfl⟩
    have htext : text = String.ofList text.toList := (String.ofList_toList).symm
    generalize text.toList = cs at hnumeral htext ⊢
    subst htext
    revert hnumeral
    unfold splitSign
    split
    · exact .negative
    · exact .positive
    · exact .unsigned

/-- A text denotes one integer at most. -/
theorem Denotes.unique {text : String} {n m : Int} (h : Denotes text n) (h' : Denotes text m) :
    n = m :=
  (denotes_iff.mp h).2.trans (denotes_iff.mp h').2.symm

/-- What is denoted is what is read, in its canonical form. -/
theorem parse_eq_ok_of_denotes {text : String} {n : Int} (h : Denotes text n) :
    parse text = .ok (ofInt n) := by
  obtain ⟨hnumeral, rfl⟩ := denotes_iff.mp h
  rw [parse_eq_ok_iff]
  refine ⟨hnumeral, (canonical_ofInt _).eq_of_toInt (canonical_ofParts _ hnumeral.2) ?_⟩
  rw [toInt_ofInt, toInt_ofParts]

theorem denotes_of_parse {text : String} {b : BigInt} (h : parse text = .ok b) :
    ∃ n, Denotes text n := by
  obtain ⟨hnumeral, -⟩ := (parse_eq_ok_iff text b).mp h
  exact ⟨_, denotes_iff.mpr ⟨hnumeral, rfl⟩⟩

/-- The text of a canonical big integer denotes the same integer. -/
theorem Canonical.denotes_toText {n : BigInt} (h : n.Canonical) : Denotes n.toText n.toInt := by
  have hnumeral : Numeral n.digits := ⟨h.digits.nonempty, h.digits.isDigit⟩
  cases hneg : n.negative with
  | false => simpa [toText, toInt, hneg] using Denotes.unsigned hnumeral
  | true => simpa [toText, toInt, hneg] using Denotes.negative hnumeral

/-- Different integers have different texts. -/
theorem eq_of_decimal {m n : Int} (h : decimal m = decimal n) : m = n := by
  have hm := (canonical_ofInt m).denotes_toText
  have hn := (canonical_ofInt n).denotes_toText
  rw [toInt_ofInt] at hm hn
  rw [← decimal, ← h] at hn
  exact hm.unique hn

/-! ## Equality of integers -/

/-- A big integer that was read from a text or converted from a machine integer, with the integer
that the text or the machine integer denotes. -/
inductive Obtained : BigInt → Int → Prop
  | read {text : String} {n : Int} {b : BigInt} (htext : Denotes text n) (h : parse text = .ok b) :
    Obtained b n
  | signed {w : Nat} (n : BitVec w) : Obtained (ofSigned n) n.toInt
  | unsigned {w : Nat} (n : BitVec w) : Obtained (ofUnsigned n) n.toNat

/-- A big integer that is parsed or converted is the canonical one of its integer. -/
theorem Obtained.eq_ofInt {b : BigInt} {n : Int} (h : Obtained b n) : b = ofInt n := by
  cases h with
  | read htext h => exact Except.ok.inj (h.symm.trans (parse_eq_ok_of_denotes htext))
  | signed n => exact ofSigned_eq_ofInt n
  | unsigned n => exact ofUnsigned_eq_ofInt n

/-- Big integers are a canonical representation of the integers. -/
theorem canonical_representation :
    (∀ text, (∃ b, parse text = .ok b) ↔ ∃ n, Denotes text n) ∧
    ∀ b n, Obtained b n →
      b.Canonical ∧
      (∀ c m, Obtained c m → ((b == c) = true ↔ n = m)) ∧
      parse b.toText = .ok b ∧ b.toText = toString n := by
  refine ⟨fun text => ⟨fun ⟨b, h⟩ => denotes_of_parse h,
    fun ⟨n, h⟩ => ⟨_, parse_eq_ok_of_denotes h⟩⟩, fun b n hb => ?_⟩
  have hcanonical := canonical_ofInt n
  have htoInt := toInt_ofInt n
  obtain rfl := hb.eq_ofInt
  refine ⟨hcanonical, fun c m hc => ?_, ?_, ?_⟩
  · obtain rfl := hc.eq_ofInt
    rw [beq_iff_eq]
    constructor
    · intro heq
      rw [← toInt_ofInt n, heq, toInt_ofInt]
    · rintro rfl
      rfl
  · have hdenotes := hcanonical.denotes_toText
    rw [htoInt] at hdenotes
    exact parse_eq_ok_of_denotes hdenotes
  · rw [hcanonical.toText_eq, htoInt]

/-- Zeros in front, the sign of zero, and the least signed byte. -/
theorem canonical_representation_of_texts :
    Denotes "-000123" (-123) ∧ Denotes "-0" 0 ∧
    (ofParts true ['0', '0', '0', '1', '2', '3']).toText = "-123" ∧
    (ofParts true ['0'] == ofUnsigned 0#8) = true ∧
    parse (ofSigned 0x80#8).toText = .ok (ofSigned 0x80#8) ∧ (ofSigned 0x80#8).toText = "-128" := by
  have hnumeral : Numeral ['0', '0', '0', '1', '2', '3'] :=
    ⟨List.cons_ne_nil _ _, (all_isDigit_iff _).mp rfl⟩
  have hzero : Numeral ['0'] := ⟨List.cons_ne_nil _ _, (all_isDigit_iff _).mp rfl⟩
  have htext : Denotes "-000123" (-123) := .negative hnumeral
  have hzeroText : Denotes "-0" 0 := .negative hzero
  have hread : Obtained (ofParts true ['0', '0', '0', '1', '2', '3']) (-123) := .read htext rfl
  have hzeroRead : Obtained (ofParts true ['0']) 0 := .read hzeroText rfl
  obtain ⟨-, hobtained⟩ := canonical_representation
  obtain ⟨-, -, -, hdecimal⟩ := hobtained _ _ hread
  obtain ⟨-, hequal, -, -⟩ := hobtained _ _ hzeroRead
  obtain ⟨-, -, hback, hleast⟩ := hobtained _ _ (.signed 0x80#8)
  exact ⟨htext, hzeroText, hdecimal, (hequal _ _ (.unsigned 0#8)).mpr rfl, hback, hleast⟩

end Conform.BigInt
