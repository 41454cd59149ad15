import Mathlib.Data.List.TakeWhile
import Conform.Json.Scan
import Conform.Json.Render
import Conform.Proofs.BigInt
import Conform.Proofs.Double.Scaled

/-!
# Numbers read back

A number is read glyph by glyph, so what has been read of a text is a run over its characters
(`Numeral.run`). Whole part, fraction and exponent are read digit by digit, and as long as a word
can hold them all, the significand is the number that the digits make (`Written`). What is written
for an integer is its whole part alone, and its digits fit. What is written for a double always has
a fraction or an exponent; its digits and the power of ten are rounded more than once, so that the
double which is read may be another one. With few digits and a small power only one of the steps
rounds (`Double.scaled_eq_nearest`), and wherever the point stands, the digits and the power make
the same decimal.

* `reads_integer`: the decimal text of an integer is read as the integer.
* `exists_numeral`: the text of a finite double is the text of a number, and not of an integer.
* `reads_short`: a finite double whose text is short and has no exponent is read as the double.
-/

namespace Conform

namespace BigInt

theorem magnitude_replicate_append (n : Nat) (digits : List Char) :
    magnitude (List.replicate n '0' ++ digits) = magnitude digits := by
  induction n with
  | zero => rfl
  | succ n ih => rw [List.replicate_succ, List.cons_append, magnitude_zero_cons, ih]

theorem magnitude_append_replicate (n : Nat) (digits : List Char) :
    magnitude (digits ++ List.replicate n '0') = magnitude digits * 10 ^ n := by
  induction n with
  | zero => rw [List.replicate_zero, List.append_nil, Nat.pow_zero, Nat.mul_one]
  | succ n ih =>
    have hzero : digitValue '0' = 0 := rfl
    rw [List.replicate_succ', ← List.append_assoc, magnitude_append_singleton, ih, hzero,
      Nat.add_zero, Nat.pow_succ, Nat.mul_assoc]

theorem isDigit_replicate (n : Nat) : ∀ c ∈ List.replicate n '0', c.isDigit = true := by
  intro c hc
  rw [List.eq_of_mem_replicate hc]
  rfl

/-- So many digits stand for a number below the power of ten of their count. -/
theorem magnitude_lt {digits : List Char} (h : ∀ c ∈ digits, c.isDigit = true) :
    magnitude digits < 10 ^ digits.length := by
  induction digits using List.reverseRecOn with
  | nil => exact Nat.one_pos
  | append_singleton front c ih =>
    have hfront := ih fun d hd => h d (List.mem_append_left _ hd)
    have hc := digitValue_lt (h c (by simp))
    rw [magnitude_append_singleton, List.length_append, List.length_singleton, Nat.pow_succ]
    omega

theorem digitValue_eq_zero_iff {c : Char} (h : c.isDigit = true) : digitValue c = 0 ↔ c = '0' := by
  constructor
  · intro hzero
    have hchar := digitChar_digitValue h
    rw [hzero] at hchar
    exact hchar.symm
  · intro hchar
    rw [hchar]
    rfl

end BigInt

namespace Json.Numeral

open BigInt (magnitude Standard digitValue)

variable {n n' : Numeral} {negative exponentNegative : Bool} {w f x digits : List Char} {c : Char}

/-! ## Runs over characters -/

/-- What has been read after the characters, if a number can go on so. -/
def run (n : Numeral) : List Char → Option Numeral
  | [] => some n
  | c :: rest =>
    match n.extend (some c) with
    | .more n => run n rest
    | .ended | .invalid => none

theorem run_cons (h : n.extend (some c) = .more n') (rest : List Char) :
    run n (c :: rest) = run n' rest := by
  rw [run, h]

theorem run_append (h : run n digits = some n') (rest : List Char) :
    run n (digits ++ rest) = run n' rest := by
  induction digits generalizing n with
  | nil =>
    obtain rfl : n = n' := Option.some.inj h
    rfl
  | cons c text ih =>
    rw [run] at h
    rw [List.cons_append, run]
    cases hextend : n.extend (some c) with
    | more next =>
      rw [hextend] at h
      exact ih h
    | ended | invalid =>
      rw [hextend] at h
      cases h

theorem digit?_of_isDigit (h : c.isDigit = true) : digit? (some c) = some (digitValue c) := by
  rw [digit?, BigInt.isDigit_eq, if_pos h]

/-- What every further digit preserves is so after all digits. -/
theorem run_digits {P : List Char → Numeral → Prop}
    (hstep : ∀ done c n, c.isDigit = true → P done n →
      ∃ n', n.extend (some c) = .more n' ∧ P (done ++ [c]) n')
    (h : ∀ c ∈ digits, c.isDigit = true) {done : List Char} (hn : P done n) :
    ∃ n', run n digits = some n' ∧ P (done ++ digits) n' := by
  induction digits generalizing n done with
  | nil => exact ⟨n, rfl, by rwa [List.append_nil]⟩
  | cons c rest ih =>
    obtain ⟨next, hextend, hnext⟩ := hstep done c n (h c List.mem_cons_self) hn
    obtain ⟨n', hrun, hn'⟩ := ih (fun d hd => h d (List.mem_cons_of_mem _ hd)) hnext
    refine ⟨n', ?_, ?_⟩
    · rw [run_cons hextend, hrun]
    · rwa [List.append_assoc, List.singleton_append] at hn'

/-! ## Numbers by their digits -/

/-- No digit has been passed over. -/
structure Exact (n : Numeral) (w f : List Char) : Prop where
  significand_eq : n.significand = magnitude (w ++ f)
  shift_eq : n.shift = -(f.length : Int)
  not_surplus : n.phase ≠ .surplus
  not_remainder : n.phase ≠ .remainder

/-- The digits `w` before the point, `f` behind it and `x` in the exponent have been read, and none
of them has been passed over if a word can hold `w` and `f` together. -/
structure Written (n : Numeral) (negative : Bool) (w f : List Char) (exponentNegative : Bool)
    (x : List Char) : Prop where
  negative_eq : n.negative = negative
  exponentNegative_eq : n.exponentNegative = exponentNegative
  exponent_eq : n.exponent = magnitude x
  exact : magnitude (w ++ f) < wordLimit → n.Exact w f

/-- Only the digits before the point have been read. -/
def Phase.InWhole (phase : Phase) : Prop :=
  phase = .leadingZero ∨ phase = .whole ∨ phase = .surplus

/-- Digits behind the point have been read, and no exponent. -/
def Phase.InFraction (phase : Phase) : Prop :=
  phase = .fraction ∨ phase = .remainder

theorem Written.setPhase (phase : Phase) (h : n.Written negative w f false x)
    (hsurplus : phase ≠ .surplus) (hremainder : phase ≠ .remainder) :
    Written { n with phase := phase } negative w f false x where
  negative_eq := h.negative_eq
  exponentNegative_eq := h.exponentNegative_eq
  exponent_eq := h.exponent_eq
  exact hfits :=
    have hexact := h.exact hfits
    ⟨hexact.significand_eq, hexact.shift_eq, hsurplus, hremainder⟩

/-- If a word holds the digits and one more, it has held them before. -/
theorem Written.before {all : List Char} (h : n.Written negative w f exponentNegative x)
    (hall : magnitude (all ++ [c]) < wordLimit) (heq : w ++ f = all) :
    n.Exact w f ∧ n.significand * 10 + digitValue c = magnitude (all ++ [c]) := by
  subst heq
  rw [BigInt.magnitude_append_singleton] at hall
  have hexact := h.exact (by omega)
  refine ⟨hexact, ?_⟩
  rw [BigInt.magnitude_append_singleton, hexact.significand_eq]

/-- One more digit in front of the point, taken or surplus, is accounted for. -/
theorem Written.wholeDigit (h : n.Written negative w [] false []) (c : Char) :
    (n.wholeDigit (digitValue c)).Written negative (w ++ [c]) [] false [] := by
  unfold Numeral.wholeDigit
  by_cases hfits : n.phase ≠ .surplus ∧ n.significand * 10 + digitValue c < wordLimit
  · rw [if_pos hfits]
    refine ⟨h.negative_eq, h.exponentNegative_eq, h.exponent_eq, fun hall => ?_⟩
    rw [List.append_nil] at hall
    obtain ⟨hexact, hsum⟩ := h.before hall (List.append_nil w)
    exact ⟨by rw [hsum, List.append_nil], hexact.shift_eq, nofun, nofun⟩
  · rw [if_neg hfits]
    refine ⟨h.negative_eq, h.exponentNegative_eq, h.exponent_eq, fun hall => ?_⟩
    rw [List.append_nil] at hall
    obtain ⟨hexact, hsum⟩ := h.before hall (List.append_nil w)
    exact absurd ⟨hexact.not_surplus, hsum ▸ hall⟩ hfits

/-- One more digit behind the point, taken or left out, is accounted for. -/
theorem Written.fractionDigit (h : n.Written negative w f false []) (c : Char) :
    (n.fractionDigit (digitValue c)).Written negative w (f ++ [c]) false [] := by
  unfold Numeral.fractionDigit
  by_cases hfits : n.phase ≠ .remainder ∧ n.significand * 10 + digitValue c < wordLimit
  · rw [if_pos hfits]
    refine ⟨h.negative_eq, h.exponentNegative_eq, h.exponent_eq, fun hall => ?_⟩
    rw [← List.append_assoc] at hall
    obtain ⟨hexact, hsum⟩ := h.before hall rfl
    refine ⟨by rw [hsum, List.append_assoc], ?_, nofun, nofun⟩
    have hshift := hexact.shift_eq
    simp only [List.length_append, List.length_singleton]
    omega
  · rw [if_neg hfits]
    refine ⟨h.negative_eq, h.exponentNegative_eq, h.exponent_eq, fun hall => ?_⟩
    rw [← List.append_assoc] at hall
    obtain ⟨hexact, hsum⟩ := h.before hall rfl
    exact absurd ⟨hexact.not_remainder, hsum ▸ hall⟩ hfits

/-- One more digit of the exponent is accounted for. -/
theorem Written.exponentDigit (h : n.Written negative w f exponentNegative x) (c : Char) :
    (n.exponentDigit (digitValue c)).Written negative w f exponentNegative (x ++ [c]) where
  negative_eq := h.negative_eq
  exponentNegative_eq := h.exponentNegative_eq
  exponent_eq := by
    rw [Numeral.exponentDigit, BigInt.magnitude_append_singleton, h.exponent_eq]
  exact hfits :=
    have hexact := h.exact hfits
    ⟨hexact.significand_eq, hexact.shift_eq, nofun, nofun⟩

/-! ## Runs over the parts of a number -/

theorem phase_wholeDigit (n : Numeral) (d : Nat) :
    (n.wholeDigit d).phase = .whole ∨ (n.wholeDigit d).phase = .surplus := by
  unfold Numeral.wholeDigit
  split
  · exact .inl rfl
  · exact .inr rfl

theorem phase_fractionDigit (n : Numeral) (d : Nat) : (n.fractionDigit d).phase.InFraction := by
  unfold Numeral.fractionDigit
  split
  · exact .inl rfl
  · exact .inr rfl

/-- The whole part, in standard form, is read to its end. -/
theorem run_whole (negative : Bool) (hw : Standard w) :
    ∃ n, run (.start .minus negative 0) w = some n ∧ n.phase.InWhole ∧
      n.Written negative w [] false [] := by
  obtain ⟨c, rest, rfl⟩ := List.exists_cons_of_ne_nil hw.nonempty
  have hc : c.isDigit = true := hw.isDigit c List.mem_cons_self
  let first : Numeral :=
    ⟨if digitValue c = 0 then .leadingZero else .whole, negative, digitValue c, 0, false, 0⟩
  have hfirst : (start .minus negative 0).extend (some c) = .more first := by
    simp only [extend, start, digit?_of_isDigit hc, first]
  have hwritten : first.Written negative [c] [] false [] := by
    refine ⟨rfl, rfl, rfl, fun _ => ⟨by simp [first, magnitude], rfl, ?_, ?_⟩⟩ <;>
      · simp only [first]
        split <;> decide
  by_cases hzero : c = '0'
  · -- nothing follows a zero
    have hrest : c :: rest = ['0'] := hw.head (by rw [hzero]; rfl)
    obtain ⟨rfl, rfl⟩ := List.cons.inj hrest
    exact ⟨first, run_cons hfirst [], .inl rfl, hwritten⟩
  · have hphase : first.phase = .whole :=
      if_neg (mt (BigInt.digitValue_eq_zero_iff hc).mp hzero)
    have hstep (done : List Char) (d : Char) (n : Numeral) (hd : d.isDigit = true)
        (hn : (n.phase = .whole ∨ n.phase = .surplus) ∧ n.Written negative done [] false []) :
        ∃ n', n.extend (some d) = .more n' ∧
          (n'.phase = .whole ∨ n'.phase = .surplus) ∧
            n'.Written negative (done ++ [d]) [] false [] := by
      refine ⟨n.wholeDigit (digitValue d), ?_, phase_wholeDigit _ _, hn.2.wholeDigit d⟩
      rcases hn.1 with h | h <;> simp only [extend, h, digit?_of_isDigit hd]
    obtain ⟨n, hrun, hn, hwritten⟩ := run_digits hstep
      (fun d hd => hw.isDigit d (List.mem_cons_of_mem _ hd)) ⟨.inl hphase, hwritten⟩
    exact ⟨n, (run_cons hfirst rest).trans hrun, .inr hn, hwritten⟩

theorem extend_point (h : n.phase.InWhole) :
    n.extend (some '.') = .more { n with phase := .point } := by
  have hnone : digit? (some '.') = none := rfl
  rcases h with h | h | h <;> simp only [extend, h, hnone, afterWhole, if_true]

theorem extend_mark (h : n.phase.InWhole ∨ n.phase.InFraction) :
    n.extend (some 'e') = .more { n with phase := .exponentMark } := by
  have hnone : digit? (some 'e') = none := rfl
  rcases h with (h | h | h) | h | h <;> simp [extend, h, hnone, afterWhole]

/-- The digits around a point. -/
theorem run_point (negative : Bool) (hw : Standard w) (hf : ∀ c ∈ f, c.isDigit = true)
    (hne : f ≠ []) :
    ∃ n, run (.start .minus negative 0) (w ++ '.' :: f) = some n ∧ n.phase.InFraction ∧
      n.Written negative w f false [] := by
  obtain ⟨whole, hrun, hphase, hwritten⟩ := run_whole negative hw
  obtain ⟨c, rest, rfl⟩ := List.exists_cons_of_ne_nil hne
  have hc := hf c List.mem_cons_self
  have hpoint := hwritten.setPhase .point nofun nofun
  have hfirst : Numeral.extend { whole with phase := .point } (some c) =
      .more (Numeral.fractionDigit { whole with phase := .point } (digitValue c)) := by
    simp only [extend, digit?_of_isDigit hc]
  have hstep (done : List Char) (d : Char) (n : Numeral) (hd : d.isDigit = true)
      (hn : n.phase.InFraction ∧ n.Written negative w done false []) :
      ∃ n', n.extend (some d) = .more n' ∧ n'.phase.InFraction ∧
        n'.Written negative w (done ++ [d]) false [] := by
    refine ⟨n.fractionDigit (digitValue d), ?_, phase_fractionDigit _ _, hn.2.fractionDigit d⟩
    rcases hn.1 with h | h <;> simp only [extend, h, digit?_of_isDigit hd]
  obtain ⟨n, hrest, hn⟩ := run_digits hstep
    (fun d hd => hf d (List.mem_cons_of_mem _ hd))
    ⟨phase_fractionDigit _ _, hpoint.fractionDigit c⟩
  refine ⟨n, ?_, hn⟩
  rw [run_append hrun, run_cons (extend_point hphase), run_cons hfirst, hrest]

/-- The digits around the point, which is left out if none stand behind it. -/
def mantissa (w f : List Char) : List Char :=
  if f = [] then w else w ++ '.' :: f

/-- A mantissa is read to its end, with or without a fraction. -/
theorem run_mantissa (negative : Bool) (hw : Standard w) (hf : ∀ c ∈ f, c.isDigit = true) :
    ∃ n, run (.start .minus negative 0) (mantissa w f) = some n ∧
      (n.phase.InWhole ∨ n.phase.InFraction) ∧ n.Written negative w f false [] := by
  unfold mantissa
  by_cases hnil : f = []
  · subst hnil
    obtain ⟨n, hrun, hphase, hwritten⟩ := run_whole negative hw
    exact ⟨n, hrun, .inl hphase, hwritten⟩
  · rw [if_neg hnil]
    obtain ⟨n, hrun, hphase, hwritten⟩ := run_point negative hw hf hnil
    exact ⟨n, hrun, .inr hphase, hwritten⟩

/-- So is a mantissa with an exponent behind it, of either sign. -/
theorem run_exponent (negative exponentNegative : Bool) (hw : Standard w)
    (hf : ∀ c ∈ f, c.isDigit = true) (hx : Standard x) :
    ∃ n, run (.start .minus negative 0)
        (mantissa w f ++ 'e' :: (if exponentNegative then '-' else '+') :: x) = some n ∧
      n.phase = .exponent ∧ n.Written negative w f exponentNegative x := by
  obtain ⟨n, hrun, hphase, hwritten⟩ := run_mantissa negative hw hf
  have hmark := hwritten.setPhase .exponentSign (by decide) (by decide)
  let signed : Numeral := { n with phase := .exponentSign, exponentNegative := exponentNegative }
  have hsign : Numeral.extend { n with phase := .exponentMark }
      (some (if exponentNegative then '-' else '+')) = .more signed := by
    have hpositive := hwritten.exponentNegative_eq
    cases exponentNegative with
    | true => rfl
    | false => simp [extend, digit?, BigInt.isDigit, signed, hpositive]
  have hsigned : signed.Written negative w f exponentNegative [] :=
    ⟨hmark.negative_eq, rfl, hmark.exponent_eq, fun hfits =>
      have hexact := hmark.exact hfits
      ⟨hexact.significand_eq, hexact.shift_eq, Phase.noConfusion, Phase.noConfusion⟩⟩
  obtain ⟨c, rest, rfl⟩ := List.exists_cons_of_ne_nil hx.nonempty
  have hc := hx.isDigit c List.mem_cons_self
  have hfirst : signed.extend (some c) = .more (signed.exponentDigit (digitValue c)) := by
    simp only [extend, digit?_of_isDigit hc, signed]
  have hstep (done : List Char) (d : Char) (n : Numeral) (hd : d.isDigit = true)
      (hn : n.phase = .exponent ∧ n.Written negative w f exponentNegative done) :
      ∃ n', n.extend (some d) = .more n' ∧ n'.phase = .exponent ∧
        n'.Written negative w f exponentNegative (done ++ [d]) := by
    refine ⟨n.exponentDigit (digitValue d), ?_, rfl, hn.2.exponentDigit d⟩
    simp only [extend, hn.1, digit?_of_isDigit hd]
  obtain ⟨n', hrest, hn'⟩ := run_digits hstep
    (fun d hd => hx.isDigit d (List.mem_cons_of_mem _ hd)) ⟨rfl, hsigned.exponentDigit c⟩
  refine ⟨n', ?_, hn'⟩
  rw [run_append hrun, run_cons (extend_mark hphase), run_cons hsign, run_cons hfirst, hrest]

/-! ## What is read -/

/-- The characters after the sign are read as the scalar. -/
def Reads (negative : Bool) (unsigned : List Char) (s : Scalar) : Prop :=
  ∃ n, run (.start .minus negative 0) unsigned = some n ∧ n.isComplete = true ∧ n.value = .ok s

/-- The text of a number: a minus, if need be, and the rest. -/
def signed (negative : Bool) (unsigned : List Char) : List Char :=
  if negative then '-' :: unsigned else unsigned

theorem isComplete_of_phase
    (h : n.phase.InWhole ∨ n.phase.InFraction ∨ n.phase = .exponent) : n.isComplete = true := by
  rcases h with (h | h | h) | (h | h) | h <;> simp only [isComplete, h]

theorem integer?_of_phase (h : n.phase.InFraction ∨ n.phase = .exponent) : n.integer? = none := by
  rcases h with (h | h) | h <;> simp only [integer?, h]

/-! ### Integers -/

theorem ofInt?_value (i : Integer) : Integer.ofInt? i.value = some i :=
  dif_pos ⟨i.lower, i.upper⟩

/-- A whole part that fits a machine word is taken as this integer. -/
theorem integer?_of_whole {b : BigInt} (hb : b.Canonical) (hphase : n.phase.InWhole)
    (hn : n.Written b.negative b.digits [] false []) (hfits : magnitude b.digits < wordLimit) :
    n.integer? = Integer.ofInt? b.toInt := by
  have hexact := hn.exact (by rwa [List.append_nil])
  have hsignificand : n.significand = magnitude b.digits := by
    rw [hexact.significand_eq, List.append_nil]
  have hshort : n.phase = .leadingZero ∨ n.phase = .whole := by
    rcases hphase with h | h | h
    · exact .inl h
    · exact .inr h
    · exact absurd h hexact.not_surplus
  cases hneg : b.negative with
  | false =>
    rcases hshort with h | h <;>
      simp [integer?, h, hn.negative_eq, hsignificand, BigInt.toInt, hneg]
  | true =>
    have hpos := Nat.ne_of_gt (hb.magnitude_pos hneg)
    rcases hshort with h | h <;>
      simp [integer?, h, hn.negative_eq, hsignificand, BigInt.toInt, hneg, hpos]

/-- An integer of a word is read back from its decimal text. -/
theorem reads_integer (i : Integer) :
    ∃ unsigned, (BigInt.decimal i.value).toList = signed (BigInt.ofInt i.value).negative unsigned ∧
      Reads (BigInt.ofInt i.value).negative unsigned (.integer i) := by
  have hcanonical := BigInt.canonical_ofInt i.value
  have hvalue := BigInt.toInt_ofInt i.value
  have hfits : magnitude (BigInt.ofInt i.value).digits < wordLimit := by
    have habs := BigInt.natAbs_toInt (BigInt.ofInt i.value)
    have hlower := i.lower
    have hupper := i.upper
    rw [hvalue] at habs
    rw [wordLimit]
    omega
  rw [BigInt.decimal]
  generalize BigInt.ofInt i.value = b at *
  obtain ⟨n, hrun, hphase, hwritten⟩ := run_whole b.negative hcanonical.digits
  have hinteger := integer?_of_whole hcanonical hphase hwritten hfits
  refine ⟨b.digits, by rw [BigInt.toText, String.toList_ofList, signed], n, hrun,
    isComplete_of_phase (.inl hphase), ?_⟩
  rw [hvalue, ofInt?_value] at hinteger
  rw [value, hinteger]

/-! ### Doubles -/

/-- The digits around a point: the given digits with the exponent `e` of the first of them, and
zeros behind them. -/
structure Pointed (digits : List Char) (e : Int) (w f : List Char) (zeros : Nat) : Prop where
  whole : Standard w
  fraction : ∀ c ∈ f, c.isDigit = true
  magnitude_eq : magnitude (w ++ f) = magnitude digits * 10 ^ zeros
  length_eq : (f.length : Int) = digits.length - 1 - e + zeros

theorem pointed_below {e : Int} (h : Standard digits) (he : e < 0) :
    Pointed digits e ['0'] (List.replicate (-e - 1).toNat '0' ++ digits) 0 where
  whole := BigInt.standard_toDigits 0
  fraction c hc := (List.mem_append.mp hc).elim (BigInt.isDigit_replicate _ c) (h.isDigit c)
  magnitude_eq := by
    rw [List.singleton_append, BigInt.magnitude_zero_cons, BigInt.magnitude_replicate_append,
      Nat.pow_zero, Nat.mul_one]
  length_eq := by
    rw [List.length_append, List.length_replicate]
    omega

theorem pointed_behind {whole : Nat} (h : Standard digits) (hle : digits.length ≤ whole)
    (hzero : digits.head? = some '0' → whole = 1) :
    Pointed digits (whole - 1) (digits ++ List.replicate (whole - digits.length) '0') ['0']
      (whole - digits.length + 1) where
  whole := by
    refine ⟨by simp [h.nonempty], fun c hc => ?_, fun hhead => ?_⟩
    · exact (List.mem_append.mp hc).elim (h.isDigit c) (BigInt.isDigit_replicate _ c)
    · have hhead : digits.head? = some '0' := by
        rwa [List.head?_append, Option.or_of_isSome (by simpa using h.nonempty)] at hhead
      rw [hzero hhead, h.head hhead]
      rfl
  fraction := BigInt.isDigit_replicate 1
  magnitude_eq := by
    rw [List.append_assoc, ← List.replicate_succ', BigInt.magnitude_append_replicate]
  length_eq := by
    rw [List.length_singleton]
    omega

theorem pointed_within {whole : Nat} (h : Standard digits) (hpos : 0 < whole)
    (hle : whole ≤ digits.length) :
    Pointed digits (whole - 1) (digits.take whole) (digits.drop whole) 0 where
  whole := by
    have hsplit : Standard (digits.take whole ++ digits.drop whole) := by
      rwa [List.take_append_drop]
    apply hsplit.front
    rw [← List.length_pos_iff, List.length_take]
    omega
  fraction c hc := h.isDigit c (List.mem_of_mem_drop hc)
  magnitude_eq := by rw [List.take_append_drop, Nat.pow_zero, Nat.mul_one]
  length_eq := by
    rw [List.length_drop]
    omega

/-- Wherever the point stands, there are digits on both sides of it. -/
theorem exists_pointed {e : Int} (h : Standard digits)
    (hzero : digits.head? = some '0' → e = 0) :
    ∃ w f zeros, Double.positional digits e = w ++ '.' :: f ∧ f ≠ [] ∧
      Pointed digits e w f zeros := by
  -- the point stands in front of all digits, behind them or between two of them
  unfold Double.positional
  split
  · rename_i hneg
    exact ⟨_, _, _, rfl, by simp [h.nonempty], pointed_below h hneg⟩
  · rename_i hnonneg
    generalize hwhole : e.toNat + 1 = whole
    obtain rfl : e = whole - 1 := by omega
    dsimp only
    split
    · rename_i hle
      rw [List.take_of_length_le hle]
      refine ⟨_, _, _, rfl, List.cons_ne_nil _ _, pointed_behind h hle fun hhead => ?_⟩
      have := hzero hhead
      omega
    · rename_i hlt
      rw [Nat.sub_eq_zero_of_le (Nat.le_of_not_le hlt), List.replicate_zero, List.append_nil]
      refine ⟨_, _, _, rfl, ?_, pointed_within h (by omega) (Nat.le_of_not_le hlt)⟩
      rw [← List.length_pos_iff, List.length_drop]
      omega

/-- The text with an exponent as a run sees it. -/
theorem exponential_eq (digits : List Char) (e : Int) :
    Double.exponential digits e = mantissa (digits.take 1) (digits.drop 1) ++
      'e' :: (if decide (e < 0) then '-' else '+') :: Nat.toDigits 10 e.natAbs := by
  simp only [Double.exponential, mantissa, decide_eq_true_eq]
  split <;> simp

section

variable {e : Int} {y : Double}

theorem exists_zeros (all : List Char) :
    ∃ zeros, (all.reverse.dropWhile (· = '0')).reverse ++ List.replicate zeros '0' = all := by
  have htake : all.reverse.takeWhile (· = '0') =
      List.replicate (all.reverse.takeWhile (· = '0')).length '0' :=
    List.eq_replicate_of_mem fun c hc => by simpa using List.mem_takeWhile_imp hc
  refine ⟨(all.reverse.takeWhile (· = '0')).length, ?_⟩
  rw [← List.reverse_replicate, ← htake, ← List.reverse_append, List.takeWhile_append_dropWhile,
    List.reverse_reverse]

/-- Zeros at the end of the shortest digits are not written. -/
theorem nearest_scientific (hfinite : y.isFinite = true) (hne : y.magnitude ≠ 0) :
    ∃ digits e, Double.scientific y.shortest = (digits, e) ∧ Standard digits ∧
      digits.head? ≠ some '0' ∧
      Double.nearest y.negative (magnitude digits) (e - (digits.length - 1)) = y := by
  have hdigits := Double.shortest_digits_ne_zero hfinite hne
  have hread := Double.nearest_of_shortest hfinite
  generalize y.shortest = d at *
  have hall := BigInt.standard_toDigits d.digits
  have hvalue := BigInt.magnitude_toDigits d.digits
  obtain ⟨zeros, hsplit⟩ := exists_zeros (Nat.toDigits 10 d.digits)
  unfold Double.scientific
  generalize Nat.toDigits 10 d.digits = all at *
  dsimp only
  generalize (all.reverse.dropWhile (· = '0')).reverse = significant at *
  subst hsplit
  rw [BigInt.magnitude_append_replicate] at hvalue
  have hmagnitude : magnitude significant ≠ 0 := fun hzero => hdigits (by
    rw [← hvalue, hzero, Nat.zero_mul])
  have hsome : significant ≠ [] := fun hnil => hmagnitude (by rw [hnil]; rfl)
  have hhead : significant.head? ≠ some '0' := fun hzero => hmagnitude (by
    rw [(hall.eq_zero_of_head hzero).1]
    rfl)
  rw [if_neg hsome]
  refine ⟨_, _, rfl, hall.front hsome, hhead, ?_⟩
  have hexponent : d.exponent + (significant ++ List.replicate zeros '0').length - 1 -
      (significant.length - 1) - zeros = d.exponent := by
    rw [List.length_append, List.length_replicate]
    omega
  rw [← Double.nearest_mul_pow _ _ zeros, hvalue, hexponent, hread]

/-- The digits that are written, and the exponent of the first of them, tell the double. -/
theorem exists_digits (hfinite : y.isFinite = true) :
    ∃ digits e,
      y.text.toList = signed y.negative (if -5 ≤ e ∧ e ≤ 15 then Double.positional digits e
        else Double.exponential digits e) ∧
      Standard digits ∧ (digits.head? = some '0' → e = 0) ∧
      Double.nearest y.negative (magnitude digits) (e - (digits.length - 1)) = y := by
  rw [Double.text]
  split
  · rename_i digits e hchosen
    rw [String.toList_ofList]
    refine ⟨digits, e, rfl, ?_⟩
    by_cases hmagnitude : y.magnitude = 0
    · rw [if_pos hmagnitude] at hchosen
      obtain ⟨rfl, rfl⟩ := Prod.mk.inj hchosen
      have hdigits : magnitude ['0'] = 0 := rfl
      refine ⟨BigInt.standard_toDigits 0, fun _ => rfl, ?_⟩
      rw [Double.nearest, if_pos hdigits, Double.zero_of_magnitude hmagnitude]
    · rw [if_neg hmagnitude] at hchosen
      obtain ⟨digits', e', hscientific, hstandard, hhead, hy⟩ :=
        nearest_scientific hfinite hmagnitude
      obtain ⟨rfl, rfl⟩ := Prod.mk.inj (hscientific.symm.trans hchosen)
      exact ⟨hstandard, fun hzero => absurd hzero hhead, hy⟩

/-- The text of a finite double is a number with a fraction or an exponent, so what is read is a
double or out of range. -/
theorem exists_numeral (hfinite : y.isFinite = true) :
    ∃ unsigned n, y.text.toList = signed y.negative unsigned ∧
      run (.start .minus y.negative 0) unsigned = some n ∧ n.isComplete = true ∧
      n.integer? = none := by
  obtain ⟨digits, e, htext, hstandard, hzero, -⟩ := exists_digits hfinite
  by_cases hrange : -5 ≤ e ∧ e ≤ 15
  · rw [if_pos hrange] at htext
    obtain ⟨w, f, zeros, hsplit, hf, hpointed⟩ := exists_pointed hstandard hzero
    obtain ⟨n, hrun, hphase, -⟩ :=
      run_point y.negative hpointed.whole hpointed.fraction hf
    rw [hsplit] at htext
    exact ⟨_, n, htext, hrun, isComplete_of_phase (.inr (.inl hphase)),
      integer?_of_phase (.inl hphase)⟩
  · rw [if_neg hrange, exponential_eq] at htext
    have hpointed := pointed_within hstandard Nat.one_pos
      (List.length_pos_iff.mpr hstandard.nonempty)
    obtain ⟨n, hrun, hphase, -⟩ := run_exponent y.negative (e < 0) hpointed.whole
      hpointed.fraction (BigInt.standard_toDigits e.natAbs)
    exact ⟨_, n, htext, hrun, isComplete_of_phase (.inr (.inr hphase)),
      integer?_of_phase (.inr hphase)⟩

/-! ### Short texts -/

/-- Few digits around a point are rounded once. -/
theorem Written.toDouble_of_short (h : n.Written negative w f false [])
    (hw : ∀ c ∈ w ++ f, c.isDigit = true) (hlength : (w ++ f).length ≤ 15) :
    n.toDouble = .nearest negative (magnitude (w ++ f)) (-(f.length : Int)) := by
  have hmagnitude : magnitude (w ++ f) < 10 ^ 15 :=
    Nat.lt_of_lt_of_le (BigInt.magnitude_lt hw) (Nat.pow_le_pow_right (by decide) hlength)
  have hexact := h.exact (Nat.lt_trans hmagnitude (by decide))
  have hexponent : n.exponent = 0 := h.exponent_eq
  have hshift : n.shift + n.signedExponent = -(f.length : Int) := by
    rw [hexact.shift_eq, signedExponent, h.exponentNegative_eq, hexponent]
    simp
  have hf : f.length ≤ 15 := by
    rw [List.length_append] at hlength
    omega
  have hscaled : n.unsigned = .nearest false (magnitude (w ++ f)) (-(f.length : Int)) := by
    rw [unsigned, if_pos (by rw [hexponent]; exact Nat.zero_le _), hshift, hexact.significand_eq]
    apply Double.scaled_eq_nearest (Nat.lt_trans hmagnitude (by decide))
    omega
  rw [toDouble, hscaled, h.negative_eq, Double.nearest_negative]

/-- Without an exponent and with at most fifteen digits a double is read back. -/
theorem reads_short (hfinite : y.isFinite = true) (hexponent : 'e' ∉ y.text.toList)
    (hlength : y.text.toList.length ≤ 16) :
    ∃ unsigned, y.text.toList = signed y.negative unsigned ∧
      Reads y.negative unsigned (.float y hfinite) := by
  obtain ⟨digits, e, htext, hstandard, hzero, hy⟩ := exists_digits hfinite
  rw [htext] at hexponent hlength
  by_cases hrange : -5 ≤ e ∧ e ≤ 15
  · rw [if_pos hrange] at htext hlength
    obtain ⟨w, f, zeros, hsplit, hf, hpointed⟩ := exists_pointed hstandard hzero
    obtain ⟨n, hrun, hphase, hwritten⟩ :=
      run_point y.negative hpointed.whole hpointed.fraction hf
    have hdigits : ∀ c ∈ w ++ f, c.isDigit = true := fun c hc =>
      (List.mem_append.mp hc).elim (hpointed.whole.isDigit c) (hpointed.fraction c)
    have hshort : (w ++ f).length ≤ 15 := by
      rw [hsplit, signed] at hlength
      split at hlength <;> simp only [List.length_cons, List.length_append] at hlength ⊢ <;> omega
    have hdouble : n.toDouble = y := by
      have hpower : -(f.length : Int) = e - (digits.length - 1) - zeros := by
        have := hpointed.length_eq
        omega
      calc n.toDouble = .nearest y.negative (magnitude (w ++ f)) (-(f.length : Int)) :=
            hwritten.toDouble_of_short hdigits hshort
        _ = .nearest y.negative (magnitude digits) (e - (digits.length - 1)) := by
            rw [hpointed.magnitude_eq, hpower, Double.nearest_mul_pow]
        _ = y := hy
    rw [hsplit] at htext
    refine ⟨_, htext, n, hrun, isComplete_of_phase (.inr (.inl hphase)), ?_⟩
    subst hdouble
    rw [value, integer?_of_phase (.inl hphase), dif_pos hfinite]
  · rw [if_neg hrange, exponential_eq] at hexponent
    refine absurd ?_ hexponent
    rw [signed]
    split <;> simp

end

end Json.Numeral

end Conform
