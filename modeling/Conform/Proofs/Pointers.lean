import Conform.Proofs.BigInt
import Conform.Proofs.Rejections

/-!
# Pointers tell paths apart

The pointer of a path is taken apart at its slashes, and in each part `~1` is replaced by a slash
first and `~0` by a tilde after that. This undoes the escaping of keys, in the opposite order, and
gives back the text of every segment: `texts_pointer`.

A key of digits has the same text as an index. A path that leads through a value does not mix them
up, for what is left at each segment is either a sequence or a mapping (`eq_of_texts`), and so the
pointer of a rejection determines its path: `pointers_decode`.
-/

namespace Conform

/-! ## Escaping undone -/

/-- Replaces every `a` that is followed by `b`, with that `b`, by `c`. -/
def replacePair (a b c : Char) : List Char → List Char
  | x :: y :: rest =>
    if x = a ∧ y = b then c :: replacePair a b c rest else x :: replacePair a b c (y :: rest)
  | rest => rest

theorem replacePair_cons_of_ne {a b c x : Char} (h : x ≠ a) (rest : List Char) :
    replacePair a b c (x :: rest) = x :: replacePair a b c rest := by
  cases rest with
  | nil => simp [replacePair]
  | cons y rest => simp [replacePair, h]

namespace Segment

/-- What is written for one character of a text. -/
def escapedChar (c : Char) : List Char :=
  if c = '~' then ['~', '0'] else if c = '/' then ['~', '1'] else [c]

/-- The two replacements one after the other are one pass over the text: the second finds no slash
in what the first has put in. -/
theorem escaped_eq_flatMap (text : List Char) : escaped text = text.flatMap escapedChar := by
  rw [escaped, replace, replace, List.flatMap_assoc]
  refine List.flatMap_congr fun c _ => ?_
  by_cases htilde : c = '~'
  · rw [htilde]
    rfl
  · simp [escapedChar, htilde]

/-- Slashes first, so that a tilde that is put in is not taken for the beginning of an escape. -/
def unescaped (part : List Char) : List Char :=
  replacePair '~' '0' '~' (replacePair '~' '1' '/' part)

/-- A slash in the result was escaped: a tilde of the text itself has a zero behind it. -/
theorem replacePair_escaped (text : List Char) :
    replacePair '~' '1' '/' (escaped text) = replace '~' ['~', '0'] text := by
  rw [escaped_eq_flatMap, replace]
  induction text with
  | nil => rfl
  | cons c text ih =>
    by_cases htilde : c = '~'
    · subst htilde
      simp [escapedChar, replacePair, replacePair_cons_of_ne, ih]
    · by_cases hslash : c = '/'
      · subst hslash
        simp [escapedChar, replacePair, ih]
      · simp [escapedChar, htilde, hslash, replacePair_cons_of_ne, ih]

theorem replacePair_replace (text : List Char) :
    replacePair '~' '0' '~' (replace '~' ['~', '0'] text) = text := by
  rw [replace]
  induction text with
  | nil => rfl
  | cons c text ih =>
    by_cases htilde : c = '~'
    · subst htilde
      simp [replacePair, ih]
    · simp [htilde, replacePair_cons_of_ne, ih]

/-- Undoing the escapes of an escaped text gives the text back. -/
theorem unescaped_escaped (text : List Char) : unescaped (escaped text) = text := by
  rw [unescaped, replacePair_escaped, replacePair_replace]

/-- An escaped text holds no separator. -/
theorem slash_not_mem_escaped (text : List Char) : '/' ∉ escaped text := by
  rw [escaped_eq_flatMap, List.mem_flatMap]
  intro ⟨c, _, hc⟩
  by_cases htilde : c = '~'
  · simp [escapedChar, htilde] at hc
  · by_cases hslash : c = '/'
    · simp [escapedChar, hslash] at hc
    · simp [escapedChar, htilde, hslash, Ne.symm hslash] at hc

theorem escaped_of_digits {text : List Char} (h : ∀ c ∈ text, c.isDigit = true) :
    escaped text = text := by
  have hchar {c : Char} (hc : c ∈ text) : escapedChar c = [c] := by
    have hdigit := h c hc
    unfold escapedChar
    rw [if_neg (by rintro rfl; cases hdigit), if_neg (by rintro rfl; cases hdigit)]
  rw [escaped_eq_flatMap, List.flatMap_congr fun c hc => hchar hc, List.flatMap_singleton']

theorem text_index (i : Nat) : (index i).text = toString i := by
  rw [text, BigInt.decimal, (BigInt.canonical_ofInt i).toText_eq, BigInt.toInt_ofInt]
  rfl

/-- An index is written in digits and has nothing to escape. -/
theorem pointer_eq (segment : Segment) : segment.pointer = '/' :: escaped segment.text.toList := by
  cases segment with
  | key name => rfl
  | index i =>
    have hdigits : ∀ c ∈ (index i).text.toList, c.isDigit = true := by
      intro c hc
      rw [text_index, Nat.toString_eq_repr, Nat.repr_eq_ofList_toDigits, String.toList_ofList] at hc
      exact Nat.isDigit_of_mem_toDigits (by omega) (by omega) hc
    rw [escaped_of_digits hdigits]
    rfl

end Segment

/-! ## Pointers taken apart -/

namespace Path

/-- The texts in a pointer: its parts between the slashes, without what is in front of the first. -/
def texts (pointer : String) : List String :=
  (pointer.toList.splitOn '/').tail.map fun part => String.ofList (Segment.unescaped part)

theorem splitOn_append_pointer {front : List Char} (h : '/' ∉ front) (path : Path) :
    (front ++ path.flatMap Segment.pointer).splitOn '/' =
      front :: path.map fun segment => Segment.escaped segment.text.toList := by
  induction path generalizing front with
  | nil => simp [List.splitOn_eq_singleton h]
  | cons segment rest ih =>
    rw [List.flatMap_cons, Segment.pointer_eq, List.cons_append,
      List.splitOn_append_cons_self_of_not_mem h,
      ih (Segment.slash_not_mem_escaped _), List.map_cons]

/-- The pointer of a path, split and unescaped, gives the texts of its segments. -/
theorem texts_pointer (path : Path) : texts path.pointer = path.map Segment.text := by
  have hsplit := splitOn_append_pointer List.not_mem_nil path
  rw [List.nil_append] at hsplit
  rw [texts, pointer, String.toList_ofList, hsplit, List.tail_cons, List.map_map]
  refine List.map_congr_left fun segment _ => ?_
  simp [Segment.unescaped_escaped]

/-- The root alone has the empty pointer. -/
theorem pointer_eq_empty_iff {path : Path} : path.pointer = "" ↔ path = [] := by
  constructor
  · intro h
    have htexts := texts_pointer path
    rw [h] at htexts
    exact List.map_eq_nil_iff.mp htexts.symm
  · rintro rfl
    rfl

end Path

/-! ## Paths through a value -/

namespace Value

/-- What stands at a segment. Under a key that is missing nothing stands, which is a value too. -/
def part? : Value → Segment → Option Value
  | sequence items, .index i => items[i]?
  | mapping entries, .key name => some ((Entries.get? name entries).getD .absent)
  | _, _ => none

/-- The path leads through the value. -/
def Leads (v : Value) : Path → Prop
  | [] => True
  | segment :: rest => ∃ part, v.part? segment = some part ∧ Leads part rest

/-- Two segments with one text are the same in a sequence and in a mapping. -/
theorem segment_eq_of_text {v part part' : Value} {segment other : Segment}
    (h : v.part? segment = some part) (h' : v.part? other = some part')
    (htext : segment.text = other.text) : segment = other := by
  cases v with
  | sequence items =>
    cases segment with
    | key name => simp [part?] at h
    | index i =>
      cases other with
      | key name => simp [part?] at h'
      | index j =>
        have hij : (i : Int) = j := BigInt.eq_of_decimal htext
        rw [Int.ofNat_inj.mp hij]
  | mapping entries =>
    cases segment with
    | index i => simp [part?] at h
    | key name =>
      cases other with
      | index j => simp [part?] at h'
      | key name' => exact congrArg Segment.key htext
  | _ => simp [part?] at h

/-- Of paths that lead somewhere in one value, the texts of the segments tell which is which. -/
theorem eq_of_texts {v : Value} {p q : Path} (hp : v.Leads p) (hq : v.Leads q)
    (h : p.map Segment.text = q.map Segment.text) : p = q := by
  induction p generalizing v q with
  | nil => exact (List.map_eq_nil_iff.mp h.symm).symm
  | cons segment rest ih =>
    cases q with
    | nil => cases h
    | cons other rest' =>
      obtain ⟨part, hpart, hrest⟩ := hp
      obtain ⟨part', hpart', hrest'⟩ := hq
      obtain ⟨hhead, htail⟩ := List.cons.inj h
      obtain rfl := segment_eq_of_text hpart hpart' hhead
      obtain rfl : part = part' := Option.some.inj (hpart.symm.trans hpart')
      rw [ih hrest hrest' htail]

end Value

theorem Step.part? {schema schema' : Schema} {v v' : Value} {segment : Segment}
    (h : Step schema v segment schema' v') (hv : v.DistinctKeys) :
    v.part? segment = some v' := by
  cases h with
  | element hitem => exact hitem
  | position _ _ hitem => exact hitem
  | field hmem => rfl
  | entry hmem =>
    have hget := Entries.get?_eq_some_of_mem (Value.distinctKeys_mapping.mp hv).1 hmem
    simp [Value.part?, hget]

open Schema

/-- The path of every error leads to a place in the subject. -/
theorem leads_of_mem_rejections {schema : Schema} {v : Value} {r : Rejection}
    (hv : v.DistinctKeys) (h : r ∈ rejections schema v) : v.Leads r.path := by
  revert hv
  apply rejection_induction (h := h) (motive := fun _ v r => v.DistinctKeys → v.Leads r.path)
  case own =>
    intros
    trivial
  case key =>
    intros
    exact ⟨_, rfl, trivial⟩
  case part =>
    intro schema v segment schema' v' r hstep hr ih hv
    exact ⟨v', hstep.part? hv, ih (hstep.distinctKeys hv)⟩

theorem result_validateAt_eq_error {schema : Schema} {v : Value} {q : Path} {es : List Rejection}
    (h : (validateAt schema v q).result = .error es) :
    es = (rejections schema v).map (Rejection.under q) := by
  have hends := rejects_at schema v q
  have houtcome : (visit .share schema v q).outcome = .error es := h
  generalize visit .share schema v q = x at hends houtcome
  generalize (rejections schema v).map (Rejection.under q) = found at hends ⊢
  cases hends with
  | accepted misses a => cases houtcome
  | rejected misses hne => exact (Except.error.inj houtcome).symm

/-- **A pointer tells the texts of its path**, whatever characters these have in them; it is empty
at the root only, and among the rejections of one value it tells the path. -/
theorem pointers_decode :
    (∀ path : Path, Path.texts path.pointer = path.map fun
      | .key name => name
      | .index i => toString i) ∧
    (∀ path other : Path, path.pointer = other.pointer →
      path.map Segment.text = other.map Segment.text) ∧
    (∀ path : Path, path.pointer = "" ↔ path = []) ∧
    ∀ (schema : Schema) (v : Value) (q : Path) (es : List Rejection), v.DistinctKeys →
      (validateAt schema v q).result = .error es →
      ∀ r ∈ es, ∀ r' ∈ es, r.path.pointer = r'.path.pointer → r.path = r'.path := by
  have htexts {path other : Path} (h : path.pointer = other.pointer) :
      path.map Segment.text = other.map Segment.text := by
    rw [← Path.texts_pointer, ← Path.texts_pointer, h]
  refine ⟨fun path => ?_, fun _ _ => htexts, fun _ => Path.pointer_eq_empty_iff, ?_⟩
  · rw [Path.texts_pointer]
    refine List.map_congr_left fun segment _ => ?_
    cases segment with
    | key name => rfl
    | index i => exact Segment.text_index i
  · intro schema v q es hv h r hr r' hr' hpointer
    obtain rfl := result_validateAt_eq_error h
    obtain ⟨inner, hinner, rfl⟩ := List.mem_map.mp hr
    obtain ⟨inner', hinner', rfl⟩ := List.mem_map.mp hr'
    have hmap := htexts hpointer
    simp only [Rejection.under, List.map_append, List.append_cancel_left_eq] at hmap ⊢
    exact Value.eq_of_texts (leads_of_mem_rejections hv hinner)
      (leads_of_mem_rejections hv hinner') hmap

/-- Keys that look like escapes and like indices, and an empty key; and two rejections of one
entry, at one path. -/
theorem pointers_decode_namelessContact :
    Path.texts "/a~1~00~1b/0/" = ["a/~0/b", "0", ""] ∧
    namelessContact.DistinctKeys ∧
    (validateAt contacts namelessContact []).result =
      .error [missingName, longLabel, fewDigits] ∧
    longLabel.path.pointer = "/0/numbers/mobile" ∧ fewDigits.path.pointer = "/0/numbers/mobile" ∧
    longLabel.path = fewDigits.path := by
  obtain ⟨htexts, -, -, hpath⟩ := pointers_decode
  have hpointer : longLabel.path.pointer = "/0/numbers/mobile" := by decide
  have hpointer' : fewDigits.path.pointer = "/0/numbers/mobile" := by decide
  exact ⟨htexts [.key "a/~0/b", .index 0, .key ""], distinctKeys_namelessContact,
    validate_namelessContact, hpointer, hpointer',
    hpath _ _ _ _ distinctKeys_namelessContact validate_namelessContact longLabel (by simp)
      fewDigits (by simp) (hpointer.trans hpointer'.symm)⟩

end Conform
