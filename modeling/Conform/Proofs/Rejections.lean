import Conform.Proofs.Visit.Rejected

/-!
# Rejections and where they come from

A rejection names a schema and a value, and it is what that schema says to that value by itself: no
container on the way changes it but by putting a segment in front of its path
(`validate_rejection`). Its path leads there from the whole, or to the entry whose key was rejected
(`walk_of_rejection`). Nothing that is said at a site is lost or reordered on the way up
(`infix_rejections_of_reaches`).

The list of contacts of the first section is the value at which these are looked at.
-/

namespace Conform

open Schema

/-! ## A list of contacts -/

/-- A text with bounds on its length. -/
def shortText (least most : Option UInt64) : Schema :=
  .leaf .plain (.string ⟨least, most⟩) none

/-- Numbers of at least three digits under labels of at most four characters. -/
def numbers : Schema :=
  .record .plain (shortText (some 3) none) (some (shortText none (some 4)))

/-- Each contact has a name and numbers. -/
def contacts : Schema :=
  .array .plain (.object .plain [("name", shortText none none), ("numbers", numbers)]) .unset

/-- A number that is too short under a label that is too long, and a label without a number. -/
def shortNumber : Value :=
  .mapping [("mobile", .string "12"), ("home", .absent)]

/-- A contact that has only numbers. -/
def namelessContact : Value :=
  .sequence [.mapping [("numbers", shortNumber)]]

/-- The name is not there. -/
def missingName : Rejection :=
  ⟨.invalidType, [.index 0, .key "name"], shortText none none, .absent⟩

/-- The label of the number is too long. -/
def longLabel : Rejection :=
  ⟨.invalidRange, [.index 0, .key "numbers", .key "mobile"], shortText none (some 4),
    .string "mobile"⟩

/-- The number itself is too short. -/
def fewDigits : Rejection :=
  ⟨.invalidRange, [.index 0, .key "numbers", .key "mobile"], shortText (some 3) none, .string "12"⟩

theorem wellFormed_contacts : contacts.WellFormed := by
  simp [contacts, numbers, shortText, WellFormed, WellFormedFields, Entries.keys, kind, Leaf.kind]

theorem distinctKeys_namelessContact : namelessContact.DistinctKeys := by
  simp [namelessContact, shortNumber, Value.DistinctKeys, Value.DistinctKeysItems,
    Value.DistinctKeysEntries, Entries.keys]

theorem validate_namelessContact :
    validate contacts namelessContact = .error [missingName, longLabel, fewDigits] :=
  rfl

/-! ## Key schemas -/

/-- A text schema says to a key what it says to the key as a text. -/
theorem Schema.rejections_of_verifyKey {key : Schema} {name : String} {code : Code}
    (hkey : key.kind = .string) (h : key.verifyKey name = some code) :
    code = .invalidRange ∧ rejections key (.string name) = [⟨code, [], key, .string name⟩] := by
  unfold verifyKey at h
  split at h
  · rename_i info length brand
    have hown : (leaf info (.string length) brand).ownCode? (.string name) = some code := h
    constructor
    · unfold Bounds.checkText at h
      split at h
      · cases h
      · exact (Option.some.inj h).symm
    · rw [rejections_eq, nodeRejections, hown]
      simp [Info.exempts, Value.isAbsent, Value.isNull, demands, Rejection.foremost]
  · rename_i hleaf
    cases key with
    | leaf info l brand =>
      cases l with
      | string length => exact absurd rfl (hleaf info length brand)
      | _ => simp [kind, Leaf.kind] at hkey
    | _ => simp [kind] at hkey

/-! ## The same said alone -/

section

variable {schema schema' : Schema} {v v' : Value} {es : List Rejection} {r : Rejection}

/-- **A rejection is what its schema alone says to its subject**: that is rejected with the same
code, at the root, and with no other rejection. -/
theorem validate_rejection (hs : schema.WellFormed) (h : validate schema v = .error es)
    (hr : r ∈ es) : validate r.schema r.subject = .error [{ r with path := [] }] := by
  obtain ⟨rfl, -⟩ := validate_eq_error_iff.mp h
  revert hs
  apply rejection_induction (h := hr)
    (motive := fun schema _ r => schema.WellFormed →
      validate r.schema r.subject = .error [{ r with path := [] }])
  case own =>
    intro schema v code hown hs
    exact validate_eq_error_iff.mpr ⟨hown, List.cons_ne_nil _ _⟩
  case key =>
    intro info value key entries name code hname hcode hs
    obtain ⟨-, hown⟩ := rejections_of_verifyKey hs.2 hcode
    exact validate_eq_error_iff.mpr ⟨hown, List.cons_ne_nil _ _⟩
  case part =>
    intro schema v segment schema' v' r hstep hr ih hs
    exact ih (hstep.wellFormed hs)

/-- A missing field is rejected as an absent value, and a key as a text. -/
theorem validate_rejection_namelessContact :
    contacts.WellFormed ∧
      validate contacts namelessContact = .error [missingName, longLabel, fewDigits] ∧
      validate (shortText none none) .absent = .error [{ missingName with path := [] }] ∧
      validate (shortText none (some 4)) (.string "mobile") =
        .error [{ longLabel with path := [] }] :=
  ⟨wellFormed_contacts, validate_namelessContact,
    validate_rejection (r := missingName) wellFormed_contacts validate_namelessContact (by simp),
    validate_rejection (r := longLabel) wellFormed_contacts validate_namelessContact (by simp)⟩

/-! ## Addresses -/

/-- The rejection is about a key of the mapping to which its path leads but for the last segment:
a key schema found the key too short or too long. -/
def KeyRejected (schema : Schema) (v : Value) (r : Rejection) : Prop :=
  ∃ path name info value key entries,
    schema.walk v path = some (.record info value (some key), .mapping entries) ∧
      name ∈ Entries.keys entries ∧
      r = ⟨.invalidRange, path ++ [.key name], key, .string name⟩

theorem KeyRejected.under {segment : Segment} (h : KeyRejected schema' v' r)
    (hstep : Step schema v segment schema' v') (hs : schema.WellFormed) (hv : v.DistinctKeys) :
    KeyRejected schema v (r.under [segment]) := by
  obtain ⟨path, name, info, value, key, entries, hwalk, hname, rfl⟩ := h
  refine ⟨segment :: path, name, info, value, key, entries, ?_, hname, rfl⟩
  rw [walk_of_step hstep hs hv, hwalk]

/-- **The path of a rejection leads to its schema and its subject**, past no union, unless the
rejection is about the key of a record entry. -/
theorem walk_of_rejection (hs : schema.WellFormed) (hv : v.DistinctKeys)
    (h : validate schema v = .error es) (hr : r ∈ es) :
    schema.walk v r.path = some (r.schema, r.subject) ∨ KeyRejected schema v r := by
  obtain ⟨rfl, -⟩ := validate_eq_error_iff.mp h
  revert hs hv
  apply rejection_induction (h := hr)
    (motive := fun schema v r => schema.WellFormed → v.DistinctKeys →
      schema.walk v r.path = some (r.schema, r.subject) ∨ KeyRejected schema v r)
  case own =>
    intro schema v code hown hs hv
    exact .inl rfl
  case key =>
    intro info value key entries name code hname hcode hs hv
    obtain ⟨rfl, -⟩ := rejections_of_verifyKey hs.2 hcode
    exact .inr ⟨[], name, info, value, key, entries, rfl, hname, rfl⟩
  case part =>
    intro schema v segment schema' v' r hstep hr ih hs hv
    rcases ih (hstep.wellFormed hs) (hstep.distinctKeys hv) with hwalk | hkey
    · left
      exact (walk_of_step hstep hs hv r.path).trans hwalk
    · exact .inr (hkey.under hstep hs hv)

/-- A field that is missing has an address, and so has a key. -/
theorem walk_of_rejection_namelessContact :
    contacts.WellFormed ∧ namelessContact.DistinctKeys ∧
      validate contacts namelessContact = .error [missingName, longLabel, fewDigits] ∧
      (contacts.walk namelessContact missingName.path =
          some (missingName.schema, missingName.subject) ∨
        KeyRejected contacts namelessContact missingName) ∧
      (contacts.walk namelessContact longLabel.path = some (longLabel.schema, longLabel.subject) ∨
        KeyRejected contacts namelessContact longLabel) :=
  ⟨wellFormed_contacts, distinctKeys_namelessContact, validate_namelessContact,
    walk_of_rejection wellFormed_contacts distinctKeys_namelessContact validate_namelessContact
      (by simp),
    walk_of_rejection wellFormed_contacts distinctKeys_namelessContact validate_namelessContact
      (by simp)⟩

/-! ## Nothing is lost -/

/-- The errors of a part stand side by side in those of the whole. -/
theorem infix_rejections_of_step {segment : Segment} (hstep : Step schema v segment schema' v')
    (h : rejections schema' v' ≠ []) :
    (rejections schema' v').map (Rejection.under [segment]) <:+: rejections schema v := by
  have hmem := mem_demands_of_step hstep
  have hne : (Demand.part segment schema' v').rejections ≠ [] := List.map_eq_nil_iff.not.mpr h
  rw [rejections_eq_of_mem_demands hmem hne, List.flatMap]
  exact List.infix_of_mem_flatten (List.mem_map_of_mem hmem)

/-- **What is rejected at a site is rejected in the whole**, in one piece and in the same order,
with the path of the site in front. -/
theorem infix_rejections_of_reaches {q : Path} {es' : List Rejection}
    (hreach : Reaches schema v q schema' v') (h : validate schema' v' = .error es') :
    ∃ es, validate schema v = .error es ∧ es'.map (Rejection.under q) <:+: es := by
  induction hreach with
  | here => exact ⟨es', h, [], [], by simp⟩
  | @step schema schema₁ _ v v₁ _ segment rest hstep _ ih =>
    obtain ⟨es₁, h₁, hblock⟩ := ih h
    obtain ⟨rfl, hne⟩ := validate_eq_error_iff.mp h₁
    have hup := infix_rejections_of_step hstep hne
    have hsome : rejections schema v ≠ [] := by
      intro hnil
      rw [hnil, List.infix_nil, List.map_eq_nil_iff] at hup
      exact hne hup
    refine ⟨rejections schema v, validate_eq_error_iff.mpr ⟨rfl, hsome⟩, ?_⟩
    have hmap : es'.map (Rejection.under (segment :: rest)) =
        (es'.map (Rejection.under rest)).map (Rejection.under [segment]) := by
      rw [List.map_map]
      exact List.map_congr_left fun r _ => (Rejection.under_under [segment] rest r).symm
    rw [hmap]
    exact List.IsInfix.trans (List.IsInfix.map _ hblock) hup

/-- The two rejections of the one entry with a number are the last two of the whole. -/
theorem infix_rejections_of_reaches_shortNumber :
    Reaches contacts namelessContact [.index 0, .key "numbers"] numbers shortNumber ∧
      validate numbers shortNumber =
        .error [{ longLabel with path := [.key "mobile"] },
          { fewDigits with path := [.key "mobile"] }] ∧
      ∃ es, validate contacts namelessContact = .error es ∧
        List.map (Rejection.under [.index 0, .key "numbers"])
          [{ longLabel with path := [.key "mobile"] },
            { fewDigits with path := [.key "mobile"] }] <:+: es := by
  have hreach : Reaches contacts namelessContact [.index 0, .key "numbers"] numbers shortNumber :=
    .step (.element rfl) (.step (.field (by simp)) .here)
  have hvalidate : validate numbers shortNumber =
      .error [{ longLabel with path := [.key "mobile"] },
        { fewDigits with path := [.key "mobile"] }] := rfl
  exact ⟨hreach, hvalidate, infix_rejections_of_reaches hreach hvalidate⟩

end

end Conform
