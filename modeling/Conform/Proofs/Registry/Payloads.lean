import Conform.Proofs.Import
import Conform.Proofs.Registry.Runs
import Conform.Proofs.Trimmed

/-!
# Payloads at a registry

Validating and parsing a payload go different ways: one looks the name up before it decodes, the
other decodes first, and they walk the value under different policies. Still both give the verdict
on the decoded value (`Registry.verdict`), wherever both look at the payload: a name without a
schema lets validation pass a payload that is no JSON.

* `Schema.toJson_parse`: parsing hands back the JSON tree of what validation accepts.
* `result_validate`, `result_parse`: either way ends with the verdict.
* `result_parse_floated`: what is handed back is the payload, with floats for its integers.
* `Refusal`: the errors that there are.
* `payload_of_reachable`: the whole of it.
-/

namespace Conform

/-- A payload is read as a tree whose objects have ascending keys. -/
theorem Json.sorted_of_ofBytes {payload : ByteArray} {j : Json}
    (h : Json.ofBytes payload = .ok j) : j.Sorted := by
  obtain ⟨tree, -, rfl⟩ := map_eq_ok.mp h
  exact sorted_normalize tree

/-- What parsing accepts has the JSON tree that it had before. -/
theorem Schema.toJson_parse {schema : Schema} {v : Value} (hs : schema.DistinctNames)
    (hv : v.DistinctKeys) :
    (schema.parse v).map Value.toJson = (schema.validate v).map fun _ => v.toJson := by
  have hjson : ∀ p, schema.parse v = .ok p → p.toJson = v.toJson := fun p hp =>
    (trimmed_of_make_rebuild (make_rebuild_eq_some.mpr hp) hs hv).toJson_eq hv
  have halike := visit_alike_any .share .rebuild schema v []
  simp only [parse, parseAt, validate, validateAt, concluded] at hjson ⊢
  generalize visit .share schema v [] = x at halike
  generalize visit .rebuild schema v [] = y at halike hjson
  cases halike with
  | @accepted misses a b =>
    simp only [Except.map]
    rw [hjson b rfl]
  | rejected misses es => simp [Except.map]

namespace Registry

open Schema (Constructed)

/-! ## Reachable registries -/

/-- The registry is opened and then asked, and the schemas that it is given are constructed. -/
def Reachable (registry : Registry) : Prop :=
  ∃ (opening : Opening) (opened : Registry) (requests : List Request),
    opening.registry = .ok opened ∧
      (∀ name schema, Request.registerSchema name schema ∈ requests → schema.Constructed) ∧
      registry = opened.run requests

theorem exists_request_of_latest? {name : String} {requests : List Request} {schema : Schema}
    (h : latest? name requests = some schema) :
    ∃ request ∈ requests, request.registration? = some (name, schema) := by
  have hmem := Entries.mem_of_get? h
  rwa [List.mem_reverse, List.mem_filterMap] at hmem

theorem constructed_of_registration? {request : Request} {name : String} {schema : Schema}
    (hgiven : ∀ name schema, request = .registerSchema name schema → schema.Constructed)
    (h : request.registration? = some (name, schema)) : schema.Constructed := by
  cases request with
  | register key literal =>
    obtain ⟨decoded, hdecoded, heq⟩ := Option.map_eq_some_iff.mp h
    cases heq
    cases htext : Schema.ofText literal with
    | error fault => simp [htext, Except.toOption] at hdecoded
    | ok schema =>
      simp only [htext, Except.toOption, Option.some.injEq] at hdecoded
      exact .decoded (.text (hdecoded ▸ htext))
  | registerSchema key given =>
    cases h
    exact hgiven _ _ rfl
  | _ => cases h

variable {registry : Registry} {name : String} {payload : ByteArray}

/-- A reachable registry holds constructed schemas only. -/
theorem Reachable.constructed (h : registry.Reachable) {schema : Schema}
    (hschema : registry.get? name = some schema) : schema.Constructed := by
  obtain ⟨opening, opened, requests, hopened, hgiven, rfl⟩ := h
  rw [((holds_of_opening hopened).run requests).get?] at hschema
  obtain ⟨request, hmem, hregistration⟩ := exists_request_of_latest? hschema
  refine constructed_of_registration? ?_ hregistration
  rintro key given rfl
  rcases List.mem_append.mp hmem with hopening | hmem
  · -- an opening registers literals only
    cases opening with
    | default => cases hopening
    | config c => cases hopening
    | literals list =>
      obtain ⟨entry, -, heq⟩ := List.mem_map.mp hopening
      cases heq
  · exact hgiven key given hmem

/-! ## The verdict on a value -/

/-- What a registry says to a value under a name. -/
def verdict (registry : Registry) (name : String) (subject : Value) : Except RegistryError Unit :=
  match registry.get? name with
  | none => if registry.config.strict then .error (.noSchema name) else .ok ()
  | some schema => ((schema.validate subject).map fun _ => ()).mapError (registry.failure name)

theorem result_validateValue (registry : Registry) (name : String) (subject : Value) :
    (registry.validateValue name subject).result = registry.verdict name subject := by
  unfold validateValue lookup verdict
  cases registry.get? name with
  | none => cases registry.config.strict <;> rfl
  | some schema =>
    show ((schema.validate subject).mapError (registry.failure name)).map (fun _ => ()) =
      ((schema.validate subject).map fun _ => ()).mapError (registry.failure name)
    cases schema.validate subject <;> rfl

theorem decode_of_ok {j : Json} (h : Json.ofBytes payload = .ok j) :
    decode payload = .ok (.ofJson j) := by
  rw [decode, h]
  rfl

theorem decode_of_error {fault : Json.Fault} (h : Json.ofBytes payload = .error fault) :
    decode payload = .error (.invalidJson fault) := by
  rw [decode, h]
  rfl

/-- Validating a payload gives the verdict on the value it is read as. -/
theorem result_validate {j : Json} (h : Json.ofBytes payload = .ok j) (registry : Registry)
    (name : String) :
    (registry.validate name payload).result = registry.verdict name (.ofJson j) := by
  rw [← result_validateValue]
  unfold validate validateValue lookup
  cases registry.get? name with
  | none => cases registry.config.strict <;> rfl
  | some schema => simp [decode_of_ok h]

theorem result_validate_of_error {fault : Json.Fault} (h : Json.ofBytes payload = .error fault)
    (hname : registry.has name = true) :
    (registry.validate name payload).result = .error (.invalidJson fault) := by
  obtain ⟨schema, hschema⟩ := Option.isSome_iff_exists.mp hname
  have hlookup : registry.lookup name = .ok (some schema) := by
    rw [lookup, get?, hschema]
  rw [validate, hlookup]
  simp [decode_of_error h]

/-- Parsing a payload gives the same verdict, and the parsed value as JSON. -/
theorem result_parse {j : Json} (h : Json.ofBytes payload = .ok j) (hreach : registry.Reachable)
    (name : String) :
    (registry.parse name payload).result =
      (registry.verdict name (.ofJson j)).map fun _ => (Value.ofJson j).toJson := by
  rw [parse, decode_of_ok h]
  unfold lookup verdict
  cases hschema : registry.get? name with
  | none => cases registry.config.strict <;> rfl
  | some schema =>
    have htree := Schema.toJson_parse (hreach.constructed hschema).wellFormed.distinctNames
      (Value.distinctKeys_ofJson (Json.sorted_of_ofBytes h).distinctKeys)
    show ((schema.parse (.ofJson j)).mapError (registry.failure name)).map Value.toJson = _
    cases hvalidate : schema.validate (.ofJson j) <;> cases hparse : schema.parse (.ofJson j) <;>
      simp_all [Except.map, Except.mapError]

theorem result_parse_floated {j : Json} (h : Json.ofBytes payload = .ok j)
    (hreach : registry.Reachable) (name : String) :
    (registry.parse name payload).result =
      (registry.verdict name (.ofJson j)).map fun _ => j.floated := by
  rw [result_parse h hreach, Value.toJson_ofJson (Json.sorted_of_ofBytes h)]

theorem result_parse_of_error {fault : Json.Fault} (h : Json.ofBytes payload = .error fault)
    (registry : Registry) (name : String) :
    (registry.parse name payload).result = .error (.invalidJson fault) := by
  rw [parse, decode_of_error h]

/-! ## Errors -/

/-- The errors about a value under a name; the value may have been no JSON. A report counts all
rejections and shows the first of them. -/
inductive Refusal (registry : Registry) (name : String) :
    Except Json.Fault Value → RegistryError → Prop
  | noSchema {subject : Except Json.Fault Value} (hname : registry.get? name = none)
      (hstrict : registry.config.strict = true) : Refusal registry name subject (.noSchema name)
  | invalidJson (fault : Json.Fault) : Refusal registry name (.error fault) (.invalidJson fault)
  | validationFailed {schema : Schema} {subject : Value} {rejections : List Rejection}
      (hschema : registry.get? name = some schema)
      (h : schema.validate subject = .error rejections) :
      Refusal registry name (.ok subject)
        (.validationFailed name rejections.length
          (String.intercalate "; "
            ((rejections.take (min rejections.length (max 1 registry.config.maxReported))).map
              Rejection.message)))

/-- The summary lists as many errors as the limit allows, but at least one. -/
theorem summary_eq (config : Config) (rejections : List Rejection) :
    summary config rejections = String.intercalate "; "
      ((rejections.take (min rejections.length (max 1 config.maxReported))).map
        Rejection.message) := by
  rw [summary, List.take_eq_take_min, Nat.min_comm]

/-- Every verdict against a subject is a refusal of it. -/
theorem refusal_of_verdict {subject : Value} {e : RegistryError}
    (h : registry.verdict name subject = .error e) : registry.Refusal name (.ok subject) e := by
  unfold verdict at h
  cases hname : registry.get? name with
  | none =>
    cases hstrict : registry.config.strict with
    | false => simp [hname, hstrict] at h
    | true =>
      simp only [hname, hstrict, if_true, Except.error.injEq] at h
      exact h ▸ .noSchema hname hstrict
  | some schema =>
    cases hvalidate : schema.validate subject with
    | ok v => simp [hname, hvalidate, Except.map, Except.mapError] at h
    | error rejections =>
      simp only [hname, hvalidate, Except.map, Except.mapError, failure, summary_eq,
        Except.error.injEq] at h
      exact h ▸ .validationFailed hname hvalidate

theorem refusal_of_validate {e : RegistryError}
    (h : (registry.validate name payload).result = .error e)
    (hpayload : (∃ j, Json.ofBytes payload = .ok j) ∨ registry.has name = true) :
    registry.Refusal name ((Json.ofBytes payload).map Value.ofJson) e := by
  cases hj : Json.ofBytes payload with
  | ok j =>
    rw [result_validate hj] at h
    exact refusal_of_verdict h
  | error fault =>
    have hname : registry.has name = true := hpayload.resolve_left (by simp [hj])
    rw [result_validate_of_error hj hname, Except.error.injEq] at h
    exact h ▸ .invalidJson fault

/-- **Validating and parsing a payload are one check.** They end alike, and as the check of the
decoded value does; parsing then hands back the JSON tree of that value. If they fail, it is for
want of a schema or of JSON, or the report counts the rejections of validation and shows the first
of them. -/
theorem payload_of_reachable (hreach : registry.Reachable)
    (hpayload : (∃ j, Json.ofBytes payload = .ok j) ∨ registry.has name = true) :
    ((registry.parse name payload).result.map fun _ => ()) =
        (registry.validate name payload).result ∧
      (∀ j, Json.ofBytes payload = .ok j →
        (registry.validateValue name (.ofJson j)).result =
          (registry.validate name payload).result) ∧
      (∀ parsed, (registry.parse name payload).result = .ok parsed →
        ∃ j, Json.ofBytes payload = .ok j ∧ parsed = (Value.ofJson j).toJson) ∧
      (∀ e, (registry.validate name payload).result = .error e →
        registry.Refusal name ((Json.ofBytes payload).map Value.ofJson) e) ∧
      ∀ subject e, (registry.validateValue name subject).result = .error e →
        registry.Refusal name (.ok subject) e := by
  refine ⟨?_, fun j hj => ?_, fun parsed hparsed => ?_, fun e he => ?_, fun subject e he => ?_⟩
  · cases hj : Json.ofBytes payload with
    | ok j =>
      rw [result_parse hj hreach, result_validate hj]
      cases registry.verdict name (.ofJson j) <;> rfl
    | error fault =>
      have hname : registry.has name = true := hpayload.resolve_left (by simp [hj])
      rw [result_parse_of_error hj, result_validate_of_error hj hname]
      rfl
  · rw [result_validateValue, result_validate hj]
  · cases hj : Json.ofBytes payload with
    | ok j =>
      rw [result_parse hj hreach] at hparsed
      obtain ⟨-, -, rfl⟩ := map_eq_ok.mp hparsed
      exact ⟨j, rfl, rfl⟩
    | error fault =>
      rw [result_parse_of_error hj] at hparsed
      cases hparsed
  · exact refusal_of_validate he hpayload
  · rw [result_validateValue] at he
    exact refusal_of_verdict he

/-! ### Lists of labels -/

/-- An array of texts. -/
def listOfLabels : Schema :=
  .array .plain (.leaf .plain (.string .unset) none) .unset

/-- A strict registry whose reports show one rejection. -/
def labels : Registry :=
  (ofConfig ⟨true, 0⟩).run
    [.register "labels" "\x7b\"type\":\"array\",\"of\":\x7b\"type\":\"string\"\x7d\x7d"]

/-- A payload with two items that are no texts. -/
def flagsAroundLabel : ByteArray :=
  "[true,\"a\",false]".toUTF8

theorem labels_eq : labels = ⟨⟨true, 0⟩, [("labels", listOfLabels)]⟩ := by
  have hliteral : Schema.ofText
      "\x7b\"type\":\"array\",\"of\":\x7b\"type\":\"string\"\x7d\x7d" = .ok listOfLabels := by
    simp only [Schema.ofText, Text.glyphs, String.reduceToList]
    rfl
  simp only [labels, run, List.foldl_cons, List.foldl_nil, after, register_of_ok hliteral]
  rfl

theorem reachable_labels : labels.Reachable :=
  ⟨.config ⟨true, 0⟩, _, _, rfl, by simp, rfl⟩

theorem ofBytes_flagsAroundLabel : Json.ofBytes flagsAroundLabel =
    .ok (.array [.bool true, .string "a", .bool false]) := by
  rw [flagsAroundLabel, Json.ofBytes_toUTF8]
  simp only [Json.ofText, Text.glyphs, String.reduceToList]
  rfl

theorem validate_flagsAroundLabel : (labels.validate "labels" flagsAroundLabel).result =
    .error (.validationFailed "labels" 2
      "INVALID_TYPE at /0: string schema rejected boolean value") := by
  rw [labels_eq, result_validate ofBytes_flagsAroundLabel]
  rfl

theorem payload_of_reachable_labels :
    labels.Reachable ∧
      ((labels.parse "labels" flagsAroundLabel).result.map fun _ => ()) =
        .error (.validationFailed "labels" 2
          "INVALID_TYPE at /0: string schema rejected boolean value") ∧
      labels.Refusal "labels" (.ok (.sequence [.bool true, .string "a", .bool false]))
        (.validationFailed "labels" 2
          "INVALID_TYPE at /0: string schema rejected boolean value") := by
  obtain ⟨halike, -, -, hrefusal, -⟩ :=
    payload_of_reachable reachable_labels (.inl ⟨_, ofBytes_flagsAroundLabel⟩)
  refine ⟨reachable_labels, halike.trans validate_flagsAroundLabel, ?_⟩
  have hrefused := hrefusal _ validate_flagsAroundLabel
  rwa [ofBytes_flagsAroundLabel] at hrefused

end Registry

end Conform
