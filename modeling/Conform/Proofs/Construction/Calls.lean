import Conform.Proofs.Construction.Blueprints
import Conform.Proofs.Lists
import Conform.Proofs.Visit.Comparison

/-!
# What a sequence of calls builds

Each call is about one modifier or one field, its target. As long as no target comes twice, the
draft says exactly what the calls said (`Records`); a call with a target that has been called before
leaves its diagnostic, and no call after that takes it away.

* `Ends`: how a sequence of calls must end, without a draft. The first call that repeats a target
  decides if there is one, then the node itself, and what is built says what the calls said.
* `build_eq_iff_ends`: every sequence ends so, and one without repetitions may be reordered: only
  the order of declared fields can change.
-/

namespace Conform

/-! ## Targets of calls -/

/-- What can be called once: a modifier, or a field of this name. -/
inductive Target where
  | modifier (m : Modifier)
  | field (name : String)
deriving DecidableEq

/-- The diagnostic of a call that repeats the target. -/
def Target.diagnostic : Target → BuildError
  | modifier m => .reassigned m
  | field name => .duplicateField name

section

variable {σ : Type}

namespace Call

/-- What the call is about. -/
def target : Call σ → Target
  | .optional => .modifier .optional
  | .nullable => .modifier .nullable
  | .description _ => .modifier .description
  | .brand _ => .modifier .brand
  | .minLength _ => .modifier .minLength
  | .maxLength _ => .modifier .maxLength
  | .min _ => .modifier .min
  | .max _ => .modifier .max
  | .field name _ => .field name
  | .key _ => .modifier .key

/-- The field that the call declares. -/
def field? : Call σ → Option (String × σ)
  | .field name schema => some (name, schema)
  | _ => none

end Call

end

/-! ## What drafts and schemas say -/

namespace Draft

/-- The draft has the argument of the call in its place. -/
def Carries (d : Draft) : Call Schema → Prop
  | .optional => d.optional = true
  | .nullable => d.nullable = true
  | .description text => d.description = some text
  | .brand b => d.brand = some b
  | .minLength n => d.length.min = some n
  | .maxLength n => d.length.max = some n
  | .min bound => d.range.min = some bound
  | .max bound => d.range.max = some bound
  | .field name schema => (name, schema) ∈ d.fields
  | .key schema => d.key = some schema

/-- The target has been called already. -/
def isSet (d : Draft) : Target → Bool
  | .modifier .optional => d.optional
  | .modifier .nullable => d.nullable
  | .modifier .description => d.description.isSome
  | .modifier .brand => d.brand.isSome
  | .modifier .minLength => d.length.min.isSome
  | .modifier .maxLength => d.length.max.isSome
  | .modifier .min => d.range.min.isSome
  | .modifier .max => d.range.max.isSome
  | .modifier .key => d.key.isSome
  | .field name => Entries.has name d.fields

/-- The draft with the argument of the call, whatever there was before. -/
def set (d : Draft) : Call Schema → Draft
  | .optional => { d with optional := true }
  | .nullable => { d with nullable := true }
  | .description text => { d with description := some text }
  | .brand b => { d with brand := some b }
  | .minLength n => { d with length := ⟨some n, d.length.max⟩ }
  | .maxLength n => { d with length := ⟨d.length.min, some n⟩ }
  | .min bound => { d with range := ⟨some bound, d.range.max⟩ }
  | .max bound => { d with range := ⟨d.range.min, some bound⟩ }
  | .field name schema => { d with fields := d.fields ++ [(name, schema)] }
  | .key schema => { d with key := some schema }

variable {d : Draft} {c c' : Call Schema}

/-- One rule for all calls. -/
theorem call_eq (d : Draft) (c : Call Schema) :
    d.call c = if d.isSet c.target then d.reject c.target.diagnostic else d.set c := by
  cases c <;> rfl

theorem isSet_of_carries (h : d.Carries c) : d.isSet c.target = true := by
  cases c with
  | field name schema => exact Entries.has_iff.mpr (Entries.mem_keys_of_mem h)
  | optional | nullable => exact h
  | _ => exact Option.isSome_iff_exists.mpr ⟨_, h⟩

theorem exists_of_isSome {α : Type} {x : Option α} {p : Call Schema → Prop} (f : α → Call Schema)
    (h : x.isSome = true) (hf : ∀ a, x = some a → p (f a)) : ∃ c, p c := by
  obtain ⟨a, ha⟩ := Option.isSome_iff_exists.mp h
  exact ⟨f a, hf a ha⟩

/-- A draft on which a target is set carries some call for this target. -/
theorem exists_carries {t : Target} (h : d.isSet t = true) :
    ∃ c : Call Schema, c.target = t ∧ d.Carries c := by
  cases t with
  | field name =>
    obtain ⟨⟨_, schema⟩, hmem, rfl⟩ := List.mem_map.mp (Entries.has_iff.mp h)
    exact ⟨.field _ schema, rfl, hmem⟩
  | modifier m =>
    cases m with
    | optional => exact ⟨.optional, rfl, h⟩
    | nullable => exact ⟨.nullable, rfl, h⟩
    | description => exact exists_of_isSome .description h fun _ htext => ⟨rfl, htext⟩
    | brand => exact exists_of_isSome .brand h fun _ hb => ⟨rfl, hb⟩
    | minLength => exact exists_of_isSome .minLength h fun _ hn => ⟨rfl, hn⟩
    | maxLength => exact exists_of_isSome .maxLength h fun _ hn => ⟨rfl, hn⟩
    | min => exact exists_of_isSome .min h fun _ hbound => ⟨rfl, hbound⟩
    | max => exact exists_of_isSome .max h fun _ hbound => ⟨rfl, hbound⟩
    | key => exact exists_of_isSome .key h fun _ hschema => ⟨rfl, hschema⟩

/-- Setting adds one call to those that the draft carries, and takes none away. -/
theorem carries_set (h : d.isSet c.target = false) :
    (d.set c).Carries c' ↔ d.Carries c' ∨ c = c' := by
  cases c with
  | field name schema =>
    cases c' with
    | field name' schema' =>
      have hmem : (name', schema') ∈ d.fields ++ [(name, schema)] ↔
          (name', schema') ∈ d.fields ∨ (name', schema') = (name, schema) := by
        rw [List.mem_append, List.mem_singleton]
      simp only [set, Carries, hmem, Prod.mk.injEq, Call.field.injEq, eq_comm]
    | _ => simp [set, Carries]
  | _ => cases c' <;> simp_all [isSet, Call.target, set, Carries]

/-! ## Sequences of calls -/

/-- The draft says what the calls said, each of them about a target of its own. -/
structure Records (start : Start Schema) (calls : List (Call Schema)) (d : Draft) : Prop where
  start : d.start = start
  carries : ∀ c, d.Carries c ↔ c ∈ calls
  fields : d.fields = calls.filterMap Call.field?
  diagnostic : d.diagnostic = none

theorem start_set (d : Draft) (c : Call Schema) : (d.set c).start = d.start := by
  cases c <;> rfl

theorem diagnostic_set (d : Draft) (c : Call Schema) : (d.set c).diagnostic = d.diagnostic := by
  cases c <;> rfl

theorem fields_set (d : Draft) (c : Call Schema) :
    (d.set c).fields = d.fields ++ [c].filterMap Call.field? := by
  cases c <;> simp [set, Call.field?]

namespace Records

variable {start : Start Schema} {calls : List (Call Schema)}

theorem ofStart (start : Start Schema) : Records start [] (ofStart start) where
  start := rfl
  carries c := by cases c <;> simp [Draft.ofStart, Carries, Bounds.unset]
  fields := rfl
  diagnostic := rfl

/-- On a draft that records the calls, the targets set are those of the calls. -/
theorem isSet_iff (h : Records start calls d) {t : Target} :
    d.isSet t = true ↔ t ∈ calls.map Call.target := by
  constructor
  · intro hset
    obtain ⟨c, rfl, hcarries⟩ := exists_carries hset
    exact List.mem_map_of_mem ((h.carries c).mp hcarries)
  · intro hmem
    obtain ⟨c, hc, rfl⟩ := List.mem_map.mp hmem
    exact isSet_of_carries ((h.carries c).mpr hc)

/-- A call for a target not called yet is recorded after the others. -/
theorem call (h : Records start calls d) (hnew : c.target ∉ calls.map Call.target) :
    Records start (calls ++ [c]) (d.call c) := by
  have hunset : d.isSet c.target = false := by
    rw [Bool.eq_false_iff]
    exact mt h.isSet_iff.mp hnew
  have hcall : d.call c = d.set c := by
    rw [call_eq, hunset]
    rfl
  rw [hcall]
  refine ⟨(start_set d c).trans h.start, fun c' => ?_, ?_, (diagnostic_set d c).trans h.diagnostic⟩
  · rw [carries_set hunset, h.carries, List.mem_append, List.mem_singleton, eq_comm (a := c')]
  · rw [fields_set, h.fields, List.filterMap_append]

/-- Calls for targets that differ are all recorded. -/
theorem foldl (start : Start Schema) (h : (calls.map Call.target).Nodup) :
    Records start calls (calls.foldl Draft.call (.ofStart start)) := by
  induction calls using List.reverseRecOn with
  | nil => exact Records.ofStart start
  | append_singleton calls c ih =>
    rw [List.map_append, List.map_singleton, List.nodup_append] at h
    obtain ⟨hbefore, -, hnew⟩ := h
    rw [List.foldl_append]
    refine (ih hbefore).call fun hmem => ?_
    exact hnew c.target hmem c.target (List.mem_singleton.mpr rfl) rfl

/-- A call for a target that was called before leaves the diagnostic of this target. -/
theorem diagnostic_of_repeated (h : Records start calls d)
    (hagain : c.target ∈ calls.map Call.target) :
    (d.call c).diagnostic = some c.target.diagnostic := by
  rw [call_eq, if_pos (h.isSet_iff.mpr hagain)]
  simp [reject, h.diagnostic]

end Records

/-- A diagnostic is not taken away by later calls, whether they repeat something or not. -/
theorem diagnostic_foldl {error : BuildError} (h : d.diagnostic = some error)
    (calls : List (Call Schema)) : (calls.foldl Draft.call d).diagnostic = some error := by
  induction calls generalizing d with
  | nil => exact h
  | cons c rest ih =>
    apply ih
    rw [call_eq]
    split
    · simp [reject, h]
    · rw [diagnostic_set, h]

/-- The first call that repeats a target decides what is built: its diagnostic, whatever calls
follow. -/
theorem build_of_repeated (start : Start Schema) {before : List (Call Schema)}
    (hdistinct : (before.map Call.target).Nodup) (hagain : c.target ∈ before.map Call.target)
    (after : List (Call Schema)) :
    ((before ++ c :: after).foldl Draft.call (.ofStart start)).build =
      .error c.target.diagnostic := by
  have hrepeated := (Records.foldl start hdistinct).diagnostic_of_repeated hagain
  have hdiagnostic := diagnostic_foldl hrepeated after
  rw [List.foldl_append, List.foldl_cons, build, hdiagnostic]

/-! ## The node of a draft -/

/-- Drafts of one start that say the same differ at most in the order of their fields. -/
theorem eq_of_carries {d' : Draft} (hstart : d'.start = d.start)
    (hcarries : ∀ c, c.field? = none → (d'.Carries c ↔ d.Carries c))
    (hdiagnostic : d'.diagnostic = d.diagnostic) : d' = { d with fields := d'.fields } := by
  obtain ⟨start, optional, nullable, description, brand, ⟨minLength, maxLength⟩, ⟨min, max⟩,
    fields, key, diagnostic⟩ := d
  obtain ⟨start', optional', nullable', description', brand', ⟨minLength', maxLength'⟩,
    ⟨min', max'⟩, fields', key', diagnostic'⟩ := d'
  have hoptional : optional' = optional := Bool.eq_iff_iff.mpr (hcarries .optional rfl)
  have hnullable : nullable' = nullable := Bool.eq_iff_iff.mpr (hcarries .nullable rfl)
  have hdescription : description' = description :=
    Option.ext fun text => hcarries (.description text) rfl
  have hbrand : brand' = brand := Option.ext fun b => hcarries (.brand b) rfl
  have hminLength : minLength' = minLength := Option.ext fun n => hcarries (.minLength n) rfl
  have hmaxLength : maxLength' = maxLength := Option.ext fun n => hcarries (.maxLength n) rfl
  have hmin : min' = min := Option.ext fun bound => hcarries (.min bound) rfl
  have hmax : max' = max := Option.ext fun bound => hcarries (.max bound) rfl
  have hkey : key' = key := Option.ext fun schema => hcarries (.key schema) rfl
  dsimp only at hstart hdiagnostic
  subst hoptional hnullable hdescription hbrand hminLength hmaxLength hmin hmax hkey
  subst hstart hdiagnostic
  rfl

theorem defect?_eq_emptyUnion_iff :
    d.schema.defect? = some .emptyUnion ↔ d.start = .union [] := by
  unfold Draft.schema
  cases d.start with
  | union alternatives => cases alternatives <;> simp [Schema.defect?]
  | record value =>
    cases d.key with
    | none => simp [Schema.defect?]
    | some key =>
      simp only [Schema.defect?]
      split <;> simp
  | _ => simp [Schema.defect?]

theorem defect?_eq_keyNotString_iff {kind : Kind} :
    d.schema.defect? = some (.keyNotString kind) ↔
      ∃ value key, d.start = .record value ∧ d.Carries (.key key) ∧ key.kind ≠ .string ∧
        key.kind = kind := by
  unfold Draft.schema Draft.Carries
  cases d.start with
  | union alternatives => cases alternatives <;> simp [Schema.defect?]
  | record value =>
    cases d.key with
    | none => simp [Schema.defect?]
    | some key =>
      simp [Schema.defect?]
  | _ => simp [Schema.defect?]

/-- The fields of a draft do not show in a node that is no object. -/
theorem schema_fields {fields : List (String × Schema)}
    (h : d.start = .object → fields = d.fields) :
    ({ d with fields := fields } : Draft).schema = d.schema := by
  unfold Draft.schema
  cases hstart : d.start with
  | object => rw [h hstart]; rfl
  | _ => rfl

end Draft

/-- The draft of a node that is there already. -/
def Schema.draft : Schema → Draft
  | .leaf info (.string length) brand =>
    { (Draft.ofStart .string).withInfo info with length := length, brand := brand }
  | .leaf info (.number range) brand =>
    { (Draft.ofStart .number).withInfo info with range := range, brand := brand }
  | .leaf info .bigint brand => { (Draft.ofStart .bigint).withInfo info with brand := brand }
  | .leaf info .boolean brand => { (Draft.ofStart .boolean).withInfo info with brand := brand }
  | .leaf info (.literal value) brand =>
    { (Draft.ofStart (.literal value)).withInfo info with brand := brand }
  | .array info element length =>
    { (Draft.ofStart (.array element)).withInfo info with length := length }
  | .tuple info positions => (Draft.ofStart (.tuple positions)).withInfo info
  | .object info fields => { (Draft.ofStart .object).withInfo info with fields := fields }
  | .record info value key => { (Draft.ofStart (.record value)).withInfo info with key := key }
  | .union info alternatives => (Draft.ofStart (.union alternatives)).withInfo info

namespace Schema

open Draft (Records)

theorem schema_draft (schema : Schema) : schema.draft.schema = schema := by
  cases schema with
  | leaf info l brand => cases l <;> rfl
  | _ => rfl

theorem diagnostic_draft (schema : Schema) : schema.draft.diagnostic = none := by
  cases schema with
  | leaf info l brand => cases l <;> rfl
  | _ => rfl

theorem start_draft_schema (d : Draft) : d.schema.draft.start = d.start := by
  unfold Draft.schema
  cases d.start <;> rfl

theorem fields_draft_schema {d : Draft} (h : d.start = .object) :
    d.schema.draft.fields = d.fields := by
  unfold Draft.schema
  rw [h]
  rfl

/-- A node keeps of its draft what it has a place for. -/
theorem carries_draft_schema (d : Draft) (c : Call Schema) :
    d.schema.draft.Carries c ↔ d.start.offers c = true ∧ d.Carries c := by
  unfold Draft.schema
  cases d.start <;> cases c <;>
    simp [draft, Draft.Carries, Draft.ofStart, Draft.withInfo, Draft.info, Start.offers,
      Bounds.unset]

/-- What a sequence of calls builds if there is nothing wrong with it: a node with the inner schemas
of the start, in which every modifier that is called has the argument of its call, no other is set,
and an object declares the fields in the order of their calls. A call for which nodes of this kind
have no place leaves no trace in it. -/
structure BuiltFrom (start : Start Schema) (calls : List (Call Schema)) (schema : Schema) :
    Prop where
  carries : ∀ c, schema.draft.Carries c ↔ start.offers c = true ∧ c ∈ calls
  fields : start = .object → schema.draft.fields = calls.filterMap Call.field?
  start : schema.draft.start = start

variable {start : Start Schema} {calls : List (Call Schema)} {schema : Schema}

theorem BuiltFrom.of_records {d : Draft} (h : Records start calls d) :
    BuiltFrom start calls d.schema where
  start := (start_draft_schema d).trans h.start
  carries c := by rw [carries_draft_schema, h.start, h.carries]
  fields hobject := (fields_draft_schema (h.start.trans hobject)).trans h.fields

theorem BuiltFrom.eq {schema' : Schema} (h : BuiltFrom start calls schema)
    (h' : BuiltFrom start calls schema') : schema' = schema := by
  have hdraft : schema'.draft = { schema.draft with fields := schema'.draft.fields } := by
    refine Draft.eq_of_carries (h'.start.trans h.start.symm) (fun c _ => ?_) ?_
    · rw [h'.carries, h.carries]
    · rw [diagnostic_draft, diagnostic_draft]
  have hfields : schema.draft.start = .object →
      schema'.draft.fields = schema.draft.fields := fun hobject => by
    have hobject' : start = .object := h.start.symm.trans hobject
    rw [h'.fields hobject', h.fields hobject']
  calc schema' = schema'.draft.schema := (schema_draft schema').symm
    _ = ({ schema.draft with fields := schema'.draft.fields } : Draft).schema := by rw [← hdraft]
    _ = schema.draft.schema := Draft.schema_fields hfields
    _ = schema := schema_draft schema

/-- The schemas are the same but for the order in which an object declares its fields. -/
inductive FieldsPermuted : Schema → Schema → Prop
  | same (schema : Schema) : FieldsPermuted schema schema
  | object (info : Info) {fields fields' : List (String × Schema)} (h : fields.Perm fields') :
      FieldsPermuted (object info fields) (object info fields')

theorem fieldsPermuted_schema {d : Draft} {fields : List (String × Schema)}
    (h : d.fields.Perm fields) :
    FieldsPermuted d.schema ({ d with fields := fields } : Draft).schema := by
  unfold Draft.schema
  cases d.start with
  | object => exact .object d.info h
  | _ => exact .same _

end Schema

/-! ## How sequences of calls end -/

namespace Draft

open Schema (BuiltFrom FieldsPermuted)

/-- How a sequence of calls ends. A call that repeats a target comes first, then what is wrong with
the node as a whole, and without either a schema is built. -/
inductive Ends (start : Start Schema) (calls : List (Call Schema)) :
    Except BuildError Schema → Prop
  | repeated {before after : List (Call Schema)} {c : Call Schema}
      (hcalls : calls = before ++ c :: after) (hdistinct : (before.map Call.target).Nodup)
      (hagain : c.target ∈ before.map Call.target) :
      Ends start calls (.error c.target.diagnostic)
  | emptyUnion (hdistinct : (calls.map Call.target).Nodup) (hstart : start = .union []) :
      Ends start calls (.error (.defect .emptyUnion))
  | keyNotString (hdistinct : (calls.map Call.target).Nodup) {value key : Schema}
      (hstart : start = .record value) (hkey : .key key ∈ calls) (hkind : key.kind ≠ .string) :
      Ends start calls (.error (.defect (.keyNotString key.kind)))
  | built (hdistinct : (calls.map Call.target).Nodup) (hunion : start ≠ .union [])
      (hkeys : ∀ value key, start = .record value → .key key ∈ calls → key.kind = .string)
      {schema : Schema} (hschema : BuiltFrom start calls schema) :
      Ends start calls (.ok schema)

variable {start : Start Schema} {calls calls' : List (Call Schema)} {d' : Draft}

/-- What is built from recorded calls is decided by the defects of the schema they describe. -/
theorem Records.build (h : Records start calls d) :
    d.build =
      match d.schema.defect? with
      | some defect => .error (.defect defect)
      | none => .ok d.schema := by
  cases hdefect : d.schema.defect? with
  | none => simp only [Draft.build, h.diagnostic, hdefect]
  | some defect => simp only [Draft.build, h.diagnostic, hdefect]

theorem Records.emptyUnion_iff (h : Records start calls d) :
    d.schema.defect? = some .emptyUnion ↔ start = .union [] := by
  rw [defect?_eq_emptyUnion_iff, h.start]

theorem Records.keyNotString_iff (h : Records start calls d) {kind : Kind} :
    d.schema.defect? = some (.keyNotString kind) ↔
      ∃ value key, start = .record value ∧ .key key ∈ calls ∧ key.kind ≠ .string ∧
        key.kind = kind := by
  simp only [defect?_eq_keyNotString_iff, h.start, h.carries]

/-- Recorded calls have no defect unless a union is empty or the key schema of a record is not a
text. -/
theorem Records.sound_iff (h : Records start calls d) :
    d.schema.defect? = none ↔ start ≠ .union [] ∧
      ∀ value key, start = .record value → .key key ∈ calls → key.kind = .string := by
  constructor
  · intro hnone
    constructor
    · intro hunion
      simp [h.emptyUnion_iff.mpr hunion] at hnone
    · intro value key hrecord hkey
      by_contra hkind
      simp [h.keyNotString_iff.mpr ⟨value, key, hrecord, hkey, hkind, rfl⟩] at hnone
  · rintro ⟨hunion, hkeys⟩
    cases hdefect : d.schema.defect? with
    | none => rfl
    | some defect =>
      cases defect with
      | emptyUnion => exact absurd (h.emptyUnion_iff.mp hdefect) hunion
      | keyNotString kind =>
        obtain ⟨value, key, hrecord, hkey, hkind, -⟩ := h.keyNotString_iff.mp hdefect
        exact absurd (hkeys value key hrecord hkey) hkind

/-- Every sequence of calls ends as `Ends` says. -/
theorem ends_build (start : Start Schema) (calls : List (Call Schema)) :
    Ends start calls (calls.foldl Draft.call (.ofStart start)).build := by
  rcases nodup_or_first_repeat Call.target calls with
    hdistinct | ⟨before, c, after, rfl, hdistinct, hagain⟩
  · have hrecords := Records.foldl start hdistinct
    rw [hrecords.build]
    generalize calls.foldl Draft.call (.ofStart start) = d at hrecords ⊢
    cases hdefect : d.schema.defect? with
    | none =>
      obtain ⟨hunion, hkeys⟩ := hrecords.sound_iff.mp hdefect
      exact .built hdistinct hunion hkeys (BuiltFrom.of_records hrecords)
    | some defect =>
      cases defect with
      | emptyUnion => exact .emptyUnion hdistinct (hrecords.emptyUnion_iff.mp hdefect)
      | keyNotString kind =>
        obtain ⟨value, key, hrecord, hkey, hkind, rfl⟩ := hrecords.keyNotString_iff.mp hdefect
        exact .keyNotString hdistinct hrecord hkey hkind
  · rw [build_of_repeated start hdistinct hagain after]
    exact .repeated rfl hdistinct hagain

/-- A sequence of calls ends in no other way. -/
theorem build_of_ends {result : Except BuildError Schema} (h : Ends start calls result) :
    (calls.foldl Draft.call (.ofStart start)).build = result := by
  cases h with
  | repeated hcalls hdistinct hagain =>
    subst hcalls
    exact build_of_repeated start hdistinct hagain _
  | emptyUnion hdistinct hstart =>
    have hrecords := Records.foldl start hdistinct
    rw [hrecords.build, hrecords.emptyUnion_iff.mpr hstart]
  | @keyNotString hdistinct value key hstart hkey hkind =>
    have hrecords := Records.foldl start hdistinct
    have hdefect := hrecords.keyNotString_iff.mpr ⟨value, key, hstart, hkey, hkind, rfl⟩
    rw [hrecords.build, hdefect]
  | built hdistinct hunion hkeys hschema =>
    have hrecords := Records.foldl start hdistinct
    rw [hrecords.build, hrecords.sound_iff.mpr ⟨hunion, hkeys⟩]
    exact congrArg Except.ok (hschema.eq (BuiltFrom.of_records hrecords))

/-- The order of recorded calls matters only to the order of the fields. -/
theorem Records.agree_of_perm (h : Records start calls d) (h' : Records start calls' d')
    (hperm : calls.Perm calls') : Agree FieldsPermuted Eq d.build d'.build := by
  have hdraft : d' = { d with fields := d'.fields } := by
    refine eq_of_carries (h'.start.trans h.start.symm) (fun c _ => ?_) ?_
    · rw [h'.carries, h.carries, hperm.mem_iff]
    · rw [h'.diagnostic, h.diagnostic]
  have hfields : d.fields.Perm d'.fields := by
    rw [h.fields, h'.fields]
    exact hperm.filterMap _
  have hpermuted := Schema.fieldsPermuted_schema hfields
  rw [← hdraft] at hpermuted
  rw [h.build, h'.build]
  generalize d.schema = schema at hpermuted ⊢
  generalize d'.schema = schema' at hpermuted ⊢
  cases hpermuted with
  | same schema =>
    cases schema.defect? with
    | none => exact .ok (.same schema)
    | some defect => exact .error rfl
  | object info hfields => exact .ok (.object info hfields)

/-- **Calls in any order.** Every sequence of calls ends as `Ends` says. The calls of a sequence
that repeats nothing can be made in any other order, and then at most the declared fields have
another order, too. -/
theorem build_eq_iff_ends (start : Start Schema) (calls : List (Call Schema)) :
    (∀ result,
      (calls.foldl Draft.call (.ofStart start)).build = result ↔ Ends start calls result) ∧
    ∀ calls', (calls.map Call.target).Nodup → calls.Perm calls' →
      Agree FieldsPermuted Eq (calls.foldl Draft.call (.ofStart start)).build
        (calls'.foldl Draft.call (.ofStart start)).build := by
  refine ⟨fun result => ⟨?_, build_of_ends⟩, fun calls' hdistinct hperm => ?_⟩
  · rintro rfl
    exact ends_build start calls
  · have hdistinct' : (calls'.map Call.target).Nodup :=
      (hperm.map Call.target).nodup_iff.mp hdistinct
    exact (Records.foldl start hdistinct).agree_of_perm (Records.foldl start hdistinct') hperm

/-- A number without bounds. -/
def coordinate : Schema :=
  .leaf .plain (.number .unset) none

/-- Two fields and a modifier. -/
def pointCalls : List (Call Schema) :=
  [.field "x" coordinate, .optional, .field "y" coordinate]

theorem build_eq_iff_ends_point :
    (pointCalls.map Call.target).Nodup ∧ pointCalls.Perm pointCalls.reverse ∧
    (pointCalls.foldl Draft.call (.ofStart .object)).build =
      .ok (.object ⟨true, false, none⟩ [("x", coordinate), ("y", coordinate)]) ∧
    Agree FieldsPermuted Eq (pointCalls.foldl Draft.call (.ofStart .object)).build
      (pointCalls.reverse.foldl Draft.call (.ofStart .object)).build ∧
    Ends .object (pointCalls ++ .field "x" coordinate :: pointCalls)
      (.error (.duplicateField "x")) := by
  have hdistinct : (pointCalls.map Call.target).Nodup := by
    simp [pointCalls, Call.target]
  have hperm : pointCalls.Perm pointCalls.reverse := (List.reverse_perm pointCalls).symm
  have hagree := (build_eq_iff_ends .object pointCalls).2 pointCalls.reverse hdistinct hperm
  refine ⟨hdistinct, hperm, rfl, hagree, ?_⟩
  exact ((build_eq_iff_ends .object (pointCalls ++ .field "x" coordinate :: pointCalls)).1 _).mp rfl

end Draft

end Conform
