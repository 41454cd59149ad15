import Conform.Proofs.Literal.RoundTrip

/-!
# Blueprints of schemas

Every well-formed schema has a blueprint (`Schema.blueprint`): it starts from the kind of the node
with the blueprints of what is inside, makes the calls of this kind, and then those that any node
can have. No call sets what is set already, since each part of the draft is still as the start left
it when its calls come (`run_lengthCalls` and the like), and fields have distinct names.

* `build_blueprint`: this blueprint builds the schema.
* `offered_blueprint`: it makes no call that its kind does not have (`Blueprint.Offered`).
* `constructible_iff`: literals and blueprints describe the same schemas, the well-formed ones.
-/

namespace Conform

/-! ## The blueprint of a schema -/

section

variable {σ : Type}

/-- The calls for what every node says beside its kind. -/
def infoCalls (info : Info) : List (Call σ) :=
  (if info.optional then [.optional] else []) ++ (if info.nullable then [.nullable] else []) ++
    info.description.toList.map .description

/-- The call for a brand, if there is one. -/
def brandCalls (brand : Option Brand) : List (Call σ) :=
  brand.toList.map .brand

/-- The calls for the bounds on a length that are set. -/
def lengthCalls (length : Bounds UInt64) : List (Call σ) :=
  length.min.toList.map .minLength ++ length.max.toList.map .maxLength

/-- The calls for the bounds on a number that are set. -/
def rangeCalls (range : Bounds Double) : List (Call σ) :=
  range.min.toList.map .min ++ range.max.toList.map .max

/-- The start of a node without schemas inside. -/
def Leaf.start : Leaf → Start σ
  | string _ => .string
  | number _ => .number
  | bigint => .bigint
  | boolean => .boolean
  | literal value => .literal value

/-- The calls that only leaves of this kind need. -/
def Leaf.calls : Leaf → List (Call σ)
  | string length => lengthCalls length
  | number range => rangeCalls range
  | bigint | boolean | literal _ => []

end

/-! ## Calls that a kind has -/

section

variable {σ : Type}

/-- Nodes of this kind have a place for what the call is about. -/
def Start.offers : Start σ → Call σ → Bool
  | _, .optional | _, .nullable | _, .description _ => true
  | .string, .brand _ | .number, .brand _ | .bigint, .brand _ | .boolean, .brand _ => true
  | .literal _, .brand _ => true
  | .string, .minLength _ | .string, .maxLength _ => true
  | .array _, .minLength _ | .array _, .maxLength _ => true
  | .number, .min _ | .number, .max _ => true
  | .object, .field _ _ => true
  | .record _, .key _ => true
  | _, _ => false

/-- The schemas that the start takes up. -/
def Start.inner : Start σ → List σ
  | .array schema | .record schema => [schema]
  | .tuple schemas | .union schemas => schemas
  | _ => []

/-- The schemas that the call takes up. -/
def Call.inner : Call σ → List σ
  | .field _ schema | .key schema => [schema]
  | _ => []

end

/-- Every call, here and in the blueprints inside, is one that nodes of its kind have room for. -/
inductive Blueprint.Offered : Blueprint → Prop
  | mk {start : Start Blueprint} {calls : List (Call Blueprint)}
      (hcalls : ∀ c ∈ calls, start.offers c = true)
      (hstart : ∀ b ∈ start.inner, Offered b) (hinner : ∀ c ∈ calls, ∀ b ∈ c.inner, Offered b) :
      Offered (.mk start calls)

namespace Schema

mutual

/-- The start of the node, then the calls of its kind, and then those that any node can have. -/
def blueprint : Schema → Blueprint
  | leaf info l brand => .mk l.start (l.calls ++ brandCalls brand ++ infoCalls info)
  | array info element length =>
    .mk (.array (blueprint element)) (lengthCalls length ++ infoCalls info)
  | tuple info positions => .mk (.tuple (blueprints positions)) (infoCalls info)
  | object info fields => .mk .object (fieldCalls fields ++ infoCalls info)
  | record info value none => .mk (.record (blueprint value)) (infoCalls info)
  | record info value (some key) =>
    .mk (.record (blueprint value)) (.key (blueprint key) :: infoCalls info)
  | union info alternatives => .mk (.union (blueprints alternatives)) (infoCalls info)

def blueprints : List Schema → List Blueprint
  | [] => []
  | schema :: rest => blueprint schema :: blueprints rest

/-- A call for each field, in the order of their declaration. -/
def fieldCalls : List (String × Schema) → List (Call Blueprint)
  | [] => []
  | (name, schema) :: rest => .field name (blueprint schema) :: fieldCalls rest

end

end Schema

/-! ## What the calls do to a draft -/

/-- The draft with all that nodes say beside their kind. -/
def Draft.withInfo (d : Draft) (info : Info) : Draft :=
  { d with optional := info.optional, nullable := info.nullable, description := info.description }

namespace Blueprint

open Schema (blueprints fieldCalls)

variable {d d' : Draft}

/-- Calls one after the other run from where the first ones end. -/
theorem run_append {calls : List (Call Blueprint)} (h : run calls d = .ok d')
    (more : List (Call Blueprint)) : run (calls ++ more) d = run more d' := by
  induction calls generalizing d with
  | nil =>
    cases h
    rfl
  | cons c rest ih =>
    obtain ⟨c', hc, hrest⟩ := bind_eq_ok.mp h
    rw [List.cons_append, run, hc]
    exact ih hrest

theorem run_infoCalls (h : d.info = .plain) (info : Info) :
    run (infoCalls info) d = .ok (d.withInfo info) := by
  obtain ⟨start, optional, nullable, description, brand, length, range, fields, key, error⟩ := d
  cases h
  obtain ⟨_ | _, _ | _, _ | text⟩ := info <;> rfl

theorem run_brandCalls (h : d.brand = none) (brand : Option Brand) :
    run (brandCalls brand) d = .ok { d with brand := brand } := by
  obtain ⟨start, optional, nullable, description, unset, length, range, fields, key, error⟩ := d
  cases h
  cases brand <;> rfl

theorem run_lengthCalls (h : d.length = .unset) (length : Bounds UInt64) :
    run (lengthCalls length) d = .ok { d with length := length } := by
  obtain ⟨start, optional, nullable, description, brand, unset, range, fields, key, error⟩ := d
  cases h
  obtain ⟨_ | min, _ | max⟩ := length <;> rfl

theorem run_rangeCalls (h : d.range = .unset) (range : Bounds Double) :
    run (rangeCalls range) d = .ok { d with range := range } := by
  obtain ⟨start, optional, nullable, description, brand, length, unset, fields, key, error⟩ := d
  cases h
  obtain ⟨_ | min, _ | max⟩ := range <;> rfl

/-- The calls for the fields declare them all, in order, as long as no name is taken yet. -/
theorem run_fieldCalls {fields : List (String × Schema)}
    (h : ∀ field ∈ fields, field.2.blueprint.build = .ok field.2)
    (hnames : (Entries.keys (d.fields ++ fields)).Nodup) :
    run (fieldCalls fields) d = .ok { d with fields := d.fields ++ fields } := by
  induction fields generalizing d with
  | nil => simp [fieldCalls, run, pure, Except.pure]
  | cons field rest ih =>
    obtain ⟨hfield, hrest⟩ := List.forall_mem_cons.mp h
    have hnew : Entries.has field.1 d.fields = false := by
      rw [Bool.eq_false_iff, Ne, Entries.has_iff]
      intro hmem
      rw [Entries.keys_append, List.nodup_append] at hnames
      exact hnames.2.2 field.1 hmem field.1 List.mem_cons_self rfl
    have hcall : buildCall (.field field.1 field.2.blueprint) = .ok (.field field.1 field.2) := by
      rw [buildCall, hfield]
      rfl
    have hnames' : (Entries.keys ((d.call (.field field.1 field.2)).fields ++ rest)).Nodup := by
      simpa [Draft.call, hnew] using hnames
    rw [fieldCalls, run, hcall]
    show run (fieldCalls rest) (d.call (.field field.1 field.2)) = _
    rw [ih hrest hnames']
    simp [Draft.call, hnew]

theorem buildList_blueprints {schemas : List Schema}
    (h : ∀ schema ∈ schemas, schema.blueprint.build = .ok schema) :
    buildList (blueprints schemas) = .ok schemas := by
  induction schemas with
  | nil => rfl
  | cons schema rest ih =>
    obtain ⟨hschema, hrest⟩ := List.forall_mem_cons.mp h
    rw [blueprints, buildList, hschema, ih hrest]
    rfl

/-- The calls that any node can have come last. -/
theorem build_mk {start : Start Blueprint} {start' : Start Schema} {calls : List (Call Blueprint)}
    {info : Info} (hstart : buildStart start = .ok start')
    (hcalls : run calls (.ofStart start') = .ok d) (hinfo : d.info = .plain)
    (hnone : d.diagnostic = none) (hdefect : (d.withInfo info).schema.defect? = none) :
    build (.mk start (calls ++ infoCalls info)) = .ok (d.withInfo info).schema := by
  have hnone' : (d.withInfo info).diagnostic = none := hnone
  rw [build, hstart]
  show (run (calls ++ infoCalls info) (.ofStart start') >>= Draft.build) = _
  rw [run_append hcalls, run_infoCalls hinfo]
  show (d.withInfo info).build = _
  simp only [Draft.build, hnone', hdefect]

/-- The calls for a leaf leave a draft that builds this leaf, with whatever `info` is set
afterwards. -/
theorem run_leafCalls (l : Leaf) (brand : Option Brand) :
    ∃ d, run (l.calls ++ brandCalls brand) (.ofStart l.start) = .ok d ∧ d.info = .plain ∧
      d.diagnostic = none ∧ ∀ info, (d.withInfo info).schema = .leaf info l brand := by
  cases l with
  | string length =>
    refine ⟨{ Draft.ofStart .string with length := length, brand := brand }, ?_, rfl, rfl,
      fun _ => rfl⟩
    exact (run_append (run_lengthCalls rfl length) _).trans (run_brandCalls rfl brand)
  | number range =>
    refine ⟨{ Draft.ofStart .number with range := range, brand := brand }, ?_, rfl, rfl,
      fun _ => rfl⟩
    exact (run_append (run_rangeCalls rfl range) _).trans (run_brandCalls rfl brand)
  | bigint | boolean | literal value =>
    exact ⟨_, run_brandCalls rfl brand, rfl, rfl, fun _ => rfl⟩

/-- The blueprint of a well-formed schema builds this schema. -/
theorem build_blueprint {schema : Schema} (h : schema.WellFormed) :
    schema.blueprint.build = .ok schema := by
  induction schema with
  | leaf info l brand =>
    obtain ⟨d, hcalls, hinfo, hnone, hschema⟩ := run_leafCalls l brand
    have hstart : buildStart (l.start : Start Blueprint) = .ok l.start := by
      cases l <;> rfl
    rw [Schema.blueprint, build_mk hstart hcalls hinfo hnone (by rw [hschema]; rfl), hschema]
  | array info element length ih =>
    have hstart : buildStart (.array element.blueprint) = .ok (.array element) := by
      rw [buildStart, ih h]
      rfl
    exact build_mk hstart (run_lengthCalls rfl length) rfl rfl rfl
  | tuple info positions ih =>
    rw [Schema.wellFormed_tuple] at h
    have hstart : buildStart (.tuple (blueprints positions)) = .ok (.tuple positions) := by
      rw [buildStart, buildList_blueprints fun position hmem => ih position hmem (h position hmem)]
      rfl
    exact build_mk hstart (rfl : run [] (.ofStart (.tuple positions)) = _) rfl rfl rfl
  | object info fields ih =>
    obtain ⟨hnames, h⟩ := Schema.wellFormed_object.mp h
    have hfields := run_fieldCalls (d := .ofStart .object)
      (fun field hmem => ih field hmem (h field hmem)) hnames
    exact build_mk rfl hfields rfl rfl rfl
  | record info value key ihvalue ihkey =>
    obtain ⟨hvalue, hkind⟩ := Schema.wellFormed_record.mp h
    have hstart : buildStart (.record value.blueprint) = .ok (.record value) := by
      rw [buildStart, ihvalue hvalue]
      rfl
    cases key with
    | none => exact build_mk hstart (rfl : run [] (.ofStart (.record value)) = _) rfl rfl rfl
    | some key =>
      have hkey := ihkey key rfl (Schema.wellFormed_of_kind_string (hkind key rfl))
      have hcall : run [.key key.blueprint] (.ofStart (.record value)) =
          .ok { Draft.ofStart (.record value) with key := some key } := by
        rw [run, buildCall, hkey]
        rfl
      exact build_mk hstart hcall rfl rfl (Schema.defect?_record.mpr hkind)
  | union info alternatives ih =>
    obtain ⟨hne, h⟩ := Schema.wellFormed_union.mp h
    have hstart : buildStart (.union (blueprints alternatives)) = .ok (.union alternatives) := by
      rw [buildStart, buildList_blueprints fun alternative hmem =>
        ih alternative hmem (h alternative hmem)]
      rfl
    exact build_mk hstart (rfl : run [] (.ofStart (.union alternatives)) = _) rfl rfl
      (Schema.defect?_union.mpr hne)

/-! ### The calls that it makes -/

section

variable {start : Start Blueprint} {calls more : List (Call Blueprint)}

/-- The calls are offered to a node that starts so, and so are those of the schemas they take up. -/
def Serve (start : Start Blueprint) (calls : List (Call Blueprint)) : Prop :=
  ∀ c ∈ calls, start.offers c = true ∧ ∀ b ∈ c.inner, b.Offered

theorem Offered.of_serve (hstart : ∀ b ∈ start.inner, b.Offered) (h : Serve start calls) :
    (Blueprint.mk start calls).Offered :=
  .mk (fun c hc => (h c hc).1) hstart fun c hc => (h c hc).2

theorem Serve.append (h : Serve start calls) (h' : Serve start more) :
    Serve start (calls ++ more) := by
  intro c hc
  rcases List.mem_append.mp hc with hc | hc
  · exact h c hc
  · exact h' c hc

theorem serve_infoCalls (start : Start Blueprint) (info : Info) : Serve start (infoCalls info) := by
  intro c hc
  rw [infoCalls, List.append_assoc, List.mem_append, List.mem_append, List.mem_ite_nil_right,
    List.mem_ite_nil_right, List.mem_singleton, List.mem_singleton, List.mem_map] at hc
  rcases hc with ⟨-, rfl⟩ | ⟨-, rfl⟩ | ⟨text, -, rfl⟩ <;> cases start <;> exact ⟨rfl, nofun⟩

/-- Calls of one sort that take up no schema. -/
theorem serve_map {α : Type} {f : α → Call Blueprint} {list : List α}
    (hoffers : ∀ a, start.offers (f a) = true) (hinner : ∀ a, (f a).inner = []) :
    Serve start (list.map f) := by
  intro c hc
  obtain ⟨a, -, rfl⟩ := List.mem_map.mp hc
  rw [hinner]
  exact ⟨hoffers a, nofun⟩

theorem serve_lengthCalls {length : Bounds UInt64} (hmin : ∀ n, start.offers (.minLength n) = true)
    (hmax : ∀ n, start.offers (.maxLength n) = true) : Serve start (lengthCalls length) :=
  (serve_map hmin fun _ => rfl).append (serve_map hmax fun _ => rfl)

/-- The calls written for a leaf are ones its kind offers. -/
theorem serve_leafCalls (l : Leaf) (brand : Option Brand) :
    Serve l.start (l.calls ++ brandCalls brand) := by
  have hcalls : Serve l.start l.calls := by
    cases l with
    | string length => exact serve_lengthCalls (fun _ => rfl) fun _ => rfl
    | number range =>
      have hmin : Serve .number (range.min.toList.map .min) := serve_map (fun _ => rfl) fun _ => rfl
      have hmax : Serve .number (range.max.toList.map .max) := serve_map (fun _ => rfl) fun _ => rfl
      exact hmin.append hmax
    | bigint | boolean | literal value => exact nofun
  apply hcalls.append
  apply serve_map
  · intro b
    cases l <;> rfl
  · exact fun _ => rfl

theorem serve_fieldCalls {fields : List (String × Schema)}
    (h : ∀ field ∈ fields, field.2.blueprint.Offered) : Serve .object (fieldCalls fields) := by
  induction fields with
  | nil => exact nofun
  | cons field rest ih =>
    obtain ⟨hfield, hrest⟩ := List.forall_mem_cons.mp h
    intro c hc
    rcases List.mem_cons.mp hc with rfl | hc
    · exact ⟨rfl, List.forall_mem_singleton.mpr hfield⟩
    · exact ih hrest c hc

end

theorem offered_blueprints {schemas : List Schema}
    (h : ∀ schema ∈ schemas, schema.blueprint.Offered) : ∀ b ∈ blueprints schemas, b.Offered := by
  induction schemas with
  | nil => exact nofun
  | cons schema rest ih =>
    obtain ⟨hschema, hrest⟩ := List.forall_mem_cons.mp h
    intro b hb
    rcases List.mem_cons.mp hb with rfl | hb
    · exact hschema
    · exact ih hrest b hb

/-- The blueprint of a schema makes no call that its kind does not have. -/
theorem offered_blueprint (schema : Schema) : schema.blueprint.Offered := by
  induction schema with
  | leaf info l brand =>
    refine .of_serve ?_ ((serve_leafCalls l brand).append (serve_infoCalls _ info))
    cases l <;> exact nofun
  | array info element length ih =>
    apply Offered.of_serve
    · exact List.forall_mem_singleton.mpr ih
    · exact (serve_lengthCalls (fun _ => rfl) fun _ => rfl).append (serve_infoCalls _ info)
  | tuple info positions ih => exact .of_serve (offered_blueprints ih) (serve_infoCalls _ info)
  | object info fields ih =>
    exact .of_serve nofun ((serve_fieldCalls ih).append (serve_infoCalls _ info))
  | record info value key ihvalue ihkey =>
    have hvalue : ∀ b ∈ [value.blueprint], b.Offered := List.forall_mem_singleton.mpr ihvalue
    cases key with
    | none => exact .of_serve hvalue (serve_infoCalls _ info)
    | some key =>
      have hkey : Serve (.record value.blueprint) [.key key.blueprint] := by
        intro c hc
        obtain rfl := List.mem_singleton.mp hc
        exact ⟨rfl, List.forall_mem_singleton.mpr (ihkey key rfl)⟩
      exact .of_serve hvalue (hkey.append (serve_infoCalls _ info))
  | union info alternatives ih =>
    exact .of_serve (offered_blueprints ih) (serve_infoCalls _ info)

end Blueprint

/-! ## Both ways -/

namespace Schema

/-- **Literals and blueprints describe the same schemas.** With finite numbers, these are the
well-formed ones, where a literal does not tell the order of fields, and a blueprint needs no call
that its kind does not have. A blueprint builds no other schemas, even if it is given numbers that
are not finite. -/
theorem constructible_iff {t : Schema} (hfinite : t.FiniteNumbers) :
    ((∃ j read, j.normalize = j ∧ ofJson j = .ok read ∧ t.Reordered read) ↔ t.WellFormed) ∧
      ((∃ b : Blueprint, b.Offered ∧ b.build = .ok t) ↔ t.WellFormed) ∧
      ∀ (b : Blueprint) built, b.build = .ok built → built.WellFormed := by
  have hbuilt : ∀ (b : Blueprint) built, b.build = .ok built → built.WellFormed :=
    fun b built h => (Blueprint.constructed_of_build h).wellFormed
  refine ⟨⟨?_, fun hwell => ?_⟩, ⟨?_, fun hwell => ?_⟩, hbuilt⟩
  · rintro ⟨j, read, -, hread, hreordered⟩
    exact hreordered.wellFormed_iff.mpr (Literal.describable_of_node hread).wellFormed
  · obtain ⟨read, hread, hreordered⟩ := Literal.readReordered hwell hfinite
    exact ⟨t.toJson, read, Json.normalize_normalize _, hread, hreordered⟩
  · rintro ⟨b, -, h⟩
    exact hbuilt b t h
  · exact ⟨t.blueprint, Blueprint.offered_blueprint t, Blueprint.build_blueprint hwell⟩

/-- A union without alternatives. -/
def nothing : Schema :=
  .union .plain []

theorem constructible_iff_contacts :
    (contactsNumbersFirst.FiniteNumbers ∧
      (∃ j read, j.normalize = j ∧ ofJson j = .ok read ∧ contactsNumbersFirst.Reordered read) ∧
      ∃ b : Blueprint, b.Offered ∧ b.build = .ok contactsNumbersFirst) ∧
    nothing.FiniteNumbers ∧
      (¬ ∃ j read, j.normalize = j ∧ ofJson j = .ok read ∧ nothing.Reordered read) ∧
      ¬ ∃ b : Blueprint, b.Offered ∧ b.build = .ok nothing := by
  have hcontacts : contactsNumbersFirst.FiniteNumbers := by
    simp [contactsNumbersFirst, numbers, shortText, FiniteNumbers, FiniteNumbersFields,
      Leaf.FiniteNumbers]
  have hwell := reordered_contacts.wellFormed_iff.mp wellFormed_contacts
  have hnothing : nothing.FiniteNumbers := trivial
  have hmalformed : ¬ nothing.WellFormed := by
    simp [nothing, WellFormed]
  obtain ⟨hread, hbuild, -⟩ := constructible_iff hcontacts
  obtain ⟨hread', hbuild', -⟩ := constructible_iff hnothing
  exact ⟨⟨hcontacts, hread.mpr hwell, hbuild.mpr hwell⟩,
    hnothing, mt hread'.mp hmalformed, mt hbuild'.mp hmalformed⟩

end Schema

end Conform
