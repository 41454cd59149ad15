import Conform.Proofs.Construction
import Conform.Proofs.Reordering
import Conform.Schema.Literal.Encode

/-!
# Literals read back

The two halves meet at what the members of a literal say. `Encodes kind own b` says that the members
written for the keys of a kind say `b`, and then they are read so wherever they stand among the
shared keys and in whatever order (`node_nodeJson`). By induction over the schema, what is written
for a node therefore says the node again. All this is proved for literals as they are written and
for sorted ones at once; only the order of fields tells the two apart.

* `readAgain`: the literal of a well-formed schema with finite numbers is read as the schema, with
  its fields in the order of their names if the literal is sorted (`readReordered`).
* `readBack`: this schema is equal to the first one.
-/

namespace Conform

/-! ## Literals and schemas in either order -/

namespace Json

/-- The tree as it is, or sorted if the order of members does not count. -/
def arranged : Arrangement → Json → Json
  | .kept, j => j
  | .free, j => j.normalize

def arrangedMembers : Arrangement → List (String × Json) → List (String × Json)
  | .kept, members => members
  | .free, members => normalMembers members

variable {members : List (String × Json)}

@[simp]
theorem arranged_scalar (order : Arrangement) (s : Scalar) :
    arranged order (.scalar s) = .scalar s := by
  cases order <;> rfl

theorem arranged_array (order : Arrangement) (items : List Json) :
    arranged order (.array items) = .array (items.map (arranged order)) := by
  cases order with
  | kept => exact congrArg array (List.map_id items).symm
  | free => exact congrArg array (normalizeItems_eq_map items)

theorem arranged_object (order : Arrangement) (members : List (String × Json)) :
    arranged order (.object members) = .object (arrangedMembers order members) := by
  cases order with
  | kept => rfl
  | free => exact normalize_object members

theorem get?_arrangedMembers (order : Arrangement) (hkeys : (Entries.keys members).Nodup)
    (key : String) :
    Entries.get? key (arrangedMembers order members) =
      (Entries.get? key members).map (arranged order) := by
  cases order with
  | kept => exact Option.map_id'.symm
  | free => exact get?_normalMembers hkeys key

theorem nodup_keys_arrangedMembers (order : Arrangement) (hkeys : (Entries.keys members).Nodup) :
    (Entries.keys (arrangedMembers order members)).Nodup := by
  cases order with
  | kept => exact hkeys
  | free => exact nodup_keys_normalMembers members

theorem matched_arrangedMembers (order : Arrangement) (hkeys : (Entries.keys members).Nodup) :
    Matched order (fun member arranged' => arranged' = (member.1, arranged order member.2)) members
      (arrangedMembers order members) := by
  cases order with
  | kept => exact List.forall₂_same.mpr fun _ _ => rfl
  | free =>
    refine ⟨normalizeMembers members, ?_, (perm_normalMembers hkeys).symm⟩
    rw [normalizeMembers_eq_map, List.forall₂_map_right_iff]
    exact List.forall₂_same.mpr fun _ _ => rfl

end Json

namespace Schema

/-- The same schema, up to the order of fields if it does not count. -/
def Rearranged : Arrangement → Schema → Schema → Prop
  | .kept, schema, schema' => schema = schema'
  | .free, schema, schema' => schema.Reordered schema'

variable {order : Arrangement} {info : Info} {schema schema' : Schema}
  {schemas schemas' : List Schema}

theorem Rearranged.refl (schema : Schema) : schema.Rearranged order schema := by
  cases order with
  | kept => rfl
  | free => exact .refl schema

theorem rearranged_array {length : Bounds UInt64} (h : schema.Rearranged order schema') :
    Rearranged order (.array info schema length) (.array info schema' length) := by
  cases order with
  | kept => exact congrArg (array info · length) h
  | free => exact .array h

theorem rearranged_tuple (h : List.Forall₂ (Rearranged order) schemas schemas') :
    Rearranged order (.tuple info schemas) (.tuple info schemas') := by
  cases order with
  | kept => exact congrArg (tuple info) (List.forall₂_eq_eq_eq ▸ h)
  | free => exact reordered_tuple h

theorem rearranged_object {fields fields' : List (String × Schema)}
    (h : Matched order (Entries.Paired (Rearranged order)) fields fields') :
    Rearranged order (.object info fields) (.object info fields') := by
  cases order with
  | kept =>
    have hfields : List.Forall₂ Eq fields fields' := h.imp fun _ _ h => Prod.ext h.1.symm h.2
    exact congrArg (object info) (List.forall₂_eq_eq_eq ▸ hfields)
  | free => exact reordered_object h

theorem rearranged_record {key : Option Schema} (h : schema.Rearranged order schema') :
    Rearranged order (.record info schema key) (.record info schema' key) := by
  cases order with
  | kept => exact congrArg (record info · key) h
  | free => exact .record h

theorem rearranged_union (h : List.Forall₂ (Rearranged order) schemas schemas') :
    Rearranged order (.union info schemas) (.union info schemas') := by
  cases order with
  | kept => exact congrArg (union info) (List.forall₂_eq_eq_eq ▸ h)
  | free => exact reordered_union h

theorem Rearranged.eq_of_kind_string (h : schema.Rearranged order schema')
    (hkind : schema.kind = .string) : schema' = schema := by
  cases order with
  | kept => exact h.symm
  | free => exact Reordered.eq_of_kind_string h hkind

end Schema

namespace Literal

open Entries (get? keys)

variable {order : Arrangement} {kind : Kind} {own : List (String × Json)} {info : Info} {b : Body}

/-! ## Members that may be left out -/

theorem get?_member? (key k : String) (value : Option Json) :
    get? k (member? key value) = if key = k then value else none := by
  cases value <;> simp [member?, get?]

theorem get?_flag? (key k : String) (flag : Bool) :
    get? k (flag? key flag) = if key = k ∧ flag = true then some (.bool true) else none := by
  cases flag <;> simp [flag?, get?]

theorem keys_member? (key : String) (value : Option Json) :
    (keys (member? key value)).Sublist [key] := by
  cases value <;> simp [member?, keys]

theorem keys_flag? (key : String) (flag : Bool) : (keys (flag? key flag)).Sublist [key] := by
  cases flag <;> simp [flag?, keys]

/-! ## Shared keys -/

/-- What the shared members of a literal say. -/
def headerOf (info : Info) : Header where
  optional := if info.optional then some true else none
  nullable := if info.nullable then some true else none
  description := info.description.map some

theorem info_headerOf (info : Info) : (headerOf info).info = info := by
  obtain ⟨_ | _, _ | _, _ | _⟩ := info <;> rfl

theorem get?_infoMembers (info : Info) (m : Shared) :
    get? m.name (infoMembers info) = (headerOf info).json m := by
  obtain ⟨optional, nullable, description⟩ := info
  simp only [infoMembers, Entries.get?_append, get?_flag?, get?_member?]
  cases m with
  | optional => cases optional <;> simp [Shared.name, headerOf, Header.json]
  | nullable => cases nullable <;> simp [Shared.name, headerOf, Header.json]
  | description => cases description <;> simp [Shared.name, headerOf, Header.json]

theorem arranged_json (order : Arrangement) (header : Header) (m : Shared) :
    (header.json m).map (Json.arranged order) = header.json m := by
  cases hjson : header.json m with
  | none => rfl
  | some value =>
    obtain ⟨s, rfl⟩ := Header.exists_scalar_of_json hjson
    rw [Option.map_some, Json.arranged_scalar]

theorem keys_infoMembers (info : Info) :
    (keys (infoMembers info)).Sublist ["optional", "nullable", "description"] := by
  rw [infoMembers, Entries.keys_append, Entries.keys_append]
  exact ((keys_flag? _ _).append (keys_flag? _ _)).append (keys_member? _ _)

/-! ## All members -/

/-- The members of a node in the order in which they are written. -/
def nodeMembers (kind : Kind) (own : List (String × Json)) (info : Info) : List (String × Json) :=
  ("type", .string kind.name) :: own ++ infoMembers info

/-- All keys that a node of the kind can have. -/
def allKeys (kind : Kind) : List String :=
  tagKey :: (slots kind).map Slot.name ++ ["optional", "nullable", "description"]

theorem nodup_allKeys (kind : Kind) : (allKeys kind).Nodup := by
  cases kind <;> decide

theorem declared_of_mem_allKeys {key : String} (h : key ∈ allKeys kind) :
    isCommon key = true ∨ ∃ slot ∈ slots kind, slot.name = key := by
  rcases List.mem_append.mp h with hown | hshared
  · rcases List.mem_cons.mp hown with rfl | hslot
    · exact .inl (isCommon_iff.mpr (.inl rfl))
    · exact .inr (List.mem_map.mp hslot)
  · have hshared : ∃ m : Shared, m.name = key := by
      simp only [List.mem_cons, List.not_mem_nil, or_false] at hshared
      rcases hshared with rfl | rfl | rfl
      exacts [⟨.optional, rfl⟩, ⟨.nullable, rfl⟩, ⟨.description, rfl⟩]
    exact .inl (isCommon_iff.mpr (.inr hshared))

theorem keys_nodeMembers (hown : (keys own).Sublist ((slots kind).map Slot.name)) (info : Info) :
    (keys (nodeMembers kind own info)).Sublist (allKeys kind) := by
  rw [nodeMembers, Entries.keys_append]
  exact (hown.cons_cons tagKey).append (keys_infoMembers info)

theorem get?_own_of_common (hown : (keys own).Sublist ((slots kind).map Slot.name)) {key : String}
    (hcommon : isCommon key = true) : get? key own = none := by
  refine Entries.get?_eq_none_iff.mpr fun hmem => ?_
  obtain ⟨slot, -, rfl⟩ := List.mem_map.mp (hown.subset hmem)
  simp [isCommon_slot] at hcommon

theorem get?_nodeMembers_shared (hown : (keys own).Sublist ((slots kind).map Slot.name))
    (m : Shared) : get? m.name (nodeMembers kind own info) = (headerOf info).json m := by
  have htype : "type" ≠ m.name := by cases m <;> decide
  rw [nodeMembers, List.cons_append, get?, if_neg htype, Entries.get?_append,
    get?_own_of_common hown (isCommon_iff.mpr (.inr ⟨m, rfl⟩)), Option.none_or, get?_infoMembers]

theorem get?_nodeMembers_slot (slot : Slot) :
    get? slot.name (nodeMembers kind own info) = get? slot.name own := by
  have htype : "type" ≠ slot.name := by cases slot <;> decide
  have hinfo : get? slot.name (infoMembers info) = none := by
    refine Entries.get?_eq_none_iff.mpr fun hmem => ?_
    have := (keys_infoMembers info).subset hmem
    cases slot <;> simp [Slot.name] at this
  rw [nodeMembers, List.cons_append, get?, if_neg htype, Entries.get?_append, hinfo, Option.or_none]

theorem get?_nodeMembers_of_unknown (hown : (keys own).Sublist ((slots kind).map Slot.name))
    {key : String} (h : ¬ (isCommon key = true ∨ ∃ slot ∈ slots kind, slot.name = key)) :
    get? key (nodeMembers kind own info) = none :=
  Entries.get?_eq_none_iff.mpr fun hmem =>
    h (declared_of_mem_allKeys ((keys_nodeMembers hown info).subset hmem))

theorem nodup_keys_nodeMembers (hown : (keys own).Sublist ((slots kind).map Slot.name))
    (info : Info) : (keys (nodeMembers kind own info)).Nodup :=
  (nodup_allKeys kind).sublist (keys_nodeMembers hown info)

theorem normalize_nodeJson (kind : Kind) (own : List (String × Json)) (info : Info) :
    (nodeJson kind own info).normalize =
      .object (Json.normalMembers (nodeMembers kind own info)) :=
  Json.normalize_object _

/-- The members say what the body says about the keys of the kind. -/
def Encodes (order : Arrangement) (kind : Kind) (own : List (String × Json)) (b : Body) : Prop :=
  ∀ slot : Slot, (get? slot.name own).elim (b.part slot = slot.unset)
    fun value => partOf kind slot (value.arranged order) = .ok (b.part slot)

theorem describes_nodeMembers (hown : (keys own).Sublist ((slots kind).map Slot.name))
    (h : Encodes order kind own b) :
    Describes (Json.arrangedMembers order (nodeMembers kind own info)) (headerOf info) kind b := by
  have hget := Json.get?_arrangedMembers order (nodup_keys_nodeMembers hown info)
  constructor
  · intro m
    rw [hget, get?_nodeMembers_shared hown, arranged_json]
  · refine ⟨.string kind.name, ?_, ?_⟩
    · rw [hget]
      exact congrArg some (Json.arranged_scalar order _)
    exact (kindOfTag_eq_ok_iff fun h => by cases h).mpr rfl
  · intro key hkey
    rw [← Entries.get?_isSome_iff, hget, Option.isSome_map, Entries.get?_isSome_iff] at hkey
    exact declared_of_mem_allKeys ((keys_nodeMembers hown info).subset hkey)
  · intro slot
    rw [hget, get?_nodeMembers_slot]
    have := h slot
    cases hvalue : get? slot.name own with
    | none => simpa [hvalue, Body.part_empty] using this
    | some value => simpa [hvalue] using this

/-- What is written for a node is read as the node again. -/
theorem node_nodeJson {schema : Schema} (hown : (keys own).Sublist ((slots kind).map Slot.name))
    (h : Encodes order kind own b) (hassemble : assemble info kind b = .ok schema)
    (hdefect : schema.defect? = none) :
    node ((nodeJson kind own info).arranged order) = .ok schema := by
  have hcomplete : complete (headerOf info).info kind b = .ok schema := by
    rw [info_headerOf]
    exact complete_eq_ok_iff.mpr ⟨hassemble, hdefect⟩
  have hkeys := Json.nodup_keys_arrangedMembers order (nodup_keys_nodeMembers hown info)
  rw [nodeJson, Json.arranged_object, ← nodeMembers, node_object_eq_ok_iff hkeys]
  exact ⟨headerOf info, kind, b, describes_nodeMembers hown h, hcomplete⟩

/-! ## Values under the keys of a kind -/

theorem said_length (n : Option UInt64) :
    (n.map Json.ofUInt64).elim (n = none) fun value => length? (value.arranged order) = .ok n := by
  cases n with
  | none => rfl
  | some n => simp [Json.ofUInt64, Json.Integer.ofUInt64, length?]

theorem said_number {x : Option Double} (hfinite : ∀ y, x = some y → y.isFinite = true) :
    (x.map Json.ofDouble).elim (x = none) fun value =>
      number? (value.arranged order) = .ok x := by
  cases x with
  | none => rfl
  | some x => simp [Json.ofDouble, hfinite x rfl, number?]

theorem said_brand (brand : Option Brand) :
    (brand.map brandJson).elim (brand = none) fun value =>
      brand? (value.arranged order) = .ok brand := by
  cases brand <;> cases order <;> rfl

theorem constant_constantJson (order : Arrangement) {c : Constant}
    (hfinite : (Leaf.literal c).FiniteNumbers) :
    constant ((constantJson c).arranged order) = .ok c := by
  cases c with
  | string text => cases order <;> rfl
  | number x =>
    have hfinite : x.isFinite = true := hfinite
    simp [constantJson, Json.ofDouble, hfinite, constant]

/-! ## Leaves -/

/-- What the keys of a leaf say. -/
def bodyOf (l : Leaf) (brand : Option Brand) : Body :=
  match l with
  | .string length => { Body.empty with length := length, brand := brand }
  | .number range => { Body.empty with range := range, brand := brand }
  | .bigint | .boolean => { Body.empty with brand := brand }
  | .literal value => { Body.empty with contents := some (.constant value), brand := brand }

theorem keys_lengthMembers (length : Bounds UInt64) :
    (keys (lengthMembers length)).Sublist ["minLength", "maxLength"] := by
  rw [lengthMembers, Entries.keys_append]
  exact (keys_member? _ _).append (keys_member? _ _)

theorem keys_leafMembers (l : Leaf) (brand : Option Brand) :
    (keys (leafMembers l brand)).Sublist ((slots l.kind).map Slot.name) := by
  cases l with
  | string length =>
    rw [leafMembers, Entries.keys_append]
    exact (keys_lengthMembers length).append (keys_member? _ _)
  | number range =>
    rw [leafMembers, rangeMembers, Entries.keys_append, Entries.keys_append]
    exact ((keys_member? _ _).append (keys_member? _ _)).append (keys_member? _ _)
  | bigint => exact keys_member? _ _
  | boolean => exact keys_member? _ _
  | literal value =>
    rw [leafMembers, Entries.keys_append]
    exact (List.Sublist.refl ["of"]).append (keys_member? _ _)

/-- What stands under the keys of a length. -/
def lengthValue (length : Bounds UInt64) : Slot → Option Json
  | .minLength => length.min.map .ofUInt64
  | .maxLength => length.max.map .ofUInt64
  | _ => none

/-- What stands under the keys of a leaf. -/
def leafValue : Leaf → Option Brand → Slot → Option Json
  | _, brand, .brand => brand.map brandJson
  | .literal value, _, .contents => some (constantJson value)
  | .number range, _, .min => range.min.map .ofDouble
  | .number range, _, .max => range.max.map .ofDouble
  | .string length, _, slot => lengthValue length slot
  | _, _, _ => none

theorem get?_lengthMembers (length : Bounds UInt64) (slot : Slot) :
    get? slot.name (lengthMembers length) = lengthValue length slot := by
  cases slot <;>
    simp [lengthMembers, Entries.get?_append, get?_member?, Slot.name, lengthValue]

theorem get?_leafMembers (l : Leaf) (brand : Option Brand) (slot : Slot) :
    get? slot.name (leafMembers l brand) = leafValue l brand slot := by
  cases l with
  | string length =>
    rw [leafMembers, Entries.get?_append, get?_lengthMembers, get?_member?]
    cases slot <;> simp [Slot.name, leafValue, lengthValue]
  | _ =>
    cases slot <;>
      simp [leafMembers, rangeMembers, Entries.get?_append, get?_member?, get?, Slot.name,
        leafValue]

theorem encodes_leafMembers {l : Leaf} (hfinite : l.FiniteNumbers) (brand : Option Brand) :
    Encodes order l.kind (leafMembers l brand) (bodyOf l brand) := by
  intro slot
  rw [get?_leafMembers]
  cases l with
  | string length =>
    cases slot with
    | minLength => exact said_length length.min
    | maxLength => exact said_length length.max
    | brand => exact said_brand brand
    | _ => rfl
  | number range =>
    cases slot with
    | min => exact said_number hfinite.1
    | max => exact said_number hfinite.2
    | brand => exact said_brand brand
    | _ => rfl
  | bigint | boolean =>
    cases slot with
    | brand => exact said_brand brand
    | _ => rfl
  | literal value =>
    cases slot with
    | contents =>
      have hread := constant_constantJson order hfinite
      simp [leafValue, partOf, contentsOf, Leaf.kind, form, hread, Except.map, bodyOf, Body.part]
    | brand => exact said_brand brand
    | _ => rfl

/-! ## Containers -/

section

variable {contents : Contents} {j : Json}

theorem partOf_contents (h : contentsOf kind j = .ok contents) :
    partOf kind .contents j = .ok (some contents) :=
  map_eq_ok.mpr ⟨contents, h, rfl⟩

theorem encodes_contents (h : contentsOf kind (j.arranged order) = .ok contents) :
    Encodes order kind [("of", j)] { Body.empty with contents := some contents } := by
  intro slot
  cases slot with
  | contents => exact partOf_contents h
  | _ => rfl

theorem encodes_array {length : Bounds UInt64}
    (h : contentsOf .array (j.arranged order) = .ok contents) :
    Encodes order .array (("of", j) :: lengthMembers length)
      { Body.empty with contents := some contents, length := length } := by
  intro slot
  by_cases hslot : slot = .contents
  · subst hslot
    exact partOf_contents h
  · have hname : "of" ≠ slot.name := fun h => hslot (Slot.name_injective h.symm)
    rw [get?, if_neg hname, get?_lengthMembers]
    cases slot with
    | contents => exact absurd rfl hslot
    | minLength => exact said_length length.min
    | maxLength => exact said_length length.max
    | _ => rfl

theorem keyOf_of_node {schema : Schema} (h : node j = .ok schema) :
    keyOf j = .ok (some schema) := by
  cases hnull : isNull j with
  | true =>
    rw [isNull_iff.mp hnull] at h
    cases h
  | false => simp [keyOf, hnull, h, Except.map]

theorem encodes_record {k : Json} {key : Schema}
    (h : contentsOf .record (j.arranged order) = .ok contents)
    (hkey : node (k.arranged order) = .ok key) :
    Encodes order .record [("of", j), ("key", k)]
      { Body.empty with contents := some contents, key := some key } := by
  intro slot
  cases slot with
  | contents => exact partOf_contents h
  | key => exact keyOf_of_node hkey
  | _ => rfl

end

/-! ### Lists of nodes -/

theorem toLiterals_eq_map (schemas : List Schema) :
    Schema.toLiterals schemas = schemas.map Schema.toLiteral := by
  induction schemas with
  | nil => rfl
  | cons schema rest ih => rw [Schema.toLiterals, ih, List.map_cons]

theorem fieldLiterals_eq_map (fields : List (String × Schema)) :
    Schema.fieldLiterals fields = fields.map fun field => (field.1, field.2.toLiteral) := by
  induction fields with
  | nil => rfl
  | cons field rest ih => rw [Schema.fieldLiterals, ih, List.map_cons]

/-- What is written for the schema is read as the schema, up to the order of fields if it does not
count. -/
def ReadAgain (order : Arrangement) (schema : Schema) : Prop :=
  ∃ schema', node (schema.toLiteral.arranged order) = .ok schema' ∧
    schema.Rearranged order schema'

theorem exists_nodesOf {schemas : List Schema} (h : ∀ schema ∈ schemas, ReadAgain order schema) :
    ∃ schemas', nodesOf (Json.arranged order (.array (Schema.toLiterals schemas))) = .ok schemas' ∧
      List.Forall₂ (Schema.Rearranged order) schemas schemas' := by
  obtain ⟨schemas', hschemas⟩ := exists_forall₂_iff.mpr h
  refine ⟨schemas', ?_, hschemas.imp fun _ _ h => h.2⟩
  rw [Json.arranged_array, toLiterals_eq_map, nodesOf, nodes_eq_ok_iff, List.forall₂_map_left_iff,
    List.forall₂_map_left_iff]
  exact hschemas.imp fun _ _ h => h.1

/-- The fields are read in the order in which they are written. -/
theorem exists_fieldsOf {fields : List (String × Schema)} (hnames : (keys fields).Nodup)
    (h : ∀ field ∈ fields, ReadAgain order field.2) :
    ∃ fields',
      fieldsOf (Json.arranged order (.object (Schema.fieldLiterals fields))) = .ok fields' ∧
      Matched order (Entries.Paired (Schema.Rearranged order)) fields fields' := by
  have hkeys : (keys (Schema.fieldLiterals fields)).Nodup := by
    rwa [fieldLiterals_eq_map, Entries.keys_map]
  have hmatched := Json.matched_arrangedMembers order hkeys
  rw [Json.arranged_object]
  generalize Json.arrangedMembers order (Schema.fieldLiterals fields) = members at *
  rw [fieldLiterals_eq_map, Matched.map_left_iff] at hmatched
  have hread : Matched order (fun field member => ∃ field' : String × Schema,
      Entries.Paired (Schema.Rearranged order) field field' ∧
        field'.1 = member.1 ∧ node member.2 = .ok field'.2) fields members := by
    refine (hmatched.and_mem h).imp ?_
    rintro field _ ⟨⟨schema', hnode, hrearranged⟩, rfl⟩
    exact ⟨(field.1, schema'), ⟨rfl, hrearranged⟩, rfl, hnode⟩
  obtain ⟨fields', hfields, hnodes⟩ := hread.exists_results
  exact ⟨fields', fields_eq_ok_iff.mpr hnodes, hfields⟩

/-! ## Schemas -/

theorem readAgain (order : Arrangement) {schema : Schema} (hwell : schema.WellFormed)
    (hfinite : schema.FiniteNumbers) : ReadAgain order schema := by
  induction schema with
  | leaf info l brand =>
    refine ⟨.leaf info l brand, ?_, .refl _⟩
    rw [Schema.toLiteral]
    exact node_nodeJson (keys_leafMembers l brand) (encodes_leafMembers hfinite brand)
      (by cases l <;> rfl) rfl
  | array info element length ih =>
    obtain ⟨element', hnode, hrearranged⟩ := ih hwell hfinite
    have hcontents : contentsOf .array (element.toLiteral.arranged order) = .ok (.one element') :=
      map_eq_ok.mpr ⟨element', hnode, rfl⟩
    refine ⟨.array info element' length, ?_, Schema.rearranged_array hrearranged⟩
    rw [Schema.toLiteral]
    have hown := (keys_lengthMembers length).cons_cons "of"
    exact node_nodeJson hown (encodes_array hcontents) rfl rfl
  | tuple info positions ih =>
    rw [Schema.wellFormed_tuple] at hwell
    rw [Schema.finiteNumbers_tuple] at hfinite
    obtain ⟨positions', hnodes, hrearranged⟩ := exists_nodesOf fun position hmem =>
      ih position hmem (hwell position hmem) (hfinite position hmem)
    refine ⟨.tuple info positions', ?_, Schema.rearranged_tuple hrearranged⟩
    rw [Schema.toLiteral]
    exact node_nodeJson (.refl ["of"])
      (encodes_contents (map_eq_ok.mpr ⟨positions', hnodes, rfl⟩)) rfl rfl
  | object info fields ih =>
    obtain ⟨hnames, hwell⟩ := Schema.wellFormed_object.mp hwell
    rw [Schema.finiteNumbers_object] at hfinite
    obtain ⟨fields', hfields, hrearranged⟩ := exists_fieldsOf hnames fun field hmem =>
      ih field hmem (hwell field hmem) (hfinite field hmem)
    have hnames' := (Entries.perm_keys_of_paired hrearranged).nodup_iff.mp hnames
    have hcontents : contentsOf .object
        (Json.arranged order (.object (Schema.fieldLiterals fields))) = .ok (.named fields') :=
      map_eq_ok.mpr ⟨fields', hfields, by rw [Entries.collect_eq_self hnames']⟩
    refine ⟨.object info fields', ?_, Schema.rearranged_object hrearranged⟩
    rw [Schema.toLiteral]
    exact node_nodeJson (.refl ["of"]) (encodes_contents hcontents) rfl rfl
  | record info value key ihvalue ihkey =>
    obtain ⟨hwell, hkind⟩ := Schema.wellFormed_record.mp hwell
    obtain ⟨hfinite, hfinitekey⟩ := Schema.finiteNumbers_record.mp hfinite
    obtain ⟨value', hnode, hrearranged⟩ := ihvalue hwell hfinite
    have hcontents : contentsOf .record (value.toLiteral.arranged order) = .ok (.one value') :=
      map_eq_ok.mpr ⟨value', hnode, rfl⟩
    refine ⟨.record info value' key, ?_, Schema.rearranged_record hrearranged⟩
    cases key with
    | none =>
      rw [Schema.toLiteral]
      have hown := List.sublist_append_left ["of"] ["key"]
      exact node_nodeJson hown (encodes_contents hcontents) rfl rfl
    | some key =>
      have hkey := hkind key rfl
      obtain ⟨key', hnodekey, hrearrangedkey⟩ :=
        ihkey key rfl (Schema.wellFormed_of_kind_string hkey) (hfinitekey key rfl)
      obtain rfl := hrearrangedkey.eq_of_kind_string hkey
      rw [Schema.toLiteral]
      exact node_nodeJson (.refl ["of", "key"]) (encodes_record hcontents hnodekey) rfl
        (by simp [Schema.defect?, hkey])
  | union info alternatives ih =>
    obtain ⟨hne, hwell⟩ := Schema.wellFormed_union.mp hwell
    rw [Schema.finiteNumbers_union] at hfinite
    obtain ⟨alternatives', hnodes, hrearranged⟩ := exists_nodesOf fun alternative hmem =>
      ih alternative hmem (hwell alternative hmem) (hfinite alternative hmem)
    have hne' : alternatives' ≠ [] := by
      rintro rfl
      cases hrearranged
      exact hne rfl
    refine ⟨.union info alternatives', ?_, Schema.rearranged_union hrearranged⟩
    rw [Schema.toLiteral]
    exact node_nodeJson (.refl ["of"])
      (encodes_contents (map_eq_ok.mpr ⟨alternatives', hnodes, rfl⟩)) rfl
      (Schema.defect?_union.mpr hne')

theorem readReordered {schema : Schema} (hwell : schema.WellFormed)
    (hfinite : schema.FiniteNumbers) :
    ∃ schema', node schema.toLiteral.normalize = .ok schema' ∧ schema.Reordered schema' :=
  readAgain .free hwell hfinite

/-- As it is written, a literal is read as the very schema. -/
theorem node_toLiteral {schema : Schema} (hwell : schema.WellFormed)
    (hfinite : schema.FiniteNumbers) : node schema.toLiteral = .ok schema := by
  obtain ⟨schema', hnode, rfl⟩ := readAgain .kept hwell hfinite
  exact hnode

/-- Fields in another order do not make a schema differ. -/
theorem readBack {schema : Schema} (hwell : schema.WellFormed) (hfinite : schema.FiniteNumbers) :
    ∃ schema', node schema.toLiteral.normalize = .ok schema' ∧ schema'.equal schema = true := by
  obtain ⟨schema', hnode, hreordered⟩ := readReordered hwell hfinite
  exact ⟨schema', hnode, hreordered.equal hwell hfinite⟩

end Literal

namespace Schema

/-- **Literals round-trip.** A constructed schema whose numbers are finite is read from its literal
as a schema equal to it, and all numbers in a schema from a literal are finite. -/
theorem ofJson_toJson_of_constructed {schema : Schema} (h : schema.Constructed) :
    (schema.FiniteNumbers →
      ∃ schema', ofJson schema.toJson = .ok schema' ∧ schema'.equal schema = true) ∧
    (schema.Decoded → schema.FiniteNumbers) :=
  ⟨fun hfinite => Literal.readBack h.wellFormed hfinite,
    fun hdecoded => hdecoded.describable.finiteNumbers⟩

/-- An object whose fields are named like the keys of a node. -/
def reservedNames : Blueprint :=
  .mk .object
    [.field "type" (.mk (.record (.mk .number [.min (.zero false), .nullable]))
      [.key (.mk .string [.minLength 1])]),
     .field "of" (.mk (.literal (.string "type")) [.brand ⟨"key", "of"⟩, .optional]),
     .description "keys of a node"]

def nodeKeys : Schema :=
  .object ⟨false, false, some "keys of a node"⟩
    [("type", .record .plain (.leaf ⟨false, true, none⟩ (.number ⟨some (.zero false), none⟩) none)
      (some (.leaf .plain (.string ⟨some 1, none⟩) none))),
     ("of", .leaf ⟨true, false, none⟩ (.literal (.string "type")) (some ⟨"key", "of"⟩))]

theorem build_reservedNames : reservedNames.build = .ok nodeKeys :=
  rfl

/-- A number with the largest bound that is written as an integer. -/
def widestLiteral : Json :=
  .object [("max", .ofUInt64 0xffffffffffffffff), ("type", .string "number")]

theorem ofJson_toJson_nodeKeys :
    (nodeKeys.Constructed ∧ nodeKeys.FiniteNumbers ∧
      ∃ schema', ofJson nodeKeys.toJson = .ok schema' ∧ schema'.equal nodeKeys = true) ∧
    ∃ schema, ofJson widestLiteral = .ok schema ∧ schema.FiniteNumbers := by
  have hbuilt := Blueprint.constructed_of_build build_reservedNames
  have hzero : (Double.zero false).isFinite = true := rfl
  have hfinite : nodeKeys.FiniteNumbers := by
    simp [nodeKeys, FiniteNumbers, FiniteNumbersFields, Leaf.FiniteNumbers, hzero]
  refine ⟨⟨hbuilt, hfinite, (ofJson_toJson_of_constructed hbuilt).1 hfinite⟩, ?_⟩
  obtain ⟨schema, hread⟩ : ∃ schema, ofJson widestLiteral = .ok schema := ⟨_, rfl⟩
  exact ⟨schema, hread, (ofJson_toJson_of_constructed (.decoded (.tree hread))).2 (.tree hread)⟩

end Schema

end Conform
