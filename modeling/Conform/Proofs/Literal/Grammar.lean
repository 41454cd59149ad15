import Conform.Proofs.Literal.Members
import Conform.Proofs.Schema

/-!
# The grammar of literals

`IsNodeOf kind j` says that a JSON tree is a schema node of the kind: an object that names the kind
under `type`, has an `of` where the kind cannot be without, and under every other key, which must be
one of all kinds or of this kind, what `IsMember` says may stand there. The grammar knows nothing of
the passes of the reader or of their order.

* `isMember_iff`: a member is in order exactly if its value is read under its key, and what is read
  is no defect of the node.
* `ofJson_iff_isNode`: a literal without numbers for kinds is read exactly if it is a node.
-/

namespace Conform.Literal

open Entries (get? keys)

/-! ## Values without nodes -/

/-- Null, or an integer that is not negative; no integer of a tree is too large for a word. -/
inductive IsLength : Json → Prop
  | unset : IsLength .null
  | set (n : Json.Integer) (h : 0 ≤ n.value) : IsLength (.scalar (.integer n))

/-- What may stand under a bound on a number. -/
inductive IsBound : Json → Prop
  | unset : IsBound .null
  | set {value : Json} (h : value.IsNumber) : IsBound value

/-- What may stand under `brand`. -/
inductive IsBrand : Json → Prop
  | unset : IsBrand .null
  | set (category subcategory : String) : IsBrand (.array [.string category, .string subcategory])

/-- What may stand under `of` in a literal node. -/
inductive IsConstant : Json → Prop
  | string (text : String) : IsConstant (.string text)
  | number {value : Json} (h : value.IsNumber) : IsConstant value

/-! ## Nodes -/

mutual

/-- The tree is a schema node. -/
inductive IsNode : Json → Prop
  | ofKind {kind : Kind} {j : Json} (h : IsNodeOf kind j) : IsNode j

/-- The tree is a schema node of the kind. -/
inductive IsNodeOf : Kind → Json → Prop
  | object {kind : Kind} {members : List (String × Json)}
      (tag : ("type", .string kind.name) ∈ members)
      (required : kind = .literal ∨ kind.isCompound = true → "of" ∈ keys members)
      (member : ∀ key value, (key, value) ∈ members → key ≠ "type" → IsMember kind key value) :
      IsNodeOf kind (.object members)

/-- A node of the kind may have the value under the key. -/
inductive IsMember : Kind → String → Json → Prop
  | optional {kind : Kind} (b : Bool) : IsMember kind "optional" (.bool b)
  | nullable {kind : Kind} (b : Bool) : IsMember kind "nullable" (.bool b)
  | description {kind : Kind} (text : String) : IsMember kind "description" (.string text)
  | noDescription {kind : Kind} : IsMember kind "description" .null
  | minLength {kind : Kind} {value : Json} (hkind : kind = .string ∨ kind = .array)
      (h : IsLength value) : IsMember kind "minLength" value
  | maxLength {kind : Kind} {value : Json} (hkind : kind = .string ∨ kind = .array)
      (h : IsLength value) : IsMember kind "maxLength" value
  | min {value : Json} (h : IsBound value) : IsMember .number "min" value
  | max {value : Json} (h : IsBound value) : IsMember .number "max" value
  | brand {kind : Kind} {value : Json} (hkind : kind.isCompound = false) (h : IsBrand value) :
      IsMember kind "brand" value
  | constant {value : Json} (h : IsConstant value) : IsMember .literal "of" value
  | element {value : Json} (h : IsNode value) : IsMember .array "of" value
  | positions {items : List Json} (h : ∀ item ∈ items, IsNode item) :
      IsMember .tuple "of" (.array items)
  | fields {fields : List (String × Json)} (h : ∀ field ∈ fields, IsNode field.2) :
      IsMember .object "of" (.object fields)
  | value {value : Json} (h : IsNode value) : IsMember .record "of" value
  | key {value : Json} (h : IsNodeOf .string value) : IsMember .record "key" value
  | noKey : IsMember .record "key" .null
  | alternatives {items : List Json} (hne : items ≠ []) (h : ∀ item ∈ items, IsNode item) :
      IsMember .union "of" (.array items)

end

/-! ## Values that are read -/

theorem isLength_iff {value : Json} : (∃ n, length? value = .ok n) ↔ IsLength value := by
  constructor
  · rintro ⟨n, h⟩
    unfold length? at h
    split at h
    · exact .unset
    · split at h
      · cases h
      · rename_i hsign
        exact .set _ (Int.not_lt.mp hsign)
    · cases h
  · rintro (_ | ⟨n, h⟩)
    · exact ⟨none, rfl⟩
    · exact ⟨some (.ofNat n.value.toNat), by simp [length?, Int.not_lt.mpr h]⟩

theorem isBound_iff {value : Json} : (∃ x, number? value = .ok x) ↔ IsBound value := by
  constructor
  · rintro ⟨x, h⟩
    unfold number? at h
    split at h
    · exact .unset
    · exact .set (.integer _)
    · exact .set (.float _ _)
    · cases h
  · rintro (_ | ⟨⟨n⟩ | ⟨x, finite⟩⟩) <;> exact ⟨_, rfl⟩

theorem brandPart_eq_ok_iff {value : Json} {text : String} :
    brandPart value = .ok text ↔ value = .string text := by
  constructor
  · intro h
    unfold brandPart at h
    split at h <;> cases h
    rfl
  · rintro rfl
    rfl

theorem brandOfItems_eq_ok_iff {items : List Json} {b : Brand} :
    brandOfItems items = .ok b ↔ items = [.string b.category, .string b.subcategory] := by
  constructor
  · intro h
    unfold brandOfItems at h
    split at h
    · cases h
    · obtain ⟨_, -, h⟩ := bind_eq_ok.mp h
      cases h
    · simp only [bind_eq_ok, brandPart_eq_ok_iff] at h
      obtain ⟨category, rfl, subcategory, rfl, h⟩ := h
      split at h <;> cases h
      rename_i hmore
      rw [List.isEmpty_iff.mp hmore]
  · rintro rfl
    rfl

theorem isBrand_iff {value : Json} : (∃ b, brand? value = .ok b) ↔ IsBrand value := by
  constructor
  · rintro ⟨b, h⟩
    unfold brand? at h
    split at h
    · exact .unset
    · obtain ⟨brand, hitems, -⟩ := bind_eq_ok.mp h
      rw [brandOfItems_eq_ok_iff.mp hitems]
      exact .set _ _
    · cases h
  · rintro (_ | _) <;> exact ⟨_, rfl⟩

theorem isConstant_iff {value : Json} : (∃ c, constant value = .ok c) ↔ IsConstant value := by
  constructor
  · rintro ⟨c, h⟩
    unfold constant at h
    split at h
    · exact .string _
    · exact .number (.integer _)
    · exact .number (.float _ _)
    · cases h
  · rintro (_ | ⟨⟨n⟩ | ⟨x, finite⟩⟩) <;> exact ⟨_, rfl⟩

/-! ## Nodes that are read -/

/-- The contents that a node of the kind can have; a kind without contents has what it likes. -/
def Suits : Kind → Option Contents → Prop
  | .string, _ | .number, _ | .bigint, _ | .boolean, _ => True
  | .literal, some (.constant _) | .array, some (.one _) | .record, some (.one _) => True
  | .tuple, some (.many _) | .object, some (.named _) => True
  | .union, some (.many alternatives) => alternatives ≠ []
  | _, _ => False

/-- What is read under a key is no defect of the node. -/
def Sound (kind : Kind) : (slot : Slot) → slot.Part → Prop
  | .contents, part => Suits kind part
  | .key, part => kind = .record → ∀ key : Schema, part = some key → key.kind = .string
  | _, _ => True

theorem kind_of_complete {info : Info} {kind : Kind} {b : Body} {schema : Schema}
    (h : complete info kind b = .ok schema) : schema.kind = kind := by
  obtain ⟨hassemble, -⟩ := complete_eq_ok_iff.mp h
  unfold assemble at hassemble
  split at hassemble <;> cases hassemble <;> rfl

theorem forall_sound_iff {kind : Kind} {b : Body} :
    (∀ slot, Sound kind slot (b.part slot)) ↔
      Suits kind b.contents ∧
        (kind = .record → ∀ key : Schema, b.key = some key → key.kind = .string) := by
  constructor
  · intro h
    exact ⟨h .contents, h .key⟩
  · rintro ⟨hcontents, hkey⟩ slot
    cases slot with
    | contents => exact hcontents
    | key => exact hkey
    | _ => trivial

/-- A node can be assembled when every slot of its body is sound. -/
theorem exists_complete_iff {info : Info} {kind : Kind} {b : Body} :
    (∃ schema, complete info kind b = .ok schema) ↔ ∀ slot, Sound kind slot (b.part slot) := by
  obtain ⟨seen, contents, length, range, brand, key⟩ := b
  simp only [forall_sound_iff, complete_eq_ok_iff]
  cases kind with
  | string | number | bigint | boolean => simp [assemble, Schema.defect?, Suits]
  | literal | array | tuple | object =>
    rcases contents with _ | (_ | _ | _ | _) <;> simp [assemble, Schema.defect?, Suits]
  | record =>
    rcases contents with _ | (_ | _ | _ | _) <;> simp [assemble, Schema.defect?_record, Suits]
  | union =>
    rcases contents with _ | (_ | _ | _ | _) <;> simp [assemble, Schema.defect?_union, Suits]

/-! ## Members -/

/-- A value that is read under the key of a kind, as no defect of the node. -/
def Reads (kind : Kind) (slot : Slot) (value : Json) : Prop :=
  ∃ part, partOf kind slot value = .ok part ∧ Sound kind slot part

section

variable {kind : Kind} {value : Json}

theorem reads_length_iff {slot : Slot} (hslot : slot = .minLength ∨ slot = .maxLength) :
    Reads kind slot value ↔ IsLength value := by
  rw [← isLength_iff]
  rcases hslot with rfl | rfl <;> exact exists_congr fun n => and_iff_left trivial

theorem reads_bound_iff {slot : Slot} (hslot : slot = .min ∨ slot = .max) :
    Reads kind slot value ↔ IsBound value := by
  rw [← isBound_iff]
  rcases hslot with rfl | rfl <;> exact exists_congr fun x => and_iff_left trivial

theorem reads_brand_iff : Reads kind .brand value ↔ IsBrand value := by
  rw [← isBrand_iff]
  exact exists_congr fun b => and_iff_left trivial

theorem reads_key_iff :
    Reads .record .key value ↔
      value = .null ∨ ∃ schema, node value = .ok schema ∧ schema.kind = .string := by
  have hreads : Reads .record .key value ↔
      ∃ key, keyOf value = .ok key ∧ ∀ k : Schema, key = some k → k.kind = .string :=
    exists_congr fun key => and_congr_right fun _ => forall_prop_of_true rfl
  rw [hreads, keyOf, ← isNull_iff]
  cases isNull value with
  | true => simp
  | false => simp [map_eq_ok]

theorem reads_contents_iff :
    Reads kind .contents value ↔
      ∃ contents, contentsOf kind value = .ok contents ∧ Suits kind (some contents) := by
  constructor
  · rintro ⟨part, hpart, hsound⟩
    obtain ⟨contents, hcontents, rfl⟩ := map_eq_ok.mp hpart
    exact ⟨contents, hcontents, hsound⟩
  · rintro ⟨contents, hcontents, hsuits⟩
    exact ⟨some contents, map_eq_ok.mpr ⟨contents, hcontents, rfl⟩, hsuits⟩

theorem reads_constant_iff : Reads .literal .contents value ↔ IsConstant value := by
  simp [reads_contents_iff, contentsOf, form, map_eq_ok, Suits, isConstant_iff]

theorem reads_node_iff (hkind : kind = .array ∨ kind = .record) :
    Reads kind .contents value ↔ ∃ schema, node value = .ok schema := by
  rw [reads_contents_iff]
  rcases hkind with rfl | rfl <;> simp [contentsOf, form, map_eq_ok, Suits]

theorem exists_nodes_iff {items : List Json} :
    (∃ schemas, nodes items = .ok schemas) ↔ ∀ item ∈ items, ∃ schema, node item = .ok schema := by
  simp only [nodes_eq_ok_iff, exists_forall₂_iff]

theorem exists_fields_iff {members : List (String × Json)} :
    (∃ found, fields members = .ok found) ↔
      ∀ member ∈ members, ∃ schema, node member.2 = .ok schema := by
  simp only [fields_eq_ok_iff, exists_forall₂_iff, Prod.exists, exists_eq_left, exists_and_left]

theorem nodes_ne_nil_iff {items : List Json} {schemas : List Schema}
    (h : nodes items = .ok schemas) : schemas ≠ [] ↔ items ≠ [] := by
  cases nodes_eq_ok_iff.mp h <;> simp

theorem reads_tuple_iff :
    Reads .tuple .contents value ↔
      ∃ items, value = .array items ∧ ∀ item ∈ items, ∃ schema, node item = .ok schema := by
  simp only [reads_contents_iff, contentsOf, form, map_eq_ok, nodesOf_eq_ok_iff,
    ← exists_nodes_iff]
  constructor
  · rintro ⟨_, ⟨schemas, ⟨items, rfl, hnodes⟩, rfl⟩, -⟩
    exact ⟨items, rfl, schemas, hnodes⟩
  · rintro ⟨items, rfl, schemas, hnodes⟩
    exact ⟨.many schemas, ⟨schemas, ⟨items, rfl, hnodes⟩, rfl⟩, trivial⟩

/-- A union is read from an array of nodes with at least one of them. -/
theorem reads_union_iff :
    Reads .union .contents value ↔ ∃ items, value = .array items ∧ items ≠ [] ∧
      ∀ item ∈ items, ∃ schema, node item = .ok schema := by
  simp only [reads_contents_iff, contentsOf, form, map_eq_ok, nodesOf_eq_ok_iff,
    ← exists_nodes_iff]
  constructor
  · rintro ⟨_, ⟨schemas, ⟨items, rfl, hnodes⟩, rfl⟩, hne⟩
    exact ⟨items, rfl, (nodes_ne_nil_iff hnodes).mp hne, schemas, hnodes⟩
  · rintro ⟨items, rfl, hne, schemas, hnodes⟩
    exact ⟨.many schemas, ⟨schemas, ⟨items, rfl, hnodes⟩, rfl⟩, (nodes_ne_nil_iff hnodes).mpr hne⟩

/-- An object is read from an object whose values are nodes, with any names. -/
theorem reads_object_iff :
    Reads .object .contents value ↔ ∃ members, value = .object members ∧
      ∀ member ∈ members, ∃ schema, node member.2 = .ok schema := by
  simp only [reads_contents_iff, contentsOf, form, map_eq_ok, fieldsOf_eq_ok_iff,
    ← exists_fields_iff]
  constructor
  · rintro ⟨_, ⟨found, ⟨members, rfl, hfields⟩, rfl⟩, -⟩
    exact ⟨members, rfl, found, hfields⟩
  · rintro ⟨members, rfl, found, hfields⟩
    exact ⟨_, ⟨found, ⟨members, rfl, hfields⟩, rfl⟩, trivial⟩

/-- What `isMember_iff` asks of the value: its parts are read exactly if they are nodes. -/
def PartsAgree (value : Json) : Prop :=
  ∀ part kind, Json.PartOf part value →
    ((∃ schema, node part = .ok schema ∧ schema.kind = kind) ↔ IsNodeOf kind part)

theorem PartsAgree.isNode_iff (h : PartsAgree value) {part : Json}
    (hpart : Json.PartOf part value) : IsNode part ↔ ∃ schema, node part = .ok schema := by
  constructor
  · rintro ⟨hnode⟩
    obtain ⟨schema, hschema, -⟩ := (h part _ hpart).mpr hnode
    exact ⟨schema, hschema⟩
  · rintro ⟨schema, hschema⟩
    exact .ofKind ((h part _ hpart).mp ⟨schema, hschema, rfl⟩)

theorem isMember_shared {header : Header} {m : Shared} (h : header.json m = some value) :
    IsMember kind m.name value := by
  cases m with
  | optional =>
    obtain ⟨b, -, rfl⟩ := Option.map_eq_some_iff.mp h
    exact .optional b
  | nullable =>
    obtain ⟨b, -, rfl⟩ := Option.map_eq_some_iff.mp h
    exact .nullable b
  | description =>
    obtain ⟨text, -, rfl⟩ := Option.map_eq_some_iff.mp h
    cases text with
    | none => exact .noDescription
    | some text => exact .description text

theorem isMember_contents (h : PartsAgree value) (hmem : .contents ∈ slots kind)
    (hreads : Reads kind .contents value) : IsMember kind "of" value := by
  cases kind with
  | string | number | bigint | boolean => simp [slots] at hmem
  | literal => exact .constant (reads_constant_iff.mp hreads)
  | array => exact .element ((h.isNode_iff (.self _)).mpr ((reads_node_iff (.inl rfl)).mp hreads))
  | record => exact .value ((h.isNode_iff (.self _)).mpr ((reads_node_iff (.inr rfl)).mp hreads))
  | tuple =>
    obtain ⟨items, rfl, hitems⟩ := reads_tuple_iff.mp hreads
    exact .positions fun item hitem =>
      (h.isNode_iff (.item hitem (.self _))).mpr (hitems item hitem)
  | union =>
    obtain ⟨items, rfl, hne, hitems⟩ := reads_union_iff.mp hreads
    exact .alternatives hne fun item hitem =>
      (h.isNode_iff (.item hitem (.self _))).mpr (hitems item hitem)
  | object =>
    obtain ⟨fields, rfl, hfields⟩ := reads_object_iff.mp hreads
    exact .fields fun field hfield =>
      (h.isNode_iff (.member hfield (.self _))).mpr (hfields field hfield)

/-- What is read in a slot stands in the grammar of the slot. -/
theorem isMember_slot {slot : Slot} (h : PartsAgree value) (hmem : slot ∈ slots kind)
    (hreads : Reads kind slot value) : IsMember kind slot.name value := by
  cases slot with
  | contents => exact isMember_contents h hmem hreads
  | minLength =>
    refine .minLength ?_ ((reads_length_iff (.inl rfl)).mp hreads)
    cases kind <;> simp [slots] at hmem ⊢
  | maxLength =>
    refine .maxLength ?_ ((reads_length_iff (.inr rfl)).mp hreads)
    cases kind <;> simp [slots] at hmem ⊢
  | min =>
    obtain rfl : kind = .number := by cases kind <;> simp [slots] at hmem ⊢
    exact .min ((reads_bound_iff (.inl rfl)).mp hreads)
  | max =>
    obtain rfl : kind = .number := by cases kind <;> simp [slots] at hmem ⊢
    exact .max ((reads_bound_iff (.inr rfl)).mp hreads)
  | brand =>
    refine .brand ?_ (reads_brand_iff.mp hreads)
    cases kind <;> simp [slots] at hmem <;> rfl
  | key =>
    obtain rfl : kind = .record := by cases kind <;> simp [slots] at hmem ⊢
    rcases reads_key_iff.mp hreads with rfl | hnode
    · exact .noKey
    · exact .key ((h _ _ (.self _)).mp hnode)

/-- A member belongs to a key of all kinds or to a key of the kind, and its value is read there. -/
theorem isMember_iff {key : String} (h : PartsAgree value) :
    IsMember kind key value ↔
      (∃ m : Shared, m.name = key ∧ ∃ header : Header, header.json m = some value) ∨
        ∃ slot ∈ slots kind, slot.name = key ∧ Reads kind slot value := by
  constructor
  · intro hmember
    cases hmember with
    | optional b => exact .inl ⟨.optional, rfl, ⟨some b, none, none⟩, rfl⟩
    | nullable b => exact .inl ⟨.nullable, rfl, ⟨none, some b, none⟩, rfl⟩
    | description text => exact .inl ⟨.description, rfl, ⟨none, none, some (some text)⟩, rfl⟩
    | noDescription => exact .inl ⟨.description, rfl, ⟨none, none, some none⟩, rfl⟩
    | minLength hkind hlength =>
      refine .inr ⟨.minLength, ?_, rfl, (reads_length_iff (.inl rfl)).mpr hlength⟩
      rcases hkind with rfl | rfl <;> simp [slots]
    | maxLength hkind hlength =>
      refine .inr ⟨.maxLength, ?_, rfl, (reads_length_iff (.inr rfl)).mpr hlength⟩
      rcases hkind with rfl | rfl <;> simp [slots]
    | min hbound => exact .inr ⟨.min, by simp [slots], rfl, (reads_bound_iff (.inl rfl)).mpr hbound⟩
    | max hbound => exact .inr ⟨.max, by simp [slots], rfl, (reads_bound_iff (.inr rfl)).mpr hbound⟩
    | brand hkind hbrand =>
      refine .inr ⟨.brand, ?_, rfl, reads_brand_iff.mpr hbrand⟩
      cases kind <;> simp [slots, Kind.isCompound] at hkind ⊢
    | constant hconstant =>
      exact .inr ⟨.contents, by simp [slots], rfl, reads_constant_iff.mpr hconstant⟩
    | element hnode =>
      have hread := (h.isNode_iff (.self _)).mp hnode
      exact .inr ⟨.contents, by simp [slots], rfl, (reads_node_iff (.inl rfl)).mpr hread⟩
    | value hnode =>
      have hread := (h.isNode_iff (.self _)).mp hnode
      exact .inr ⟨.contents, by simp [slots], rfl, (reads_node_iff (.inr rfl)).mpr hread⟩
    | positions hitems =>
      refine .inr ⟨.contents, by simp [slots], rfl, reads_tuple_iff.mpr ⟨_, rfl, ?_⟩⟩
      exact fun item hmem => (h.isNode_iff (.item hmem (.self _))).mp (hitems item hmem)
    | alternatives hne hitems =>
      refine .inr ⟨.contents, by simp [slots], rfl, reads_union_iff.mpr ⟨_, rfl, hne, ?_⟩⟩
      exact fun item hmem => (h.isNode_iff (.item hmem (.self _))).mp (hitems item hmem)
    | fields hfields =>
      refine .inr ⟨.contents, by simp [slots], rfl, reads_object_iff.mpr ⟨_, rfl, ?_⟩⟩
      exact fun field hmem => (h.isNode_iff (.member hmem (.self _))).mp (hfields field hmem)
    | key hnode =>
      have hread := (h _ _ (.self _)).mpr hnode
      exact .inr ⟨.key, by simp [slots], rfl, reads_key_iff.mpr (.inr hread)⟩
    | noKey => exact .inr ⟨.key, by simp [slots], rfl, reads_key_iff.mpr (.inl rfl)⟩
  · rintro (⟨m, rfl, header, hjson⟩ | ⟨slot, hmem, rfl, hreads⟩)
    · exact isMember_shared hjson
    · exact isMember_slot h hmem hreads

theorem isMember_shared_iff {m : Shared} (h : PartsAgree value) :
    IsMember kind m.name value ↔ ∃ header : Header, header.json m = some value := by
  rw [isMember_iff h]
  constructor
  · rintro (⟨m', hname, hjson⟩ | ⟨slot, -, hname, -⟩)
    · exact Shared.name_injective hname ▸ hjson
    · exact absurd hname (slot_name_ne_shared_name slot m)
  · exact fun hjson => .inl ⟨m, rfl, hjson⟩

/-- The grammar of a slot of the kind is what is read there. -/
theorem isMember_slot_iff {slot : Slot} (h : PartsAgree value) :
    IsMember kind slot.name value ↔ slot ∈ slots kind ∧ Reads kind slot value := by
  rw [isMember_iff h]
  constructor
  · rintro (⟨m, hname, -⟩ | ⟨slot', hmem, hname, hreads⟩)
    · exact absurd hname.symm (slot_name_ne_shared_name slot m)
    · exact Slot.name_injective hname ▸ ⟨hmem, hreads⟩
  · exact fun ⟨hmem, hreads⟩ => .inr ⟨slot, hmem, rfl, hreads⟩

theorem declared_of_isMember {key : String} (h : PartsAgree value)
    (hmember : IsMember kind key value) :
    isCommon key = true ∨ ∃ slot ∈ slots kind, slot.name = key := by
  rcases (isMember_iff h).mp hmember with ⟨m, hname, -⟩ | ⟨slot, hslot, hname, -⟩
  · exact .inl (isCommon_iff.mpr (.inr ⟨m, hname⟩))
  · exact .inr ⟨slot, hslot, hname⟩

end

/-! ## Objects -/

theorem suits_none_iff {kind : Kind} :
    Suits kind none ↔ ¬ (kind = .literal ∨ kind.isCompound = true) := by
  cases kind <;> simp [Suits, Kind.isCompound]

section

variable {members : List (String × Json)} {kind : Kind}

/-- Members that describe a header and a body are a node of the grammar. -/
theorem isNodeOf_of_describes {header : Header} {b : Body} (hkeys : (keys members).Nodup)
    (htag : ∀ value, ("type", value) ∈ members → ¬ value.IsNumber)
    (hparts : ∀ member ∈ members, PartsAgree member.2) (h : Describes members header kind b)
    (hsound : ∀ slot, Sound kind slot (b.part slot)) : IsNodeOf kind (.object members) := by
  obtain ⟨tag, htagged, hkind⟩ := h.tag
  have hmem := Entries.mem_of_get? htagged
  rw [kindOfTag_eq_ok_iff (htag tag hmem)] at hkind
  refine .object (hkind ▸ hmem) (fun hrequired => ?_) fun key value hmem hne => ?_
  · by_contra habsent
    have hsaid := h.said .contents
    rw [show Slot.contents.name = "of" from rfl, Entries.get?_eq_none_iff.mpr habsent] at hsaid
    have hsuits := hsound .contents
    rw [show b.part .contents = none from hsaid] at hsuits
    exact suits_none_iff.mp hsuits hrequired
  · have hget := Entries.get?_eq_some_of_mem hkeys hmem
    rcases h.declared key (Entries.mem_keys_of_mem hmem) with hcommon | ⟨slot, hslot, rfl⟩
    · rcases isCommon_iff.mp hcommon with rfl | ⟨m, rfl⟩
      · exact absurd rfl hne
      · exact isMember_shared ((h.shared m).symm.trans hget)
    · have hsaid := h.said slot
      rw [hget] at hsaid
      exact isMember_slot (hparts _ hmem) hslot ⟨b.part slot, hsaid, hsound slot⟩

section

variable (hparts : ∀ member ∈ members, PartsAgree member.2)
  (hmember : ∀ key value, (key, value) ∈ members → key ≠ "type" → IsMember kind key value)

include hparts hmember

/-- The common members of a node of the grammar are a header. -/
theorem exists_header :
    ∃ header : Header, ∀ m : Shared, get? m.name members = header.json m := by
  have heach : ∀ m : Shared, ∃ header : Header, get? m.name members = header.json m := by
    intro m
    cases hget : get? m.name members with
    | none => exact ⟨.empty, by cases m <;> rfl⟩
    | some value =>
      have hmem := Entries.mem_of_get? hget
      have hvalue := hmember m.name value hmem (by cases m <;> decide)
      obtain ⟨header, hjson⟩ := (isMember_shared_iff (hparts _ hmem)).mp hvalue
      exact ⟨header, hjson.symm⟩
  choose headers hheaders using heach
  refine ⟨⟨(headers .optional).optional, (headers .nullable).nullable,
    (headers .description).description⟩, fun m => ?_⟩
  cases m <;> exact hheaders _

/-- The other members of a node of the grammar are a sound body. -/
theorem exists_body (hrequired : kind = .literal ∨ kind.isCompound = true → "of" ∈ keys members) :
    ∃ b : Body, Body.Extends kind members .empty b ∧ ∀ slot, Sound kind slot (b.part slot) := by
  have heach : ∀ slot : Slot, ∃ part : slot.Part, Sound kind slot part ∧
      (get? slot.name members).elim (part = Body.empty.part slot)
        fun value => partOf kind slot value = .ok part := by
    intro slot
    cases hget : get? slot.name members with
    | none =>
      refine ⟨Body.empty.part slot, ?_, rfl⟩
      cases slot with
      | contents =>
        have habsent : "of" ∉ keys members := Entries.get?_eq_none_iff.mp hget
        exact suits_none_iff.mpr (mt hrequired habsent)
      | key => exact fun _ _ h => by cases h
      | _ => trivial
    | some value =>
      have hmem := Entries.mem_of_get? hget
      have hvalue := hmember slot.name value hmem (by cases slot <;> decide)
      obtain ⟨-, part, hpart, hsound⟩ := (isMember_slot_iff (hparts _ hmem)).mp hvalue
      exact ⟨part, hsound, hpart⟩
  choose parts hsound hsaid using heach
  refine ⟨.ofParts parts, fun slot => ?_, fun slot => ?_⟩
  · rw [Body.part_ofParts]
    exact hsaid slot
  · rw [Body.part_ofParts]
    exact hsound slot

end

/-- A node of the grammar describes a header and a sound body. -/
theorem exists_describes (hkeys : (keys members).Nodup)
    (hparts : ∀ member ∈ members, PartsAgree member.2) (h : IsNodeOf kind (.object members)) :
    ∃ header b, Describes members header kind b ∧ ∀ slot, Sound kind slot (b.part slot) := by
  obtain ⟨htag, hrequired, hmember⟩ := h
  obtain ⟨header, hheader⟩ := exists_header hparts hmember
  obtain ⟨b, hextends, hsound⟩ := exists_body hparts hmember hrequired
  have hkind : kindOfTag (Json.string kind.name).sight = .ok kind :=
    (kindOfTag_eq_ok_iff fun h => by cases h).mpr rfl
  have hdeclared : Declared kind members := by
    intro key hkey
    obtain ⟨⟨key, value⟩, hmem, rfl⟩ := List.mem_map.mp hkey
    by_cases htype : key = "type"
    · exact .inl (isCommon_iff.mpr (.inl htype))
    · exact declared_of_isMember (hparts _ hmem) (hmember key value hmem htype)
  exact ⟨header, b, ⟨hheader, ⟨_, Entries.get?_eq_some_of_mem hkeys htag, hkind⟩, hdeclared,
    hextends⟩, hsound⟩

end

/-- A tree is read as a schema of a kind exactly if it is a node of this kind. -/
theorem exists_node_iff {j : Json} (hkeys : j.DistinctKeys) (htags : j.NoNumberUnder "type")
    (kind : Kind) : (∃ schema, node j = .ok schema ∧ schema.kind = kind) ↔ IsNodeOf kind j := by
  induction j using Json.strong_induction generalizing kind with
  | h j ih =>
    cases j with
    | scalar s =>
      constructor
      · rintro ⟨schema, h, -⟩
        cases h
      · rintro ⟨⟩
    | array items =>
      constructor
      · rintro ⟨schema, h, -⟩
        cases h
      · rintro ⟨⟩
    | object members =>
      have hparts : ∀ member ∈ members, PartsAgree member.2 := by
        intro member hmem part kind hpart
        have hpart' : Json.PartOf part (.object members) := .member hmem hpart
        have hlt := Nat.lt_of_le_of_lt hpart.sizeOf_le (Json.sizeOf_member_lt hmem)
        exact ih part hlt (hkeys.part hpart') (htags.part hpart') kind
      constructor
      · rintro ⟨schema, h, rfl⟩
        obtain ⟨header, kind, b, hdescribes, hcomplete⟩ := (node_object_eq_ok_iff hkeys.nodup).mp h
        rw [kind_of_complete hcomplete]
        exact isNodeOf_of_describes hkeys.nodup (fun value => htags members value (.self _)) hparts
          hdescribes (exists_complete_iff.mp ⟨schema, hcomplete⟩)
      · intro h
        obtain ⟨header, b, hdescribes, hsound⟩ := exists_describes hkeys.nodup hparts h
        obtain ⟨schema, hcomplete⟩ := exists_complete_iff.mpr hsound
        exact ⟨schema, (node_object_eq_ok_iff hkeys.nodup).mpr
          ⟨header, kind, b, hdescribes, hcomplete⟩, kind_of_complete hcomplete⟩

end Conform.Literal

namespace Conform.Schema

open Literal

/-- **A literal is read exactly if it is a schema node**, down to its innermost parts, unless a kind
in it is given by a number. -/
theorem ofJson_iff_isNode {j : Json} (hkeys : j.DistinctKeys) (htags : j.NoNumberUnder "type") :
    (∃ schema, ofJson j = .ok schema) ↔ IsNode j := by
  constructor
  · rintro ⟨schema, h⟩
    exact .ofKind ((exists_node_iff hkeys htags schema.kind).mp ⟨schema, h, rfl⟩)
  · rintro ⟨h⟩
    obtain ⟨schema, hschema, -⟩ := (exists_node_iff hkeys htags _).mpr h
    exact ⟨schema, hschema⟩

/-- An object with a field `type`, whose record may have any keys. -/
def flagsLiteral : Json :=
  .object
    [("of", .object [("type", .object
      [("key", .null), ("of", .object [("type", .string "boolean")]),
        ("type", .string "record")])]),
     ("optional", .bool true), ("type", .string "object")]

theorem ofJson_iff_isNode_flagsLiteral :
    flagsLiteral.DistinctKeys ∧ flagsLiteral.NoNumberUnder "type" ∧ IsNode flagsLiteral := by
  have hkeys : flagsLiteral.DistinctKeys := by
    simp [flagsLiteral, Json.distinctKeys_object_iff, Json.distinctKeys_scalar, Json.null,
      Json.string, Json.bool, Entries.keys]
  have htags : flagsLiteral.NoNumberUnder "type" := by
    simp [flagsLiteral, Json.noNumberUnder_object_iff, Json.noNumberUnder_scalar, Json.null,
      Json.string, Json.bool, Json.isNumber_iff]
  exact ⟨hkeys, htags, (ofJson_iff_isNode hkeys htags).mp ⟨_, rfl⟩⟩

end Conform.Schema
