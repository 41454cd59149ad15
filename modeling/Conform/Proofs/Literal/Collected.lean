import Conform.Proofs.Literal.Repeats
import Conform.Proofs.Literal.Text

/-!
# Fields that are declared more than once

The object of an object's fields is no schema node, and nothing keeps account of its names: the last
declaration of a field wins, in the place of the first one. `Json.collected` does this to every
object of a tree. Since nodes repeat no key it changes nothing but the declarations of fields, so a
literal is read as its collected tree is (`node_eq_ok_iff`); still every declaration has to be in
order, also one that does not count.

* `ofText_repeats`: a repeated key of a node is refused; a repeated field is not, and means its last
  declaration.
* `not_refused_of_repeats`: a field that is declared twice in a text that is read.
-/

namespace Conform

/-! ## Collected trees -/

namespace Json

mutual

/-- The tree with one member for each key of an object: in the first place, with the last value. -/
def collected : Json → Json
  | .scalar s => .scalar s
  | .array items => .array (collectedItems items)
  | .object members => .object (Entries.collect (collectedMembers members))

def collectedItems : List Json → List Json
  | [] => []
  | item :: rest => collected item :: collectedItems rest

def collectedMembers : List (String × Json) → List (String × Json)
  | [] => []
  | (key, value) :: rest => (key, collected value) :: collectedMembers rest

end

theorem collectedItems_eq_map (items : List Json) : collectedItems items = items.map collected := by
  induction items with
  | nil => rfl
  | cons item rest ih => rw [collectedItems, ih, List.map_cons]

theorem collectedMembers_eq_map (members : List (String × Json)) :
    collectedMembers members = members.map fun member => (member.1, member.2.collected) := by
  induction members with
  | nil => rfl
  | cons member rest ih => rw [collectedMembers, ih, List.map_cons]

theorem collected_array (items : List Json) :
    collected (.array items) = .array (items.map collected) := by
  rw [collected, collectedItems_eq_map]

theorem collected_object (members : List (String × Json)) :
    collected (.object members) = .object (Entries.collect (collectedMembers members)) := by
  rw [collected]

theorem keys_collectedMembers (members : List (String × Json)) :
    Entries.keys (collectedMembers members) = Entries.keys members := by
  rw [collectedMembers_eq_map, Entries.keys_map]

/-- Collecting the inside of the members keeps what is found under a key. -/
theorem get?_collectedMembers (key : String) (members : List (String × Json)) :
    Entries.get? key (collectedMembers members) = (Entries.get? key members).map collected := by
  rw [collectedMembers_eq_map, Entries.get?_map]

/-- With no key repeated at the top, an object is collected member by member. -/
theorem collected_object_of_nodup {members : List (String × Json)}
    (hkeys : (Entries.keys members).Nodup) :
    collected (.object members) = .object (collectedMembers members) := by
  rw [collected_object, Entries.collect_eq_self]
  rwa [keys_collectedMembers]

theorem sight_collected (j : Json) : j.collected.sight = j.sight := by
  cases j with
  | scalar s => rfl
  | array items => rw [collected_array]; rfl
  | object members => rw [collected_object]; rfl

end Json

namespace Literal

open Entries (get? keys)

variable {members : List (String × Json)} {kind : Kind} {value : Json}

/-! ### Values that hold no node -/

theorem eq_of_collected_eq_scalar {s : Json.Scalar} (h : value.collected = .scalar s) :
    value = .scalar s := by
  cases value with
  | scalar s' => exact h
  | array items =>
    rw [Json.collected_array] at h
    cases h
  | object members =>
    rw [Json.collected_object] at h
    cases h

theorem collected_eq_self {s : Json.Scalar} (h : value.collected = .scalar s) :
    value.collected = value := by
  rw [h, eq_of_collected_eq_scalar h]

theorem collected_of_isBrand (h : IsBrand value) : value.collected = value := by
  cases h <;> rfl

theorem exists_scalar_of_isLength (h : IsLength value) : ∃ s, value = .scalar s := by
  cases h <;> exact ⟨_, rfl⟩

theorem exists_scalar_of_isBound (h : IsBound value) : ∃ s, value = .scalar s := by
  obtain ⟨⟩ | ⟨⟨n⟩ | ⟨x, finite⟩⟩ := h <;> exact ⟨_, rfl⟩

theorem exists_scalar_of_isConstant (h : IsConstant value) : ∃ s, value = .scalar s := by
  obtain ⟨⟩ | ⟨⟨n⟩ | ⟨x, finite⟩⟩ := h <;> exact ⟨_, rfl⟩

theorem collected_eq_self_of_isBrand (h : IsBrand value.collected) : value.collected = value := by
  cases value with
  | scalar s => rfl
  | array items =>
    rw [Json.collected_array] at h ⊢
    generalize hitems : items.map Json.collected = items' at h
    cases h with
    | set category subcategory =>
      obtain ⟨first, rest, rfl, hfirst, hrest⟩ := List.map_eq_cons_iff.mp hitems
      obtain ⟨second, rest, rfl, hsecond, hrest⟩ := List.map_eq_cons_iff.mp hrest
      obtain rfl := List.map_eq_nil_iff.mp hrest
      rw [eq_of_collected_eq_scalar hfirst, eq_of_collected_eq_scalar hsecond]
      rfl
  | object members =>
    rw [Json.collected_object] at h
    cases h

theorem isNull_collected (value : Json) : isNull value.collected = isNull value := by
  cases value with
  | scalar s => rfl
  | array items => rw [Json.collected_array]; rfl
  | object members => rw [Json.collected_object]; rfl

section

variable (hparts : ∀ part, Json.PartOf part value → ∀ schema, node part = .ok schema →
  node part.collected = .ok schema)

include hparts

/-- Of fields with one name the last is kept, where the first stood. -/
theorem fieldsOf_collected {found : List (String × Schema)} (h : fieldsOf value = .ok found) :
    fieldsOf value.collected = .ok (Entries.collect found) := by
  obtain ⟨fields, rfl, hfields⟩ := fieldsOf_eq_ok_iff.mp h
  have hread := forall₂_and_of_forall₂ (fields_eq_ok_iff.mp hfields) fun field hmem found h =>
    hparts field.2 (.member hmem (.self _)) found.2 h.2
  refine fieldsOf_eq_ok_iff.mpr ⟨_, Json.collected_object fields, fields_eq_ok_iff.mpr ?_⟩
  refine Entries.forall₂_collect (r := fun value schema => node value = .ok schema) ?_
  rw [Json.collectedMembers_eq_map, List.forall₂_map_left_iff]
  exact hread.imp fun field found h => ⟨h.1.1, h.2⟩

theorem nodesOf_collected {found : List Schema} (h : nodesOf value = .ok found) :
    nodesOf value.collected = .ok found := by
  obtain ⟨items, rfl, hitems⟩ := nodesOf_eq_ok_iff.mp h
  have hread := forall₂_and_of_forall₂ (nodes_eq_ok_iff.mp hitems) fun item hmem schema h =>
    hparts item (.item hmem (.self _)) schema h
  refine nodesOf_eq_ok_iff.mpr ⟨_, Json.collected_array items, nodes_eq_ok_iff.mpr ?_⟩
  exact List.forall₂_map_left_iff.mpr (hread.imp fun _ _ h => h.2)

theorem contentsOf_collected {contents : Contents} (h : contentsOf kind value = .ok contents) :
    contentsOf kind value.collected = .ok contents := by
  unfold contentsOf at h ⊢
  split at h
  · obtain ⟨c, hconstant, rfl⟩ := map_eq_ok.mp h
    obtain ⟨s, rfl⟩ := exists_scalar_of_isConstant (isConstant_iff.mp ⟨c, hconstant⟩)
    exact h
  · obtain ⟨schema, hnode, rfl⟩ := map_eq_ok.mp h
    exact map_eq_ok.mpr ⟨schema, hparts value (.self _) schema hnode, rfl⟩
  · obtain ⟨schemas, hnodes, rfl⟩ := map_eq_ok.mp h
    exact map_eq_ok.mpr ⟨schemas, nodesOf_collected hparts hnodes, rfl⟩
  · obtain ⟨found, hfields, rfl⟩ := map_eq_ok.mp h
    have hsame := Entries.collect_eq_self (Entries.nodup_keys_collect found)
    exact map_eq_ok.mpr ⟨_, fieldsOf_collected hparts hfields, by rw [hsame]⟩

theorem keyOf_collected {found : Option Schema} (h : keyOf value = .ok found) :
    keyOf value.collected = .ok found := by
  unfold keyOf at h ⊢
  rw [isNull_collected]
  split at h
  · rename_i hnull
    rw [if_pos hnull]
    exact h
  · rename_i hset
    rw [if_neg hset]
    obtain ⟨schema, hnode, rfl⟩ := map_eq_ok.mp h
    exact map_eq_ok.mpr ⟨schema, hparts value (.self _) schema hnode, rfl⟩

/-- What was read in a slot is read from the collected tree too. -/
theorem partOf_collected {slot : Slot} {part : slot.Part} (h : partOf kind slot value = .ok part) :
    partOf kind slot value.collected = .ok part := by
  cases slot with
  | contents =>
    obtain ⟨contents, hcontents, rfl⟩ := map_eq_ok.mp h
    exact map_eq_ok.mpr ⟨contents, contentsOf_collected hparts hcontents, rfl⟩
  | minLength | maxLength =>
    obtain ⟨s, rfl⟩ := exists_scalar_of_isLength (isLength_iff.mp ⟨part, h⟩)
    exact h
  | min | max =>
    obtain ⟨s, rfl⟩ := exists_scalar_of_isBound (isBound_iff.mp ⟨part, h⟩)
    exact h
  | brand => rwa [collected_of_isBrand (isBrand_iff.mp ⟨part, h⟩)]
  | key => exact keyOf_collected hparts h

end

theorem shared_collected_iff {header : Header} {m : Shared} :
    get? m.name (Json.collectedMembers members) = header.json m ↔
      get? m.name members = header.json m := by
  rw [Json.get?_collectedMembers]
  constructor
  · intro h
    cases hget : get? m.name members with
    | none => rwa [hget] at h
    | some value =>
      rw [hget, Option.map_some] at h
      obtain ⟨s, hs⟩ := Header.exists_scalar_of_json h.symm
      rw [← h, collected_eq_self hs]
  · intro h
    rw [h]
    cases hjson : header.json m with
    | none => rfl
    | some value =>
      obtain ⟨s, rfl⟩ := Header.exists_scalar_of_json hjson
      rfl

theorem tag_collected_iff :
    (∃ tag, get? tagKey (Json.collectedMembers members) = some tag ∧
        kindOfTag tag.sight = .ok kind) ↔
      ∃ tag, get? tagKey members = some tag ∧ kindOfTag tag.sight = .ok kind := by
  simp [Json.get?_collectedMembers, Json.sight_collected]

/-- Collecting changes no key at the top, so it declares the same. -/
theorem declared_collected_iff :
    Declared kind (Json.collectedMembers members) ↔ Declared kind members := by
  rw [Declared, Declared, Json.keys_collectedMembers]

/-- The members of a node say the same when the values are collected. -/
theorem describes_collected {header : Header} {b : Body}
    (hparts : ∀ member ∈ members, ∀ part, Json.PartOf part member.2 → ∀ schema,
      node part = .ok schema → node part.collected = .ok schema)
    (h : Describes members header kind b) :
    Describes (Json.collectedMembers members) header kind b := by
  refine ⟨fun m => shared_collected_iff.mpr (h.shared m), tag_collected_iff.mpr h.tag,
    declared_collected_iff.mpr h.declared, fun slot => ?_⟩
  have hsaid := h.said slot
  rw [Json.get?_collectedMembers]
  cases hget : get? slot.name members with
  | none => rwa [hget] at hsaid
  | some value =>
    rw [hget] at hsaid
    exact partOf_collected (hparts _ (Entries.mem_of_get? hget)) hsaid

/-- A literal is read as its collected tree is. -/
theorem node_collected {j : Json} {schema : Schema} (h : node j = .ok schema) :
    node j.collected = .ok schema := by
  induction j using Json.strong_induction generalizing schema with
  | h j ih =>
    cases j with
    | scalar s => cases h
    | array items => cases h
    | object members =>
      have hkeys := nodup_keys_of_node h
      have hkeys' : (keys (Json.collectedMembers members)).Nodup := by
        rwa [Json.keys_collectedMembers]
      have hparts : ∀ member ∈ members, ∀ part, Json.PartOf part member.2 → ∀ schema,
          node part = .ok schema → node part.collected = .ok schema := by
        intro member hmem part hpart schema hnode
        exact ih part (Nat.lt_of_le_of_lt hpart.sizeOf_le (Json.sizeOf_member_lt hmem)) hnode
      obtain ⟨header, kind, b, hdescribes, hcomplete⟩ := (node_object_eq_ok_iff hkeys).mp h
      rw [Json.collected_object_of_nodup hkeys, node_object_eq_ok_iff hkeys']
      exact ⟨header, kind, b, describes_collected hparts hdescribes, hcomplete⟩

/-! ## Trees whose collected tree is read -/

theorem array_of_collected {items' : List Json} (h : value.collected = .array items') :
    ∃ items, value = .array items := by
  cases value with
  | scalar s => cases h
  | array items => exact ⟨items, rfl⟩
  | object members =>
    rw [Json.collected_object] at h
    cases h

theorem object_of_collected {members' : List (String × Json)}
    (h : value.collected = .object members') : ∃ members, value = .object members := by
  cases value with
  | scalar s => cases h
  | array items =>
    rw [Json.collected_array] at h
    cases h
  | object members => exact ⟨members, rfl⟩

theorem exists_contentsOf {contents : Contents}
    (hchildren : ∀ child, Holds kind "of" value child → ∃ schema, node child = .ok schema)
    (h : contentsOf kind value.collected = .ok contents) :
    ∃ contents, contentsOf kind value = .ok contents := by
  cases kind with
  | string | number | bigint | boolean | literal =>
    obtain ⟨c, hconstant, -⟩ := map_eq_ok.mp h
    obtain ⟨s, hs⟩ := exists_scalar_of_isConstant (isConstant_iff.mp ⟨c, hconstant⟩)
    rw [collected_eq_self hs] at h
    exact ⟨contents, h⟩
  | array =>
    obtain ⟨schema, hschema⟩ := hchildren value .element
    exact ⟨.one schema, map_eq_ok.mpr ⟨schema, hschema, rfl⟩⟩
  | record =>
    obtain ⟨schema, hschema⟩ := hchildren value .value
    exact ⟨.one schema, map_eq_ok.mpr ⟨schema, hschema, rfl⟩⟩
  | tuple =>
    obtain ⟨_, hnodes, -⟩ := map_eq_ok.mp h
    obtain ⟨_, harray, -⟩ := nodesOf_eq_ok_iff.mp hnodes
    obtain ⟨items, rfl⟩ := array_of_collected harray
    obtain ⟨schemas, hschemas⟩ := exists_nodes_iff.mpr fun item hmem =>
      hchildren item (.position hmem)
    exact ⟨.many schemas, map_eq_ok.mpr ⟨schemas, hschemas, rfl⟩⟩
  | union =>
    obtain ⟨_, hnodes, -⟩ := map_eq_ok.mp h
    obtain ⟨_, harray, -⟩ := nodesOf_eq_ok_iff.mp hnodes
    obtain ⟨items, rfl⟩ := array_of_collected harray
    obtain ⟨schemas, hschemas⟩ := exists_nodes_iff.mpr fun item hmem =>
      hchildren item (.alternative hmem)
    exact ⟨.many schemas, map_eq_ok.mpr ⟨schemas, hschemas, rfl⟩⟩
  | object =>
    obtain ⟨_, hfields, -⟩ := map_eq_ok.mp h
    obtain ⟨_, hobject, -⟩ := fieldsOf_eq_ok_iff.mp hfields
    obtain ⟨fields, rfl⟩ := object_of_collected hobject
    obtain ⟨found, hfound⟩ := exists_fields_iff.mpr fun field hmem =>
      hchildren field.2 (.field hmem)
    exact ⟨_, map_eq_ok.mpr ⟨found, hfound, rfl⟩⟩

theorem exists_keyOf
    (hchildren : ∀ child, Holds .record "key" value child → ∃ schema, node child = .ok schema) :
    ∃ found, keyOf value = .ok found := by
  unfold keyOf
  cases hnull : isNull value with
  | true => exact ⟨none, rfl⟩
  | false =>
    have hset : value ≠ .null := fun heq => by rw [isNull_iff.mpr heq] at hnull; cases hnull
    obtain ⟨schema, hschema⟩ := hchildren value (.key hset)
    exact ⟨some schema, map_eq_ok.mpr ⟨schema, hschema, rfl⟩⟩

theorem exists_partOf {slot : Slot} {part : slot.Part} (hslot : slot ∈ slots kind)
    (hchildren : ∀ child, Holds kind slot.name value child → ∃ schema, node child = .ok schema)
    (h : partOf kind slot value.collected = .ok part) :
    ∃ part, partOf kind slot value = .ok part := by
  cases slot with
  | contents =>
    obtain ⟨contents, hcontents, -⟩ := map_eq_ok.mp h
    obtain ⟨contents', h'⟩ := exists_contentsOf hchildren hcontents
    exact ⟨some contents', map_eq_ok.mpr ⟨contents', h', rfl⟩⟩
  | minLength | maxLength =>
    obtain ⟨s, hs⟩ := exists_scalar_of_isLength (isLength_iff.mp ⟨part, h⟩)
    rw [collected_eq_self hs] at h
    exact ⟨part, h⟩
  | min | max =>
    obtain ⟨s, hs⟩ := exists_scalar_of_isBound (isBound_iff.mp ⟨part, h⟩)
    rw [collected_eq_self hs] at h
    exact ⟨part, h⟩
  | brand =>
    rw [collected_eq_self_of_isBrand (isBrand_iff.mp ⟨part, h⟩)] at h
    exact ⟨part, h⟩
  | key =>
    obtain rfl : kind = .record := by cases kind <;> simp [slots] at hslot ⊢
    exact exists_keyOf hchildren

/-- The value can be read, and what is read cannot be anything else than in the collected tree. -/
theorem partOf_of_collected {slot : Slot} {part : slot.Part} (hslot : slot ∈ slots kind)
    (hchildren : ∀ child, Holds kind slot.name value child → ∃ schema, node child = .ok schema)
    (h : partOf kind slot value.collected = .ok part) : partOf kind slot value = .ok part := by
  obtain ⟨part', h'⟩ := exists_partOf hslot hchildren h
  have hsame := partOf_collected (fun part _ schema => node_collected) h'
  rwa [← Except.ok.inj (h.symm.trans hsame)] at h'

theorem Declared.slot_mem {slot : Slot} (h : Declared kind members)
    (hmem : slot.name ∈ keys members) : slot ∈ slots kind := by
  rcases h _ hmem with hcommon | ⟨slot', hslot, hname⟩
  · rw [isCommon_slot] at hcommon
    cases hcommon
  · exact Slot.name_injective hname ▸ hslot

/-- A node whose collected members say something says it, if all that it holds is read. -/
theorem describes_of_collected {header : Header} {b : Body}
    (hchildren : ∀ key value child, HasKind kind members → (key, value) ∈ members →
      Holds kind key value child → ∃ schema, node child = .ok schema)
    (h : Describes (Json.collectedMembers members) header kind b) :
    Describes members header kind b := by
  have hdeclared := declared_collected_iff.mp h.declared
  obtain ⟨tag, htag, hfound⟩ := tag_collected_iff.mp h.tag
  have hkind : HasKind kind members := ⟨tag, Entries.mem_of_get? htag, hfound⟩
  refine ⟨fun m => shared_collected_iff.mp (h.shared m), ⟨tag, htag, hfound⟩, hdeclared,
    fun slot => ?_⟩
  have hsaid := h.said slot
  rw [Json.get?_collectedMembers] at hsaid
  cases hget : get? slot.name members with
  | none => rwa [hget] at hsaid
  | some value =>
    rw [hget] at hsaid
    have hmem := Entries.mem_of_get? hget
    have hslot := hdeclared.slot_mem (Entries.mem_keys_of_mem hmem)
    exact partOf_of_collected hslot (fun child => hchildren _ _ child hkind hmem) hsaid

/-- A tree whose collected form can be read can be read, if no node repeats a key. -/
theorem exists_node_of_collected {j : Json}
    (hread : ∀ part, StandsAsNode part j → ∃ schema, node part.collected = .ok schema)
    (hkeys : ∀ members, StandsAsNode (.object members) j → (keys members).Nodup) :
    ∃ schema, node j = .ok schema := by
  induction j using Json.strong_induction with
  | h j ih =>
    obtain ⟨schema, h⟩ := hread j (.self j)
    cases j with
    | scalar s => exact ⟨schema, h⟩
    | array items =>
      rw [Json.collected_array] at h
      cases h
    | object members =>
      have hnodup := hkeys members (.self _)
      have hnodup' : (keys (Json.collectedMembers members)).Nodup := by
        rwa [Json.keys_collectedMembers]
      rw [Json.collected_object_of_nodup hnodup, node_object_eq_ok_iff hnodup'] at h
      obtain ⟨header, kind, b, hdescribes, hcomplete⟩ := h
      have hchildren : ∀ key value child, HasKind kind members → (key, value) ∈ members →
          Holds kind key value child → ∃ schema, node child = .ok schema := by
        intro key value child hkind hmem hholds
        -- what stands in the child stands in the whole node
        have hlt := Nat.lt_of_le_of_lt hholds.partOf.sizeOf_le (Json.sizeOf_member_lt hmem)
        exact ih child hlt (fun part hpart => hread part (.inside hkind hmem hholds hpart))
          fun members hpart => hkeys members (.inside hkind hmem hholds hpart)
      exact ⟨schema, (node_object_eq_ok_iff hnodup).mpr
        ⟨header, kind, b, describes_of_collected hchildren hdescribes, hcomplete⟩⟩

/-- A literal is read as its collected tree is, if all that stands in it as a node would be read so,
and repeats no key. -/
theorem node_eq_ok_iff {j : Json} {schema : Schema} :
    node j = .ok schema ↔ node j.collected = .ok schema ∧
      (∀ part, StandsAsNode part j → ∃ schema, node part.collected = .ok schema) ∧
        ∀ members, StandsAsNode (.object members) j → (keys members).Nodup := by
  constructor
  · intro h
    have hparts := fun part (hpart : StandsAsNode part j) =>
      exists_node_of_standsAsNode hpart ⟨schema, h⟩
    refine ⟨node_collected h, fun part hpart => ?_, fun members hpart => ?_⟩
    · obtain ⟨schema, hschema⟩ := hparts part hpart
      exact ⟨schema, node_collected hschema⟩
    · obtain ⟨schema, hschema⟩ := hparts _ hpart
      exact nodup_keys_of_node hschema
  · rintro ⟨h, hread, hkeys⟩
    obtain ⟨schema', h'⟩ := exists_node_of_collected hread hkeys
    rwa [Except.ok.inj (h.symm.trans (node_collected h'))]

end Literal

namespace Schema

open Literal
open Entries (keys)

/-- **A schema node whose object repeats a key is refused**, wherever in the text it stands. Where
no node does, each declaration of a field has to be in order, and the last one counts, in the place
of the first. -/
theorem ofText_repeats (text : String) :
    (∀ tree members, Json.treeOfText text = .ok tree → StandsAsNode (.object members) tree →
        ¬ (keys members).Nodup → ∃ fault, ofText text = .error fault) ∧
      ∀ schema, ofText text = .ok schema ↔
        ∃ tree, Json.treeOfText text = .ok tree ∧ ofJson tree.collected = .ok schema ∧
          (∀ part, StandsAsNode part tree → ∃ schema, ofJson part.collected = .ok schema) ∧
            ∀ members, StandsAsNode (.object members) tree → (keys members).Nodup := by
  have hread : ∀ schema, ofText text = .ok schema ↔
      ∃ tree, Json.treeOfText text = .ok tree ∧ ofJson tree.collected = .ok schema ∧
        (∀ part, StandsAsNode part tree → ∃ schema, ofJson part.collected = .ok schema) ∧
          ∀ members, StandsAsNode (.object members) tree → (keys members).Nodup := by
    intro schema
    rw [ofText_eq_ok_iff]
    exact exists_congr fun tree => and_congr_right fun _ => node_eq_ok_iff
  refine ⟨fun tree members htree hstands hrepeats => ?_, hread⟩
  cases h : ofText text with
  | error fault => exact ⟨fault, rfl⟩
  | ok schema =>
    obtain ⟨tree', htree', -, -, hkeys⟩ := (hread schema).mp h
    obtain rfl : tree = tree' := Except.ok.inj (htree.symm.trans htree')
    exact absurd (hkeys members hstands) hrepeats

/-! ### A bound and a field that stand twice -/

/-- A text in which an inner node says its least length twice. -/
def boundedTwice : String :=
  "\x7b\"type\":\"array\",\"of\":\x7b\"type\":\"string\",\"minLength\":1,\"minLength\":2\x7d\x7d"

/-- The members of that inner node. -/
def boundedTwiceMembers : List (String × Json) :=
  [("type", .string "string"), ("minLength", .ofNat 1), ("minLength", .ofNat 2)]

/-- A text that declares one field twice. -/
def declaredTwice : String :=
  "\x7b\"type\":\"object\",\"of\":\x7b" ++
    "\"a\":\x7b\"type\":\"string\"\x7d,\"a\":\x7b\"type\":\"number\"\x7d\x7d\x7d"

/-- The fields as they stand in that text. -/
def declaredTwiceFields : List (String × Json) :=
  [("a", .object [("type", .string "string")]), ("a", .object [("type", .string "number")])]

theorem treeOfText_boundedTwice : Json.treeOfText boundedTwice =
    .ok (.object [("type", .string "array"), ("of", .object boundedTwiceMembers)]) := by
  simp only [Json.treeOfText, boundedTwice, Text.glyphs, String.reduceToList]
  rfl

theorem treeOfText_declaredTwice : Json.treeOfText declaredTwice =
    .ok (.object [("type", .string "object"), ("of", .object declaredTwiceFields)]) := by
  delta declaredTwice
  simp only [Json.treeOfText, Text.glyphs, String.toList_append, String.reduceToList]
  rfl

theorem ofText_declaredTwice : ofText declaredTwice =
    .ok (.object .plain [("a", .leaf .plain (.number .unset) none)]) := by
  delta declaredTwice
  simp only [ofText, Text.glyphs, String.toList_append, String.reduceToList]
  rfl

theorem ofText_repeats_boundedTwice :
    StandsAsNode (.object boundedTwiceMembers)
        (.object [("type", .string "array"), ("of", .object boundedTwiceMembers)]) ∧
      (∃ fault, ofText boundedTwice = .error fault) ∧
      ∃ tree, Json.treeOfText declaredTwice = .ok tree ∧ ofJson tree.collected =
        .ok (.object .plain [("a", .leaf .plain (.number .unset) none)]) := by
  have hkind : HasKind .array [("type", .string "array"), ("of", .object boundedTwiceMembers)] :=
    ⟨_, List.mem_cons_self, rfl⟩
  have hstands := StandsAsNode.inside hkind (List.mem_cons_of_mem _ List.mem_cons_self) .element
    (.self (.object boundedTwiceMembers))
  have hrepeats : ¬ (keys boundedTwiceMembers).Nodup := by decide
  obtain ⟨hrefused, -⟩ := ofText_repeats boundedTwice
  obtain ⟨-, hread⟩ := ofText_repeats declaredTwice
  obtain ⟨tree, htree, hcollected, -⟩ := (hread _).mp ofText_declaredTwice
  exact ⟨hstands, hrefused _ _ treeOfText_boundedTwice hstands hrepeats, tree, htree, hcollected⟩

/-- A field that is declared twice is not refused, although a key of a node would be. -/
theorem not_refused_of_repeats :
    ¬ ∀ text tree members, Json.treeOfText text = .ok tree →
      StandsAsNode (.object members) tree ∨ StandAsFields members tree →
        ¬ (keys members).Nodup → ∃ fault, ofText text = .error fault := by
  intro h
  have hkind : HasKind .object [("type", .string "object"), ("of", .object declaredTwiceFields)] :=
    ⟨_, List.mem_cons_self, rfl⟩
  have hstand : StandAsFields declaredTwiceFields _ :=
    ⟨_, .self _, hkind, List.mem_cons_of_mem _ List.mem_cons_self⟩
  have hrepeats : ¬ (keys declaredTwiceFields).Nodup := by decide
  obtain ⟨fault, hfault⟩ := h _ _ _ treeOfText_declaredTwice (.inr hstand) hrepeats
  rw [ofText_declaredTwice] at hfault
  cases hfault

end Schema

end Conform
