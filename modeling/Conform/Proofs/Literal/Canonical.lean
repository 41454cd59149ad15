import Conform.Proofs.Literal.Alike
import Conform.Proofs.Literal.Grammar

/-!
# Accepted literals are written again as they are, but for idle members

Several literals describe one schema: a flag may be `false` or left out, what a kind can do without
may be null or left out, and a number that is kept as a double may be written as an integer.
`canonical` makes these choices once for all, at every node of a literal, and changes nothing else.

* `toJson_of_node`: what is read from a literal is written as its canonical form, sorted by keys.
  The members are compared key by key: what the writer puts under a key is what the reader found
  there (`json_of_shared`, `json_of_slot`), and nobody has any other key.
* `Schema.toJson_eq_canonical`: and since equal schemas are written alike, literals with different
  canonical forms describe different schemas.
-/

namespace Conform.Literal

open Entries (get? keys)

/-! ## Canonical literals -/

/-- The member says what the node says without it. -/
def isIdle : String → Json → Bool
  | key, .scalar (.bool false) => key ∈ ["optional", "nullable"]
  | key, .scalar .null =>
    key ∈ ["description", "minLength", "maxLength", "min", "max", "brand", "key"]
  | _, _ => false

/-- What is under a key of a node. -/
inductive Standing where
  | node
  | nodes
  | fields
  | number
  | plain

/-- The kind decides what is under `of`. -/
def standing (kind : Option Kind) : String → Standing
  | "min" | "max" => .number
  | "key" => .node
  | "of" =>
    match kind with
    | some .literal => .number
    | some .array | some .record => .node
    | some .tuple | some .union => .nodes
    | some .object => .fields
    | _ => .plain
  | _ => .plain

/-- The kind that the members name. -/
def namedKind (members : List (String × Json)) : Option Kind :=
  match get? tagKey members with
  | some (.scalar (.string name)) => Kind.all.find? fun kind => kind.name = name
  | _ => none

/-- A number becomes a float. -/
def asFloat : Json → Json
  | .scalar (.integer n) => .ofDouble (.ofInt n.value)
  | j => j

mutual

/-- The literal without idle members and with floats where numbers are kept as doubles, at every
node. -/
def canonical : Json → Json
  | .object members => .object (canonicalMembers (namedKind members) members)
  | j => j

/-- Without members that say nothing, and with what stands inside in canonical form. -/
def canonicalMembers (kind : Option Kind) : List (String × Json) → List (String × Json)
  | [] => []
  | (key, value) :: rest =>
    let later := canonicalMembers kind rest
    if isIdle key value then later
    else
      match standing kind key with
      | .node => (key, canonical value) :: later
      | .nodes => (key, canonicalNodes value) :: later
      | .fields => (key, canonicalFields value) :: later
      | .number => (key, asFloat value) :: later
      | .plain => (key, value) :: later

/-- An array of literals, each in canonical form. -/
def canonicalNodes : Json → Json
  | .array items => .array (canonicalItems items)
  | j => j

def canonicalItems : List Json → List Json
  | [] => []
  | item :: rest => canonical item :: canonicalItems rest

/-- The names of fields are no keys of a node. -/
def canonicalFields : Json → Json
  | .object fields => .object (canonicalValues fields)
  | j => j

def canonicalValues : List (String × Json) → List (String × Json)
  | [] => []
  | (name, value) :: rest => (name, canonical value) :: canonicalValues rest

end

/-! ### Key by key -/

variable {kind : Kind} {members : List (String × Json)}

/-- What becomes of the value under a key. -/
def canonicalValue (kind : Option Kind) (key : String) (value : Json) : Json :=
  match standing kind key with
  | .node => canonical value
  | .nodes => canonicalNodes value
  | .fields => canonicalFields value
  | .number => asFloat value
  | .plain => value

/-- What is left of a member. -/
def kept (kind : Option Kind) (key : String) (value : Json) : Option Json :=
  if isIdle key value then none else some (canonicalValue kind key value)

theorem canonicalMembers_cons (kind : Option Kind) (key : String) (value : Json)
    (rest : List (String × Json)) :
    canonicalMembers kind ((key, value) :: rest) =
      if isIdle key value then canonicalMembers kind rest
      else (key, canonicalValue kind key value) :: canonicalMembers kind rest := by
  rw [canonicalMembers, canonicalValue]
  cases standing kind key <;> rfl

theorem keys_canonicalMembers (kind : Option Kind) (members : List (String × Json)) :
    (keys (canonicalMembers kind members)).Sublist (keys members) := by
  induction members with
  | nil => exact .refl _
  | cons member rest ih =>
    obtain ⟨key, value⟩ := member
    rw [canonicalMembers_cons]
    split
    · exact ih.cons key
    · exact ih.cons_cons key

/-- What is found under a key after idle members are dropped. -/
theorem get?_canonicalMembers (kind : Option Kind) (hkeys : (keys members).Nodup) (key : String) :
    get? key (canonicalMembers kind members) = (get? key members).bind (kept kind key) := by
  induction members with
  | nil => rfl
  | cons member rest ih =>
    obtain ⟨k, value⟩ := member
    obtain ⟨hk, hrest⟩ := List.nodup_cons.mp hkeys
    rw [canonicalMembers_cons]
    by_cases hkey : k = key
    · subst hkey
      have hnone : get? k rest = none := Entries.get?_eq_none_iff.mpr hk
      have hlater : get? k (canonicalMembers kind rest) = none := by rw [ih hrest, hnone]; rfl
      cases hidle : isIdle k value <;> simp [get?, kept, hidle, hlater]
    · cases isIdle k value <;> simp [get?, hkey, ih hrest]

theorem canonicalItems_eq_map (items : List Json) : canonicalItems items = items.map canonical := by
  induction items with
  | nil => rfl
  | cons item rest ih => rw [canonicalItems, ih, List.map_cons]

theorem canonicalValues_eq_map (fields : List (String × Json)) :
    canonicalValues fields = fields.map fun field => (field.1, canonical field.2) := by
  induction fields with
  | nil => rfl
  | cons field rest ih => rw [canonicalValues, ih, List.map_cons]

/-! ## What is written under a key -/

/-- What is written for what stands under `of`. -/
def Contents.json : Contents → Json
  | constant value => constantJson value
  | one schema => schema.toLiteral
  | many schemas => .array (Schema.toLiterals schemas)
  | named fields => .object (Schema.fieldLiterals fields)

/-- What is written for what a key of a kind says. -/
def Slot.json : (slot : Slot) → slot.Part → Option Json
  | contents, part => Option.map Contents.json part
  | minLength, part | maxLength, part => Option.map Json.ofUInt64 part
  | min, part | max, part => Option.map Json.ofDouble part
  | brand, part => Option.map brandJson part
  | key, part => Option.map Schema.toLiteral part

theorem Slot.json_unset (slot : Slot) : slot.json slot.unset = none := by
  cases slot <;> rfl

/-- The members that are written for the keys of a kind. -/
structure Writes (kind : Kind) (own : List (String × Json)) (b : Body) : Prop where
  keys : (keys own).Sublist ((slots kind).map Slot.name)
  value : ∀ slot ∈ slots kind, get? slot.name own = slot.json (b.part slot)

theorem writes_leafMembers {l : Leaf} {brand : Option Brand} {b : Body} (hkind : l.kind = kind)
    (h : ∀ slot ∈ slots kind, leafValue l brand slot = slot.json (b.part slot)) :
    Writes kind (leafMembers l brand) b where
  keys := hkind ▸ keys_leafMembers l brand
  value slot hmem := (get?_leafMembers l brand slot).trans (h slot hmem)

theorem get?_contents {contents : Contents} {b : Body} {rest : List (String × Json)}
    (h : b.contents = some contents) :
    get? Slot.contents.name (("of", contents.json) :: rest) =
      Slot.contents.json (b.part .contents) := by
  simp [get?, Slot.name, Slot.json, Body.part, h]

theorem writes_contents {contents : Contents} {b : Body} (hslots : slots kind = [.contents])
    (h : b.contents = some contents) : Writes kind [("of", contents.json)] b where
  keys := by rw [hslots]; exact .refl ["of"]
  value slot hmem := by
    rw [hslots, List.mem_singleton] at hmem
    subst hmem
    exact get?_contents h

/-- The schema assembled from a body is written as the members that say this body. -/
theorem exists_writes {info : Info} {b : Body} {schema : Schema}
    (h : assemble info kind b = .ok schema) :
    ∃ own, schema.toLiteral = nodeJson kind own info ∧ Writes kind own b := by
  unfold assemble at h
  split at h
  case h_1 | h_2 | h_3 | h_4 =>
    cases h
    refine ⟨_, by rw [Schema.toLiteral]; rfl, writes_leafMembers rfl fun slot hmem => ?_⟩
    cases slot <;> first | rfl | simp [slots] at hmem
  case h_5 value hcontents =>
    cases h
    refine ⟨_, by rw [Schema.toLiteral]; rfl, writes_leafMembers rfl fun slot hmem => ?_⟩
    cases slot with
    | contents => simp [leafValue, Slot.json, Body.part, hcontents, Contents.json]
    | brand => rfl
    | _ => simp [slots] at hmem
  case h_6 element hcontents =>
    cases h
    have hown := (keys_lengthMembers b.length).cons_cons "of"
    refine ⟨("of", element.toLiteral) :: lengthMembers b.length, by rw [Schema.toLiteral], hown, ?_⟩
    intro slot hmem
    cases slot with
    | contents => exact get?_contents hcontents
    | minLength => exact get?_lengthMembers b.length .minLength
    | maxLength => exact get?_lengthMembers b.length .maxLength
    | _ => simp [slots] at hmem
  case h_9 value hcontents =>
    cases h
    cases hkey : b.key with
    | none =>
      have hown := List.sublist_append_left ["of"] ["key"]
      refine ⟨[("of", value.toLiteral)], by rw [Schema.toLiteral], hown, fun slot hmem => ?_⟩
      cases slot with
      | contents => exact get?_contents hcontents
      | key => simp [get?, Slot.name, Slot.json, Body.part, hkey]
      | _ => simp [slots] at hmem
    | some key =>
      have hown := List.Sublist.refl ["of", "key"]
      refine ⟨[("of", value.toLiteral), ("key", key.toLiteral)], by rw [Schema.toLiteral], hown,
        fun slot hmem => ?_⟩
      cases slot with
      | contents => exact get?_contents hcontents
      | key => simp [get?, Slot.name, Slot.json, Body.part, hkey]
      | _ => simp [slots] at hmem
  case h_7 contents hcontents | h_8 contents hcontents | h_10 contents hcontents =>
    cases h
    exact ⟨_, by rw [Schema.toLiteral]; rfl, writes_contents rfl hcontents⟩
  case h_11 => cases h

/-! ## What was read under a key -/

theorem json_headerOf_info (header : Header) (kind : Option Kind) (m : Shared) :
    (headerOf header.info).json m = (header.json m).bind (kept kind m.name) := by
  obtain ⟨optional, nullable, description⟩ := header
  cases m with
  | optional => rcases optional with _ | _ | _ <;> rfl
  | nullable => rcases nullable with _ | _ | _ <;> rfl
  | description => rcases description with _ | _ | _ <;> rfl

theorem ofUInt64_ofNat {n : Json.Integer} (h : 0 ≤ n.value) :
    Json.ofUInt64 (UInt64.ofNat n.value.toNat) = .scalar (.integer n) := by
  obtain ⟨value, lower, upper⟩ := n
  dsimp only at h
  have hvalue : ((UInt64.ofNat value.toNat).toNat : Int) = value := by
    rw [UInt64.toNat_ofNat']
    omega
  have hinteger : Json.Integer.ofUInt64 (UInt64.ofNat value.toNat) = ⟨value, lower, upper⟩ := by
    rw [Json.Integer.ofUInt64, Json.Integer.mk.injEq]
    exact hvalue
  rw [Json.ofUInt64, hinteger]

/-- A length is written again as its canonical form. -/
theorem json_of_length {value : Json} {n : Option UInt64} {slot : Slot}
    (hslot : slot = .minLength ∨ slot = .maxLength) (h : length? value = .ok n) :
    n.map Json.ofUInt64 = kept (some kind) slot.name value := by
  unfold length? at h
  split at h
  · cases h
    rcases hslot with rfl | rfl <;> rfl
  · split at h
    · cases h
    · rename_i n hsign
      cases h
      rw [Option.map_some, ofUInt64_ofNat (Int.not_lt.mp hsign)]
      rcases hslot with rfl | rfl <;> rfl
  · cases h

/-- So is a bound on numbers. -/
theorem json_of_number {value : Json} {x : Option Double} {slot : Slot}
    (hslot : slot = .min ∨ slot = .max) (h : number? value = .ok x) :
    x.map Json.ofDouble = kept (some kind) slot.name value := by
  unfold number? at h
  split at h
  · cases h
    rcases hslot with rfl | rfl <;> rfl
  · cases h
    rcases hslot with rfl | rfl <;> rfl
  · rename_i x finite
    cases h
    have hfloat : Json.ofDouble x = .scalar (.float x finite) := by simp [Json.ofDouble, finite]
    rw [Option.map_some, hfloat]
    rcases hslot with rfl | rfl <;> rfl
  · cases h

theorem json_of_brand {value : Json} {brand : Option Brand} (h : brand? value = .ok brand) :
    brand.map brandJson = kept (some kind) Slot.brand.name value := by
  unfold brand? at h
  split at h
  · cases h
    rfl
  · rename_i items
    obtain ⟨b, hitems, h⟩ := bind_eq_ok.mp h
    cases h
    rw [brandOfItems_eq_ok_iff.mp hitems]
    rfl
  · cases h

theorem json_of_constant {value : Json} {c : Constant} (h : constant value = .ok c) :
    constantJson c = asFloat value := by
  unfold constant at h
  split at h
  · cases h
    rfl
  · cases h
    rfl
  · rename_i x finite
    cases h
    simp [constantJson, Json.ofDouble, finite, asFloat]
  · cases h

/-! ### Nodes in a value -/

section

variable {value : Json} (hparts : ∀ part, Json.PartOf part value → ∀ schema,
  node part = .ok schema → schema.toLiteral.normalize = (canonical part).normalize)

include hparts

theorem json_of_nodes {schemas : List Schema} (h : nodesOf value = .ok schemas) :
    (Json.array (Schema.toLiterals schemas)).normalize = (canonicalNodes value).normalize := by
  obtain ⟨items, rfl, hitems⟩ := nodesOf_eq_ok_iff.mp h
  have hread := forall₂_and_of_forall₂ (nodes_eq_ok_iff.mp hitems) fun item hmem schema h =>
    hparts item (.item hmem (.self _)) schema h
  have hsame : List.Forall₂ (· = ·) ((schemas.map Schema.toLiteral).map Json.normalize)
      ((items.map canonical).map Json.normalize) := by
    simp only [List.forall₂_map_left_iff, List.forall₂_map_right_iff]
    exact hread.flip.imp fun _ _ h => h.2
  rw [List.forall₂_eq_eq_eq] at hsame
  rw [canonicalNodes, canonicalItems_eq_map, toLiterals_eq_map, Json.normalize, Json.normalize,
    Json.normalizeItems_eq_map, Json.normalizeItems_eq_map, hsame]

theorem json_of_fields {found : List (String × Schema)} (h : fieldsOf value = .ok found) :
    (Json.object (Schema.fieldLiterals found)).normalize = (canonicalFields value).normalize := by
  obtain ⟨fields, rfl, hfields⟩ := fieldsOf_eq_ok_iff.mp h
  have hread := forall₂_and_of_forall₂ (fields_eq_ok_iff.mp hfields) fun field hmem found h =>
    hparts field.2 (.member hmem (.self _)) found.2 h.2
  have hsame : List.Forall₂ (· = ·)
      (Json.normalizeMembers (Schema.fieldLiterals found))
      (Json.normalizeMembers (canonicalValues fields)) := by
    simp only [Json.normalizeMembers_eq_map, fieldLiterals_eq_map, canonicalValues_eq_map,
      List.forall₂_map_left_iff, List.forall₂_map_right_iff]
    exact hread.flip.imp fun _ _ h => Prod.ext h.1.1 h.2
  rw [List.forall₂_eq_eq_eq] at hsame
  rw [canonicalFields, Json.normalize, Json.normalize, hsame]

/-- What was read under `of` is written again as its canonical form. -/
theorem json_of_contents {contents : Contents} (hdistinct : value.DistinctKeys)
    (hslot : .contents ∈ slots kind) (h : contentsOf kind value = .ok contents) :
    contents.json.normalize = (canonicalValue (some kind) "of" value).normalize := by
  cases kind with
  | string | number | bigint | boolean => simp [slots] at hslot
  | literal =>
    obtain ⟨c, hconstant, rfl⟩ := map_eq_ok.mp h
    exact congrArg Json.normalize (json_of_constant hconstant)
  | array | record =>
    obtain ⟨schema, hnode, rfl⟩ := map_eq_ok.mp h
    exact hparts value (.self _) schema hnode
  | tuple | union =>
    obtain ⟨schemas, hnodes, rfl⟩ := map_eq_ok.mp h
    exact json_of_nodes hparts hnodes
  | object =>
    obtain ⟨found, hfields, rfl⟩ := map_eq_ok.mp h
    have hnames : (keys found).Nodup := by
      obtain ⟨fields, rfl, hfields⟩ := fieldsOf_eq_ok_iff.mp hfields
      obtain ⟨hkeys, -⟩ := (Entries.forall₂_iff
        (r := fun value schema => node value = .ok schema)).mp (fields_eq_ok_iff.mp hfields)
      rw [hkeys]
      exact hdistinct.nodup
    rw [Entries.collect_eq_self hnames]
    exact json_of_fields hparts hfields

/-- So is what was read in any slot. -/
theorem json_of_slot {slot : Slot} {part : slot.Part} (hdistinct : value.DistinctKeys)
    (hslot : slot ∈ slots kind) (h : partOf kind slot value = .ok part) :
    (slot.json part).map Json.normalize =
      (kept (some kind) slot.name value).map Json.normalize := by
  cases slot with
  | contents =>
    obtain ⟨contents, hcontents, rfl⟩ := map_eq_ok.mp h
    have hidle : isIdle Slot.contents.name value = false := by
      rcases value with (_ | ⟨_ | _⟩ | _ | _ | _) | _ | _ <;> rfl
    rw [kept, hidle]
    exact congrArg some (json_of_contents hparts hdistinct hslot hcontents)
  | minLength => exact congrArg (Option.map Json.normalize) (json_of_length (.inl rfl) h)
  | maxLength => exact congrArg (Option.map Json.normalize) (json_of_length (.inr rfl) h)
  | min => exact congrArg (Option.map Json.normalize) (json_of_number (.inl rfl) h)
  | max => exact congrArg (Option.map Json.normalize) (json_of_number (.inr rfl) h)
  | brand => exact congrArg (Option.map Json.normalize) (json_of_brand h)
  | key =>
    have hidle : isIdle Slot.key.name value = isNull value := by
      rcases value with (_ | ⟨_ | _⟩ | _ | _ | _) | _ | _ <;> rfl
    rw [kept, hidle]
    have h : keyOf value = .ok part := h
    unfold keyOf at h
    cases hnull : isNull value with
    | true =>
      rw [hnull] at h
      cases h
      rfl
    | false =>
      rw [hnull] at h
      obtain ⟨schema, hnode, rfl⟩ := map_eq_ok.mp h
      exact congrArg some (hparts value (.self _) schema hnode)

end

/-! ## All members -/

theorem namedKind_of_tag {tag : Json} (hget : get? tagKey members = some tag)
    (hnumber : ¬ tag.IsNumber) (hkind : kindOfTag tag.sight = .ok kind) :
    tag = .string kind.name ∧ namedKind members = some kind := by
  obtain rfl := (kindOfTag_eq_ok_iff hnumber).mp hkind
  refine ⟨rfl, ?_⟩
  rw [namedKind, hget]
  exact kind_of_name.mpr rfl

/-- Objects with the same value under every key, up to normalisation, have one normal form. -/
theorem normalMembers_eq {others : List (String × Json)} (hkeys : (keys members).Nodup)
    (hkeys' : (keys others).Nodup)
    (h : ∀ key, (get? key members).map Json.normalize = (get? key others).map Json.normalize) :
    Json.normalMembers members = Json.normalMembers others := by
  refine (Json.ascending_normalMembers _).eq_of_get? (Json.ascending_normalMembers _) fun key => ?_
  rw [Json.get?_normalMembers hkeys, Json.get?_normalMembers hkeys', h key]

/-- What is written under a key is what the reader found there and `canonical` left there. -/
theorem get?_nodeMembers_eq {header : Header} {b : Body} {own : List (String × Json)}
    (hdescribes : Describes members header kind b) (hwrites : Writes kind own b)
    (htag : get? tagKey members = some (.string kind.name))
    (hdistinct : ∀ member ∈ members, member.2.DistinctKeys)
    (hparts : ∀ member ∈ members, ∀ part, Json.PartOf part member.2 → ∀ schema,
      node part = .ok schema → schema.toLiteral.normalize = (canonical part).normalize)
    (key : String) :
    (get? key (nodeMembers kind own header.info)).map Json.normalize =
      ((get? key members).bind (kept (some kind) key)).map Json.normalize := by
  by_cases hkey : isCommon key = true ∨ ∃ slot ∈ slots kind, slot.name = key
  · rcases hkey with hcommon | ⟨slot, hslot, rfl⟩
    · rcases isCommon_iff.mp hcommon with rfl | ⟨m, rfl⟩
      · rw [htag]
        rfl
      · rw [get?_nodeMembers_shared hwrites.keys, json_headerOf_info header (some kind),
          hdescribes.shared]
    · have hsaid := hdescribes.said slot
      rw [get?_nodeMembers_slot, hwrites.value slot hslot]
      cases hvalue : get? slot.name members with
      | none =>
        rw [hvalue, Option.elim_none, Body.part_empty] at hsaid
        rw [hsaid, Slot.json_unset]
        rfl
      | some value =>
        rw [hvalue, Option.elim_some] at hsaid
        have hmem := Entries.mem_of_get? hvalue
        exact json_of_slot (hparts _ hmem) (hdistinct _ hmem) hslot hsaid
  · have hnone : get? key members = none :=
      Entries.get?_eq_none_iff.mpr fun hmem => hkey (hdescribes.declared key hmem)
    rw [get?_nodeMembers_of_unknown hwrites.keys hkey, hnone]
    rfl

/-- What is read from a literal is written as its canonical form. -/
theorem toJson_of_node {j : Json} {schema : Schema} (hkeys : j.DistinctKeys)
    (htags : j.NoNumberUnder "type") (h : node j = .ok schema) :
    schema.toLiteral.normalize = (canonical j).normalize := by
  induction j using Json.strong_induction generalizing schema with
  | h j ih =>
    cases j with
    | scalar s => cases h
    | array items => cases h
    | object members =>
      obtain ⟨header, kind, b, hdescribes, hcomplete⟩ := (node_object_eq_ok_iff hkeys.nodup).mp h
      obtain ⟨own, hliteral, hwrites⟩ := exists_writes (complete_eq_ok_iff.mp hcomplete).1
      obtain ⟨tag, hget, hkind⟩ := hdescribes.tag
      have hnumber : ¬ tag.IsNumber := htags members tag (.self _) (Entries.mem_of_get? hget)
      obtain ⟨rfl, hnamed⟩ := namedKind_of_tag hget hnumber hkind
      have hown := nodup_keys_nodeMembers hwrites.keys header.info
      have hcanonical := hkeys.nodup.sublist (keys_canonicalMembers (some kind) members)
      rw [hliteral, canonical, hnamed, normalize_nodeJson, Json.normalize_object,
        Json.object.injEq]
      refine normalMembers_eq hown hcanonical fun key => ?_
      rw [get?_canonicalMembers _ hkeys.nodup]
      refine get?_nodeMembers_eq hdescribes hwrites hget
        (fun member hmem => hkeys.part (.member hmem (.self _))) ?_ key
      intro member hmem part hpart schema hnode
      have hsize := Nat.lt_of_le_of_lt hpart.sizeOf_le (Json.sizeOf_member_lt hmem)
      have hwhole : Json.PartOf part (.object members) := .member hmem hpart
      exact ih part hsize (hkeys.part hwhole) (htags.part hwhole) hnode

end Conform.Literal

namespace Conform.Schema

/-- **Reading a literal and writing it again only normalises it.** The outcome is the canonical form
of the literal, sorted by keys, and literals with different canonical forms describe different
schemas. -/
theorem toJson_eq_canonical {j : Json} {schema : Schema} (hkeys : j.DistinctKeys)
    (htags : j.NoNumberUnder "type") (h : ofJson j = .ok schema) :
    schema.toJson = (Literal.canonical j).normalize ∧
    ∀ (j' : Json) (schema' : Schema), j'.DistinctKeys → j'.NoNumberUnder "type" →
      ofJson j' = .ok schema' →
      (Literal.canonical j).normalize.equal (Literal.canonical j').normalize = false →
      schema.equal schema' = false := by
  have hsame : schema.toJson = (Literal.canonical j).normalize :=
    Literal.toJson_of_node hkeys htags h
  refine ⟨hsame, fun j' schema' hkeys' htags' h' hdiffer => ?_⟩
  have hsame' : schema'.toJson = (Literal.canonical j').normalize :=
    Literal.toJson_of_node hkeys' htags' h'
  rw [← hsame, ← hsame'] at hdiffer
  by_contra hequal
  have hwell : schema.WellFormed := (Constructed.decoded (.tree h)).wellFormed
  have halike : schema.toJson.equal schema'.toJson = true :=
    alike_toLiteral hwell (Bool.of_not_eq_false hequal)
  rw [hdiffer] at halike
  cases halike

/-- A record of numbers with a bound, and two members that say nothing. -/
def boundedLiteral (bound : Json.Scalar) : Json :=
  .object
    [("key", .null),
     ("of", .object
       [("max", .scalar bound), ("nullable", .bool false), ("type", .string "number")]),
     ("type", .string "record")]

theorem distinctKeys_boundedLiteral (bound : Json.Scalar) :
    (boundedLiteral bound).DistinctKeys := by
  simp [boundedLiteral, Json.distinctKeys_object_iff, Json.distinctKeys_scalar, Json.null,
    Json.string, Json.bool, Entries.keys]

theorem noNumberUnder_boundedLiteral (bound : Json.Scalar) :
    (boundedLiteral bound).NoNumberUnder "type" := by
  simp [boundedLiteral, Json.noNumberUnder_object_iff, Json.noNumberUnder_scalar, Json.null,
    Json.string, Json.bool, Json.isNumber_iff]

/-- The bound 1, written as an integer. -/
def unitBound : Json.Integer :=
  ⟨1, by decide, by decide⟩

/-- A bound that is written as an integer comes back as a float; a bound that is null does not come
back, and leaves another schema. -/
theorem toJson_eq_canonical_boundedLiteral :
    ∃ schema schema', ofJson (boundedLiteral (.integer unitBound)) = .ok schema ∧
      ofJson (boundedLiteral .null) = .ok schema' ∧
      schema.toJson =
        .object
          [("of", .object [("max", .scalar (.float (.ofInt 1) (Double.isFinite_ofInt unitBound))),
             ("type", .string "number")]),
           ("type", .string "record")] ∧
      schema.equal schema' = false := by
  obtain ⟨schema, h⟩ : ∃ schema, ofJson (boundedLiteral (.integer unitBound)) = .ok schema :=
    ⟨_, rfl⟩
  obtain ⟨schema', h'⟩ : ∃ schema', ofJson (boundedLiteral .null) = .ok schema' := ⟨_, rfl⟩
  obtain ⟨hwritten, hdiffer⟩ := toJson_eq_canonical (distinctKeys_boundedLiteral _)
    (noNumberUnder_boundedLiteral _) h
  have hfloat : Json.ofDouble (.ofInt 1) =
      .scalar (.float (.ofInt 1) (Double.isFinite_ofInt unitBound)) := dif_pos _
  have hcanonical : Literal.canonical (boundedLiteral (.integer unitBound)) =
      .object
        [("of", .object [("max", .ofDouble (.ofInt 1)), ("type", .string "number")]),
         ("type", .string "record")] := rfl
  rw [hcanonical, hfloat] at hwritten hdiffer
  exact ⟨schema, schema', h, h', hwritten, hdiffer _ _ (distinctKeys_boundedLiteral _)
    (noNumberUnder_boundedLiteral _) h' rfl⟩

end Conform.Schema
