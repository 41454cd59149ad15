import Conform.Proofs.Json
import Conform.Proofs.Reparse
import Conform.Value.Export

/-!
# Exported values

The JSON tree of a mapping holds what stands under its keys, sorted by key and without the entries
that have nothing under them. What is read back from it (`mem_readBack`, `get?_readBack`) therefore
lacks these entries only, and a missing entry is checked like one with nothing under it. So a value
that JSON can express (`Value.Expressible`) is still accepted after the way through JSON:
`guard_ofJson_toJson`.
-/

namespace Conform

namespace Value

variable {items : List Value} {entries : List (String × Value)} {key : String}

/-! ## Trees of items and entries -/

theorem itemsToJson_eq_map (items : List Value) : itemsToJson items = items.map toJson := by
  induction items with
  | nil => rfl
  | cons item rest ih => rw [itemsToJson, ih, List.map_cons]

/-- The members of an exported mapping are its entries, less those that are `Absent`. -/
theorem entriesToJson_eq_filterMap (entries : List (String × Value)) :
    entriesToJson entries = entries.filterMap fun entry =>
      if entry.2.isAbsent then none else some (entry.1, entry.2.toJson) := by
  induction entries with
  | nil => rfl
  | cons entry rest ih =>
    rw [entriesToJson, ih, List.filterMap_cons]
    split <;> simp [*]

theorem entriesToJson_eq_map (h : ∀ entry ∈ entries, entry.2 ≠ .absent) :
    entriesToJson entries = entries.map fun entry => (entry.1, entry.2.toJson) := by
  rw [entriesToJson_eq_filterMap, ← List.filterMap_eq_map]
  refine List.filterMap_congr fun entry hentry => ?_
  rw [isAbsent_eq_false.mpr (h entry hentry)]
  rfl

theorem mem_entriesToJson {j : Json} :
    (key, j) ∈ entriesToJson entries ↔
      ∃ v, (key, v) ∈ entries ∧ v.isAbsent = false ∧ v.toJson = j := by
  simp only [entriesToJson_eq_filterMap, List.mem_filterMap, Prod.exists]
  constructor
  · rintro ⟨k, v, hentry, h⟩
    split at h
    · simp at h
    · rename_i hpresent
      cases h
      exact ⟨v, hentry, Bool.eq_false_iff.mpr hpresent, rfl⟩
  · rintro ⟨v, hentry, hpresent, rfl⟩
    exact ⟨key, v, hentry, by simp [hpresent]⟩

theorem nodup_keys_entriesToJson (h : (Entries.keys entries).Nodup) :
    (Entries.keys (entriesToJson entries)).Nodup := by
  rw [entriesToJson_eq_filterMap]
  refine Entries.nodup_keys_filterMap ?_ h
  intro entry part hpart
  split at hpart
  · simp at hpart
  · cases hpart
    rfl

/-- Looking a key up in an exported mapping is looking it up in the mapping and exporting. -/
theorem get?_entriesToJson (hkeys : (Entries.keys entries).Nodup) (key : String) :
    Entries.get? key (entriesToJson entries) =
      (Entries.get? key entries).bind fun v => if v.isAbsent then none else some v.toJson := by
  apply Option.ext
  intro j
  rw [← Entries.mem_iff_get? (nodup_keys_entriesToJson hkeys), mem_entriesToJson,
    Option.bind_eq_some_iff]
  refine exists_congr fun v => ?_
  rw [Entries.mem_iff_get? hkeys]
  cases hv : v.isAbsent <;> simp

theorem itemsOfJson_eq_map (items : List Json) : itemsOfJson items = items.map ofJson := by
  induction items with
  | nil => rfl
  | cons item rest ih => rw [itemsOfJson, ih, List.map_cons]

theorem entriesOfJson_eq_map (members : List (String × Json)) :
    entriesOfJson members = members.map fun member => (member.1, ofJson member.2) := by
  induction members with
  | nil => rfl
  | cons member rest ih => rw [entriesOfJson, ih, List.map_cons]

/-- An imported tree has no key twice in an object if the tree had none. -/
theorem distinctKeys_ofJson {j : Json} : j.DistinctKeys → (ofJson j).DistinctKeys := by
  induction j using Json.strong_induction with
  | h j ih =>
    cases j with
    | scalar s => cases s <;> exact fun _ => trivial
    | array items =>
      intro h
      rw [ofJson, itemsOfJson_eq_map, distinctKeys_sequence]
      intro v hv
      obtain ⟨item, hmem, rfl⟩ := List.mem_map.mp hv
      exact ih item (Json.sizeOf_item_lt hmem) (Json.distinctKeys_array_iff.mp h item hmem)
    | object members =>
      intro h
      obtain ⟨hkeys, hmembers⟩ := Json.distinctKeys_object_iff.mp h
      rw [ofJson, entriesOfJson_eq_map, distinctKeys_mapping, Entries.keys_map]
      refine ⟨hkeys, fun entry hentry => ?_⟩
      obtain ⟨member, hmem, rfl⟩ := List.mem_map.mp hentry
      exact ih member.2 (Json.sizeOf_member_lt hmem) (hmembers member hmem)

/-! ## Reading the tree of a mapping back -/

/-- What is read back from the tree of a mapping. -/
def readBack (entries : List (String × Value)) : List (String × Value) :=
  entriesOfJson (Entries.sorted (entriesToJson entries))

theorem ofJson_toJson_sequence (items : List Value) :
    ofJson (toJson (.sequence items)) = .sequence (items.map fun item => ofJson item.toJson) := by
  simp [toJson, ofJson, itemsToJson_eq_map, itemsOfJson_eq_map, Function.comp_def]

/-- A mapping comes back with its present entries, each as its value comes back. -/
theorem ofJson_toJson_mapping (entries : List (String × Value)) :
    ofJson (toJson (.mapping entries)) = .mapping (readBack entries) := by
  rw [toJson, ofJson, readBack]

theorem mem_readBack (hkeys : (Entries.keys entries).Nodup) {w : Value} :
    (key, w) ∈ readBack entries ↔
      ∃ v, (key, v) ∈ entries ∧ v.isAbsent = false ∧ ofJson v.toJson = w := by
  simp only [readBack, entriesOfJson_eq_map, List.mem_map, Prod.exists, Prod.mk.injEq,
    (Entries.perm_sorted (nodup_keys_entriesToJson hkeys)).mem_iff, mem_entriesToJson]
  constructor
  · rintro ⟨_, _, ⟨v, hentry, hpresent, rfl⟩, rfl, rfl⟩
    exact ⟨v, hentry, hpresent, rfl⟩
  · rintro ⟨v, hentry, hpresent, rfl⟩
    exact ⟨key, v.toJson, ⟨v, hentry, hpresent, rfl⟩, rfl, rfl⟩

/-- A missing entry stays missing, and one with nothing under it gets lost. -/
theorem get?_readBack (hkeys : (Entries.keys entries).Nodup) (key : String) :
    Entries.get? key (readBack entries) =
      (Entries.get? key entries).bind fun v =>
        if v.isAbsent then none else some (ofJson v.toJson) := by
  rw [readBack, entriesOfJson_eq_map, Entries.get?_map,
    Entries.get?_sorted (nodup_keys_entriesToJson hkeys), get?_entriesToJson hkeys,
    Option.map_bind]
  refine Option.bind_congr fun v _ => ?_
  cases hv : v.isAbsent <;> simp [hv]

/-! ## Values that JSON can express -/

/-- No big integer and no number that is not finite stands in the value, and neither the value nor
an item of a sequence in it is absent. Entries may have nothing under them. -/
structure Expressible (v : Value) : Prop where
  noBigInt : ∀ n, ¬ PartOf (.bigInt n) v
  finite : ∀ x, PartOf (.number x) v → x.isFinite = true
  present : v ≠ .absent
  itemsPresent : ∀ items, PartOf (.sequence items) v → .absent ∉ items

namespace Expressible

theorem item {item : Value} (h : Expressible (.sequence items)) (hmem : item ∈ items) :
    Expressible item where
  noBigInt n hpart := h.noBigInt n (.item hmem hpart)
  finite x hpart := h.finite x (.item hmem hpart)
  present := by
    rintro rfl
    exact h.itemsPresent items (.self _) hmem
  itemsPresent others hpart := h.itemsPresent others (.item hmem hpart)

theorem entry {entry : String × Value} (h : Expressible (.mapping entries)) (hmem : entry ∈ entries)
    (hpresent : entry.2 ≠ .absent) : Expressible entry.2 where
  noBigInt n hpart := h.noBigInt n (.entry hmem hpart)
  finite x hpart := h.finite x (.entry hmem hpart)
  present := hpresent
  itemsPresent items hpart := h.itemsPresent items (.entry hmem hpart)

theorem ofJson_toJson_number {x : Double} (h : Expressible (.number x)) :
    ofJson (toJson (.number x)) = .number x := by
  have hfinite := h.finite x (.self _)
  simp [toJson, Json.ofDouble, hfinite, ofJson, ofScalar]

end Expressible

end Value

/-! ## Accepted again -/

/-- Export and import keep conformance for values that JSON can express. -/
theorem conforms_ofJson_toJson {schema : Schema} {v : Value} (h : Conforms schema v) :
    v.DistinctKeys → v.Expressible → Conforms schema (.ofJson v.toJson) := by
  induction h with
  | absent _ => exact fun _ hv => absurd rfl hv.present
  | null h => exact fun _ _ => .null h
  | string h => exact fun _ _ => .string h
  | number hfinite h =>
    intro _ hv
    rw [hv.ofJson_toJson_number]
    exact .number hfinite h
  | bigint => exact fun _ hv => absurd (.self _) (hv.noBigInt _)
  | boolean => exact fun _ _ => .boolean
  | literalString => exact fun _ _ => .literalString
  | literalNumber h =>
    intro _ hv
    rw [hv.ofJson_toJson_number]
    exact .literalNumber h
  | @array info element length items _ hlength ih =>
    intro hdistinct hv
    rw [Value.distinctKeys_sequence] at hdistinct
    rw [Value.ofJson_toJson_sequence]
    refine .array (fun part hpart => ?_) (by simpa using hlength)
    obtain ⟨item, hitem, rfl⟩ := List.mem_map.mp hpart
    exact ih item hitem (hdistinct item hitem) (hv.item hitem)
  | @tuple info positions items hlength _ ih =>
    intro hdistinct hv
    rw [Value.distinctKeys_sequence] at hdistinct
    rw [Value.ofJson_toJson_sequence]
    refine .tuple (by simpa using hlength) fun pair hpair => ?_
    rw [List.zip_map_right] at hpair
    obtain ⟨⟨position, item⟩, hmem, rfl⟩ := List.mem_map.mp hpair
    have hitem := (List.of_mem_zip hmem).2
    exact ih _ hmem (hdistinct item hitem) (hv.item hitem)
  | @object info fields entries hdeclared hfields ih =>
    intro hdistinct hv
    obtain ⟨hkeys, hdistinct⟩ := Value.distinctKeys_mapping.mp hdistinct
    rw [Value.ofJson_toJson_mapping]
    refine .object ?_ fun field hfield => ?_
    · rintro ⟨name, w⟩ hentry
      obtain ⟨v, hmem, -, -⟩ := (Value.mem_readBack hkeys).mp hentry
      exact hdeclared (name, v) hmem
    · -- A field with nothing under it was accepted as absent, and it still is when it is missing.
      have hfield' := hfields field hfield
      have ih := ih field hfield
      rw [Value.get?_readBack hkeys]
      cases hget : Entries.get? field.1 entries with
      | none => simpa [hget] using hfield'
      | some v =>
        simp only [hget, Option.getD_some] at hfield' ih
        have hmem := Entries.mem_of_get? hget
        cases hpresent : v.isAbsent with
        | true =>
          obtain rfl := Value.isAbsent_eq_true.mp hpresent
          simpa [hpresent] using hfield'
        | false =>
          have hne := Value.isAbsent_eq_false.mp hpresent
          simpa [hpresent] using ih (hdistinct _ hmem) (hv.entry hmem hne)
  | @record info value key entries hkeysConform _ ih =>
    intro hdistinct hv
    obtain ⟨hkeys, hdistinct⟩ := Value.distinctKeys_mapping.mp hdistinct
    rw [Value.ofJson_toJson_mapping]
    refine .record ?_ ?_
    · rintro ⟨name, w⟩ hentry
      obtain ⟨v, hmem, -, -⟩ := (Value.mem_readBack hkeys).mp hentry
      exact hkeysConform (name, v) hmem
    · rintro ⟨name, w⟩ hentry -
      obtain ⟨v, hmem, hpresent, rfl⟩ := (Value.mem_readBack hkeys).mp hentry
      have hne := Value.isAbsent_eq_false.mp hpresent
      exact ih (name, v) hmem hne (hdistinct _ hmem) (hv.entry hmem hne)
  | union hmem _ ih => exact fun hdistinct hv => .union hmem (ih hdistinct hv)

namespace Schema

theorem guard_iff_conforms {schema : Schema} {v : Value} :
    guard schema v = true ↔ Conforms schema v := by
  simp only [guard_eq_true, ← make_share_eq_some, exists_make_iff_conforms]

/-- **The way through JSON keeps a value acceptable**, although entries with nothing under them get
lost on it and all others are sorted. -/
theorem guard_ofJson_toJson {schema : Schema} {v : Value} (hkeys : v.DistinctKeys)
    (hv : v.Expressible) (h : guard schema v = true) : guard schema (.ofJson v.toJson) = true :=
  guard_iff_conforms.mpr (conforms_ofJson_toJson (guard_iff_conforms.mp h) hkeys hv)

theorem partOf_unsetPair_iff {part : Value} :
    Value.PartOf part (.sequence [unsetEntry "x", unsetEntry "y"]) ↔
      part = .sequence [unsetEntry "x", unsetEntry "y"] ∨ part = unsetEntry "x" ∨
        part = unsetEntry "y" ∨ part = .absent := by
  simp [Value.partOf_sequence_iff, Value.partOf_mapping_iff, Value.partOf_absent_iff, unsetEntry]
  tauto

theorem expressible_unsetPair :
    (Value.sequence [unsetEntry "x", unsetEntry "y"]).Expressible where
  noBigInt n := by
    rw [partOf_unsetPair_iff]
    simp [unsetEntry]
  finite x := by
    rw [partOf_unsetPair_iff]
    simp [unsetEntry]
  present := by simp
  itemsPresent items := by
    rw [partOf_unsetPair_iff]
    simp only [unsetEntry, reduceCtorEq, or_false, Value.sequence.injEq]
    rintro rfl
    simp

/-- Both mappings are read back empty, and the union accepts them by its first alternative. -/
theorem guard_ofJson_toJson_unsetPair :
    (Value.sequence [unsetEntry "x", unsetEntry "y"]).DistinctKeys ∧
      (Value.sequence [unsetEntry "x", unsetEntry "y"]).Expressible ∧
      guard pairOfFlags (.sequence [unsetEntry "x", unsetEntry "y"]) = true ∧
      guard pairOfFlags (.ofJson (Value.sequence [unsetEntry "x", unsetEntry "y"]).toJson) =
        true := by
  have hguard : guard pairOfFlags (.sequence [unsetEntry "x", unsetEntry "y"]) = true := by rfl
  exact ⟨distinctKeys_unsetPair, expressible_unsetPair, hguard,
    guard_ofJson_toJson distinctKeys_unsetPair expressible_unsetPair hguard⟩

end Schema

end Conform
