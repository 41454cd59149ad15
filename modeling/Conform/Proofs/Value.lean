import Mathlib.Data.List.Forall2
import Conform.Proofs.Entries
import Conform.Value.Equality

/-!
# Items and entries of values

`Value.equal` and `Value.DistinctKeys` go through the items of a sequence and the entries of a
mapping by functions of their own; here these are read as statements about the members. `PartOf`
relates a value to all that stands in it, at any depth, and `Value.induction` has one case for a
leaf and one for each container, with a hypothesis about every member.
-/

namespace Conform

theorem Entries.nodup_keys_filterMap {α β : Type} {f : String × α → Option (String × β)}
    (hf : ∀ entry part, f entry = some part → part.1 = entry.1) {entries : List (String × α)}
    (h : (keys entries).Nodup) : (keys (entries.filterMap f)).Nodup := by
  induction entries with
  | nil => simp [keys]
  | cons entry rest ih =>
    obtain ⟨hentry, hrest⟩ := List.nodup_cons.mp h
    rw [List.filterMap_cons]
    split
    · exact ih hrest
    · rename_i part hpart
      refine List.nodup_cons.mpr ⟨?_, ih hrest⟩
      intro hmem
      obtain ⟨part', hpart', heq⟩ := List.mem_map.mp hmem
      obtain ⟨entry', hentry', hf'⟩ := List.mem_filterMap.mp hpart'
      refine hentry (List.mem_map.mpr ⟨entry', hentry', ?_⟩)
      calc entry'.1 = part'.1 := (hf _ _ hf').symm
        _ = part.1 := heq
        _ = entry.1 := hf _ _ hpart

namespace Value

theorem distinctKeysItems_iff {items : List Value} :
    DistinctKeysItems items ↔ ∀ item ∈ items, DistinctKeys item := by
  induction items with
  | nil => simp [DistinctKeysItems]
  | cons item rest ih => simp [DistinctKeysItems, ih]

theorem distinctKeysEntries_iff {entries : List (String × Value)} :
    DistinctKeysEntries entries ↔ ∀ entry ∈ entries, DistinctKeys entry.2 := by
  induction entries with
  | nil => simp [DistinctKeysEntries]
  | cons entry rest ih => simp [DistinctKeysEntries, ih]

theorem distinctKeys_sequence {items : List Value} :
    DistinctKeys (.sequence items) ↔ ∀ item ∈ items, DistinctKeys item :=
  distinctKeysItems_iff

theorem distinctKeys_mapping {entries : List (String × Value)} :
    DistinctKeys (.mapping entries) ↔
      (Entries.keys entries).Nodup ∧ ∀ entry ∈ entries, DistinctKeys entry.2 :=
  and_congr_right fun _ => distinctKeysEntries_iff

theorem equalItems_iff {items others : List Value} :
    equalItems items others = true ↔ List.Forall₂ (fun v w => equal v w = true) items others := by
  induction items generalizing others with
  | nil => cases others <;> simp [equalItems]
  | cons item rest ih => cases others <;> simp [equalItems, ih]

theorem equalEntries_iff {entries others : List (String × Value)} :
    equalEntries entries others = true ↔
      ∀ entry ∈ entries, ∃ other, Entries.get? entry.1 others = some other ∧
        equal entry.2 other = true := by
  induction entries with
  | nil => simp [equalEntries]
  | cons entry rest ih =>
    simp only [equalEntries, Bool.and_eq_true, ih, List.forall_mem_cons]
    cases Entries.get? entry.1 others <;> simp

/-- Mappings are equal when they have as many entries and agree under every key. -/
theorem equal_mapping_iff {entries others : List (String × Value)} :
    equal (.mapping entries) (.mapping others) = true ↔
      entries.length = others.length ∧
      ∀ entry ∈ entries, ∃ other, Entries.get? entry.1 others = some other ∧
        equal entry.2 other = true := by
  simp [equal, equalEntries_iff]

/-- The first value is the second one or stands in it at some depth. -/
inductive PartOf : Value → Value → Prop
  | self (v : Value) : PartOf v v
  | item {part item : Value} {items : List Value} (hmem : item ∈ items) (h : PartOf part item) :
      PartOf part (.sequence items)
  | entry {part : Value} {entries : List (String × Value)} {entry : String × Value}
      (hmem : entry ∈ entries) (h : PartOf part entry.2) : PartOf part (.mapping entries)

theorem PartOf.trans {part inner v : Value} (h : PartOf part inner) (hinner : PartOf inner v) :
    PartOf part v := by
  induction hinner with
  | self => exact h
  | item hmem _ ih => exact .item hmem ih
  | entry hmem _ ih => exact .entry hmem ih

theorem partOf_absent_iff {part : Value} : PartOf part .absent ↔ part = .absent := by
  constructor
  · intro h
    cases h
    rfl
  · rintro rfl
    exact .self _

theorem partOf_sequence_iff {part : Value} {items : List Value} :
    PartOf part (.sequence items) ↔ part = .sequence items ∨ ∃ item ∈ items, PartOf part item := by
  constructor
  · intro h
    cases h with
    | self => exact .inl rfl
    | item hmem h => exact .inr ⟨_, hmem, h⟩
  · rintro (rfl | ⟨item, hmem, h⟩)
    · exact .self _
    · exact .item hmem h

theorem partOf_mapping_iff {part : Value} {entries : List (String × Value)} :
    PartOf part (.mapping entries) ↔
      part = .mapping entries ∨ ∃ entry ∈ entries, PartOf part entry.2 := by
  constructor
  · intro h
    cases h with
    | self => exact .inl rfl
    | entry hmem h => exact .inr ⟨_, hmem, h⟩
  · rintro (rfl | ⟨entry, hmem, h⟩)
    · exact .self _
    · exact .entry hmem h

/-- Induction on values, over the values that stand right inside. -/
@[elab_as_elim]
theorem induction {motive : Value → Prop}
    (leaf : ∀ v, v.items? = none → v.entries? = none → motive v)
    (sequence : ∀ items, (∀ item ∈ items, motive item) → motive (.sequence items))
    (mapping : ∀ entries, (∀ entry ∈ entries, motive entry.2) → motive (.mapping entries)) :
    ∀ v, motive v
  | .absent | .null | .bool _ | .number _ | .bigInt _ | .string _ => leaf _ rfl rfl
  | .sequence items =>
    sequence items fun item _ => induction leaf sequence mapping item
  | .mapping entries =>
    mapping entries fun entry _ => induction leaf sequence mapping entry.2
termination_by v => sizeOf v
decreasing_by
  all_goals simp_wf
  · have := List.sizeOf_lt_of_mem ‹item ∈ items›
    omega
  · have := List.sizeOf_lt_of_mem ‹entry ∈ entries›
    obtain ⟨key, v⟩ := entry
    simp at this ⊢
    omega

end Value

end Conform
