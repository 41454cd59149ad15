import Conform.Proofs.Literal.Grammar

/-!
# Keys of schema nodes

A tree that was read from text may repeat a key in any of its objects. A schema node that does is
refused: each of the passes over its members keeps account of the keys that it has read.

* `nodup_keys_of_node`: a node that is read repeats no key.
* `exists_node_of_standsAsNode`: where a literal is read, all that stands in it as a node is.
-/

namespace Conform

namespace Literal

open Entries (get? keys)

variable {members : List (String × Json)} {kind : Kind} {key : String} {value : Json}

/-! ## Keys that are read once -/

theorem count_cons_le_one {k : String} {rest : List String} (hfirst : key = k → k ∉ rest)
    (hrest : rest.count k ≤ 1) : (key :: rest).count k ≤ 1 := by
  by_cases h : key = k
  · have hnone := List.count_eq_zero_of_not_mem (hfirst h)
    exact Nat.le_of_eq (by rw [h, List.count_cons_self, hnone])
  · rwa [List.count_cons_of_ne h]

namespace Header

variable {header header' : Header}

/-- A shared key is read if it has not been read before, and has been read then. -/
theorem has_of_take (h : header.take (key, value) = .ok header') (m : Shared) :
    (header'.has m = true ↔ key = m.name ∨ header.has m = true) ∧
      (key = m.name → header.has m = false) := by
  unfold take at h
  split at h
  · rename_i m' hname
    obtain rfl := Shared.ofName?_eq_some_iff.mp hname
    obtain ⟨_, hdeclare, hassign⟩ := bind_eq_ok.mp h
    obtain ⟨hjson, heq⟩ := json_of_assign hassign
    have hnew : header.has m' = false := by
      unfold declare at hdeclare
      split at hdeclare
      · cases hdeclare
      · rename_i hnew
        simpa using hnew
    by_cases hm : m' = m
    · subst hm
      have hread : header'.has m' = true := by rw [has_eq_isSome_json, hjson, Option.isSome_some]
      simp [hread, hnew]
    · have hname : m'.name ≠ m.name := fun h => hm (Shared.name_injective h)
      have hsame : header'.has m = header.has m := by
        rw [heq, has_eq_isSome_json, json_update, if_neg hm, ← has_eq_isSome_json]
      simp [hname, hsame]
  · rename_i hname
    cases h
    have hne : key ≠ m.name := by
      rintro rfl
      simp [Shared.ofName?_eq_some_iff.mpr rfl] at hname
    simp [hne]

theorem name_notMem_of_has (h : members.foldlM take header = .ok header') {m : Shared}
    (hm : header.has m = true) : m.name ∉ keys members := by
  induction members generalizing header with
  | nil => exact List.not_mem_nil
  | cons member rest ih =>
    obtain ⟨middle, htake, hrest⟩ := bind_eq_ok.mp h
    obtain ⟨hhas, hnew⟩ := has_of_take htake m
    have hne : m.name ≠ member.1 := by
      intro heq
      rw [hnew heq.symm] at hm
      cases hm
    exact List.not_mem_cons_of_ne_of_not_mem hne (ih hrest (hhas.mpr (.inr hm)))

theorem count_name_le_one (h : members.foldlM take header = .ok header') (m : Shared) :
    (keys members).count m.name ≤ 1 := by
  induction members generalizing header with
  | nil => exact Nat.zero_le 1
  | cons member rest ih =>
    obtain ⟨middle, htake, hrest⟩ := bind_eq_ok.mp h
    refine count_cons_le_one (fun heq => ?_) (ih hrest)
    exact name_notMem_of_has hrest ((has_of_take htake m).1.mpr (.inl heq))

end Header

theorem tagKey_notMem_of_findKind {found : Kind} (h : findKind members (some found) = .ok kind) :
    tagKey ∉ keys members := by
  induction members with
  | nil => exact List.not_mem_nil
  | cons member rest ih =>
    rw [findKind] at h
    split at h
    · cases h
    · rename_i hne
      exact List.not_mem_cons_of_ne_of_not_mem (Ne.symm hne) (ih h)

theorem count_tagKey_le_one {found : Option Kind} (h : findKind members found = .ok kind) :
    (keys members).count tagKey ≤ 1 := by
  induction members generalizing found with
  | nil => exact Nat.zero_le 1
  | cons member rest ih =>
    unfold findKind at h
    split at h
    · split at h
      · cases h
      · obtain ⟨found, -, hrest⟩ := bind_eq_ok.mp h
        exact count_cons_le_one (fun _ => tagKey_notMem_of_findKind hrest) (ih hrest)
    · rename_i hne
      exact count_cons_le_one (fun heq => absurd heq hne) (ih h)

section

variable {done b : Body}

theorem name_notMem_of_seen (htidy : done.Tidy) (h : body kind members done = .ok b) {slot : Slot}
    (hseen : slot ∈ done.seen) : slot.name ∉ keys members := by
  induction members generalizing done with
  | nil => exact List.not_mem_nil
  | cons member rest ih =>
    obtain ⟨key, value⟩ := member
    by_cases hcommon : isCommon key = true
    · rw [body, if_pos hcommon] at h
      have hne : slot.name ≠ key := by
        rintro rfl
        rw [isCommon_slot] at hcommon
        cases hcommon
      exact List.not_mem_cons_of_ne_of_not_mem hne (ih htidy h hseen)
    · obtain ⟨read, part, rfl, hunseen, -, h⟩ := exists_part_of_body hcommon htidy h
      have hlater : slot ∈ (done.enter read part).seen := by
        rw [Body.seen_enter]
        exact List.mem_cons_of_mem _ hseen
      have hne : slot.name ≠ read.name := fun heq => hunseen (Slot.name_injective heq ▸ hseen)
      exact List.not_mem_cons_of_ne_of_not_mem hne (ih (htidy.enter read part) h hlater)

theorem count_le_one_of_body (htidy : done.Tidy) (h : body kind members done = .ok b)
    (hkey : isCommon key ≠ true) : (keys members).count key ≤ 1 := by
  induction members generalizing done with
  | nil => exact Nat.zero_le 1
  | cons member rest ih =>
    obtain ⟨first, value⟩ := member
    by_cases hcommon : isCommon first = true
    · rw [body, if_pos hcommon] at h
      refine count_cons_le_one (fun heq => ?_) (ih htidy h)
      exact absurd (heq ▸ hcommon) hkey
    · obtain ⟨read, part, rfl, -, -, h⟩ := exists_part_of_body hcommon htidy h
      have htidy' := htidy.enter read part
      refine count_cons_le_one (fun heq => ?_) (ih htidy' h)
      rw [← heq]
      exact name_notMem_of_seen htidy' h (by rw [Body.seen_enter]; exact List.mem_cons_self)

end

/-- No key of a node is repeated, whichever of the passes reads it. -/
theorem nodup_keys_of_node {schema : Schema} (h : node (.object members) = .ok schema) :
    (keys members).Nodup := by
  rw [node] at h
  obtain ⟨header, hheader, h⟩ := bind_eq_ok.mp h
  obtain ⟨kind, hkind, h⟩ := bind_eq_ok.mp h
  obtain ⟨b, hbody, -⟩ := bind_eq_ok.mp h
  -- every key falls to one of the passes, which reads it once
  refine List.nodup_iff_count_le_one.mpr fun key => ?_
  by_cases hcommon : isCommon key = true
  · rcases isCommon_iff.mp hcommon with rfl | ⟨m, rfl⟩
    · exact count_tagKey_le_one hkind
    · exact Header.count_name_le_one hheader m
  · exact count_le_one_of_body Body.tidy_empty hbody hcommon

/-! ## Where nodes stand -/

/-- A member names the kind. -/
def HasKind (kind : Kind) (members : List (String × Json)) : Prop :=
  ∃ tag, ("type", tag) ∈ members ∧ kindOfTag tag.sight = .ok kind

/-- The value under the key of a node of the kind is a node, or holds one. -/
inductive Holds : Kind → String → Json → Json → Prop
  | element {value : Json} : Holds .array "of" value value
  | position {items : List Json} {item : Json} (hmem : item ∈ items) :
      Holds .tuple "of" (.array items) item
  | field {fields : List (String × Json)} {field : String × Json} (hmem : field ∈ fields) :
      Holds .object "of" (.object fields) field.2
  | value {value : Json} : Holds .record "of" value value
  | key {value : Json} (hset : value ≠ .null) : Holds .record "key" value value
  | alternative {items : List Json} {item : Json} (hmem : item ∈ items) :
      Holds .union "of" (.array items) item

theorem Holds.partOf {child : Json} (h : Holds kind key value child) : Json.PartOf child value := by
  cases h with
  | element | value | key => exact .self _
  | position hmem | alternative hmem => exact .item hmem (.self _)
  | field hmem => exact .member hmem (.self _)

/-- The first tree stands in the second one where a schema is read. -/
inductive StandsAsNode : Json → Json → Prop
  | self (j : Json) : StandsAsNode j j
  | inside {members : List (String × Json)} {kind : Kind} {key : String} {value child part : Json}
      (hkind : HasKind kind members) (hmem : (key, value) ∈ members)
      (hholds : Holds kind key value child) (h : StandsAsNode part child) :
      StandsAsNode part (.object members)

/-- The members stand in the tree where the fields of an object schema are read. -/
def StandAsFields (fields : List (String × Json)) (j : Json) : Prop :=
  ∃ members, StandsAsNode (.object members) j ∧ HasKind .object members ∧
    ("of", .object fields) ∈ members

/-- Whatever stands in a node that is read under a key of its kind is read. -/
theorem reads_of_mem {schema : Schema} {slot : Slot} (h : node (.object members) = .ok schema)
    (hkind : HasKind kind members) (hmem : (slot.name, value) ∈ members) :
    Reads kind slot value := by
  have hkeys := nodup_keys_of_node h
  obtain ⟨header, kind', b, hdescribes, hcomplete⟩ := (node_object_eq_ok_iff hkeys).mp h
  obtain ⟨tag, htag, hfound⟩ := hkind
  obtain ⟨tag', hget, hfound'⟩ := hdescribes.tag
  have hsame : get? tagKey members = some tag := Entries.get?_eq_some_of_mem hkeys htag
  obtain rfl : tag = tag' := Option.some.inj (hsame.symm.trans hget)
  obtain rfl : kind = kind' := Except.ok.inj (hfound.symm.trans hfound')
  have hsaid := hdescribes.said slot
  rw [Entries.get?_eq_some_of_mem hkeys hmem] at hsaid
  exact ⟨b.part slot, hsaid, exists_complete_iff.mp ⟨schema, hcomplete⟩ slot⟩

theorem exists_node_of_holds {child : Json} {schema : Schema}
    (h : node (.object members) = .ok schema) (hkind : HasKind kind members)
    (hmem : (key, value) ∈ members) (hholds : Holds kind key value child) :
    ∃ schema, node child = .ok schema := by
  have hread := fun slot => @reads_of_mem members kind value schema slot h hkind
  cases hholds with
  | element => exact (reads_node_iff (.inl rfl)).mp (hread .contents hmem)
  | value => exact (reads_node_iff (.inr rfl)).mp (hread .contents hmem)
  | position hitem =>
    obtain ⟨items, ⟨⟩, hitems⟩ := reads_tuple_iff.mp (hread .contents hmem)
    exact hitems _ hitem
  | alternative hitem =>
    obtain ⟨items, ⟨⟩, -, hitems⟩ := reads_union_iff.mp (hread .contents hmem)
    exact hitems _ hitem
  | field hfield =>
    obtain ⟨fields, ⟨⟩, hfields⟩ := reads_object_iff.mp (hread .contents hmem)
    exact hfields _ hfield
  | key hset =>
    obtain ⟨schema, hschema, -⟩ := (reads_key_iff.mp (hread .key hmem)).resolve_left hset
    exact ⟨schema, hschema⟩

/-- All that stands as a node is read, even what a later declaration of its field overrides. -/
theorem exists_node_of_standsAsNode {part j : Json} (hpart : StandsAsNode part j)
    (h : ∃ schema, node j = .ok schema) : ∃ schema, node part = .ok schema := by
  induction hpart with
  | self j => exact h
  | inside hkind hmem hholds _ ih =>
    obtain ⟨schema, h⟩ := h
    exact ih (exists_node_of_holds h hkind hmem hholds)

end Literal

end Conform
