import Conform.Proofs.Agreement
import Conform.Proofs.Conformance
import Conform.Proofs.Value

/-!
# Parsed values

What `parse` hands out differs from its input: records lose entries with nothing under them, and
objects list their fields in the order of declaration. It is still a value of distinct keys
(`distinctKeys_of_parse`), and it is accepted by the schema that it was parsed by
(`validate_of_parse`), although a union may take it for another alternative than before.
-/

namespace Conform.Schema

/-! ## Keys of parts -/

section

variable {α : Type} {policy : Policy α}

theorem nodup_keys_fieldParts {fields : List (String × Schema)} {entries : List (String × Value)}
    (h : (Entries.keys fields).Nodup) :
    (Entries.keys (fieldParts policy fields entries)).Nodup := by
  refine Entries.nodup_keys_filterMap ?_ h
  intro field part hpart
  obtain ⟨v, -, hpart⟩ := Option.bind_eq_some_iff.mp hpart
  obtain ⟨a, -, rfl⟩ := Option.map_eq_some_iff.mp hpart
  rfl

theorem nodup_keys_entryParts {schema : Schema} {entries : List (String × Value)}
    (h : (Entries.keys entries).Nodup) :
    (Entries.keys (entryParts policy schema entries)).Nodup := by
  refine Entries.nodup_keys_filterMap ?_ h
  intro entry part hpart
  split at hpart
  · simp at hpart
  · obtain ⟨a, -, hpart⟩ := Option.bind_eq_some_iff.mp hpart
    split at hpart
    · simp at hpart
    · cases hpart
      rfl

/-- A field of the made mapping is there if it was there, and holds what was made of it. -/
theorem get?_fieldParts {fields : List (String × Schema)} {entries : List (String × Value)}
    (h : (Entries.keys fields).Nodup) {field : String × Schema} (hfield : field ∈ fields) :
    Entries.get? field.1 (fieldParts policy fields entries) =
      (Entries.get? field.1 entries).bind (make policy field.2) := by
  obtain ⟨name, schema⟩ := field
  have hsame {schema' : Schema} (hfield' : (name, schema') ∈ fields) : schema' = schema := by
    have hget := Entries.get?_eq_some_of_mem h hfield
    rw [Entries.get?_eq_some_of_mem h hfield'] at hget
    exact Option.some.inj hget
  apply Option.ext
  intro a
  rw [Option.bind_eq_some_iff]
  constructor
  · intro ha
    obtain ⟨schema', v, hfield', hv, hmake⟩ := mem_fieldParts.mp (Entries.mem_of_get? ha)
    obtain rfl := hsame hfield'
    exact ⟨v, hv, hmake⟩
  · rintro ⟨v, hv, ha⟩
    exact Entries.get?_eq_some_of_mem (nodup_keys_fieldParts h)
      (mem_fieldParts.mpr ⟨schema, v, hfield, hv, ha⟩)

end

/-! ## Values that were put together anew -/

/-- Parsing yields `Absent` for `Absent` and for nothing else. -/
theorem isAbsent_of_make_rebuild {schema : Schema} {v p : Value}
    (h : make .rebuild schema v = some p) : p.isAbsent = v.isAbsent := by
  apply make_induction (motive := fun _ v p => p.isAbsent = v.isAbsent) (h := h)
  case union =>
    intro info before alternative after v p hbefore hp ih
    exact ih
  all_goals
    intros
    rfl

/-- Nothing that was made of a present entry is left out. -/
theorem mem_entryParts_rebuild {schema : Schema} {entries : List (String × Value)} {key : String}
    {p : Value} :
    (key, p) ∈ entryParts .rebuild schema entries ↔
      ∃ v, (key, v) ∈ entries ∧ v.isAbsent = false ∧ make .rebuild schema v = some p := by
  rw [mem_entryParts]
  constructor
  · rintro ⟨v, hentry, hpresent, hp, -⟩
    exact ⟨v, hentry, hpresent, hp⟩
  · rintro ⟨v, hentry, hpresent, hp⟩
    exact ⟨v, hentry, hpresent, hp, (isAbsent_of_make_rebuild hp).trans hpresent⟩

/-- What is parsed has no key twice in a mapping. -/
theorem distinctKeys_of_make_rebuild {schema : Schema} {v p : Value}
    (h : make .rebuild schema v = some p) :
    schema.WellFormed → v.DistinctKeys → p.DistinctKeys := by
  apply make_induction (h := h)
    (motive := fun schema v p => schema.WellFormed → v.DistinctKeys → p.DistinctKeys)
  case exempt =>
    intro schema v hx hs hv
    exact hv
  case leaf =>
    intro info l brand v hl hs hv
    exact hv
  case array =>
    intro info element length items parts hparts hlength hs hv
    rw [Value.distinctKeys_sequence] at hv
    refine Value.distinctKeys_sequence.mpr fun part hpart => ?_
    obtain ⟨item, hitem, -, ih⟩ := exists_of_mem_forall₂ hparts.flip hpart
    exact ih hs (hv item hitem)
  case tuple =>
    intro info positions items parts hlength hparts hs hv
    rw [Value.distinctKeys_sequence] at hv
    refine Value.distinctKeys_sequence.mpr fun part hpart => ?_
    obtain ⟨pair, hpair, -, ih⟩ := exists_of_mem_forall₂ hparts.flip hpart
    obtain ⟨hposition, hitem⟩ := List.of_mem_zip hpair
    exact ih (wellFormed_tuple.mp hs _ hposition) (hv _ hitem)
  case object =>
    intro info fields entries hall hdeclared hs hv
    obtain ⟨hnames, hs⟩ := wellFormed_object.mp hs
    rw [Value.distinctKeys_mapping] at hv
    refine Value.distinctKeys_mapping.mpr ⟨nodup_keys_fieldParts hnames, ?_⟩
    rintro ⟨name, part⟩ hpart
    obtain ⟨field, w, hfield, hw, hpart⟩ := mem_fieldParts.mp hpart
    have ih := hall _ hfield
    simp only [hw, Option.getD_some] at ih
    exact of_exists_make ih hpart (hs _ hfield) (hv.2 _ (Entries.mem_of_get? hw))
  case record =>
    intro info value key entries hkeys hall hs hv
    rw [Value.distinctKeys_mapping] at hv
    refine Value.distinctKeys_mapping.mpr ⟨nodup_keys_entryParts hv.1, ?_⟩
    rintro ⟨name, part⟩ hpart
    obtain ⟨w, hentry, hpresent, hpart⟩ := mem_entryParts_rebuild.mp hpart
    have ih := of_exists_make (hall _ hentry hpresent) hpart
    exact ih (wellFormed_of_record hs) (hv.2 _ hentry)
  case union =>
    intro info before alternative after v p hbefore hp ih hs hv
    exact ih (wellFormed_of_mem_union hs) hv

/-- Parsed values have distinct keys if the values they were parsed from have. -/
theorem distinctKeys_of_parse {schema : Schema} {v p : Value} (hs : schema.WellFormed)
    (hv : v.DistinctKeys) (hp : parse schema v = .ok p) : p.DistinctKeys :=
  distinctKeys_of_make_rebuild (make_rebuild_eq_some.mpr hp) hs hv

/-! ## Acceptance of what was parsed -/

/-- What is parsed conforms to the schema it was parsed by. -/
theorem conforms_of_make_rebuild {schema : Schema} {v p : Value}
    (h : make .rebuild schema v = some p) : schema.WellFormed → Conforms schema p := by
  apply make_induction (h := h) (motive := fun schema _ p => schema.WellFormed → Conforms schema p)
  case exempt =>
    intro schema v hx hs
    exact conforms_of_exempts hx
  case leaf =>
    intro info l brand v hl hs
    exact Leaf.conforms_of_reject?_eq_none hl
  case array =>
    intro info element length items parts hparts hlength hs
    rw [hparts.length_eq] at hlength
    refine .array (fun part hpart => ?_) (Bounds.allows_iff.mp hlength)
    obtain ⟨item, -, -, ih⟩ := exists_of_mem_forall₂ hparts.flip hpart
    exact ih hs
  case tuple =>
    intro info positions items parts hlength hparts hs
    have hpositions := forall₂_left_of_zip hlength hparts
    refine .tuple hpositions.length_eq.symm fun pair hpair => ?_
    obtain ⟨item, -, -, ih⟩ := List.forall₂_zip hpositions hpair
    exact ih (wellFormed_tuple.mp hs _ (List.of_mem_zip hpair).1)
  case object =>
    intro info fields entries hall hdeclared hs
    obtain ⟨hnames, hs⟩ := wellFormed_object.mp hs
    refine .object ?_ fun field hfield => ?_
    · rintro ⟨name, part⟩ hpart
      obtain ⟨schema, v, hfield, -, -⟩ := mem_fieldParts.mp hpart
      exact Entries.mem_keys_of_mem hfield
    · obtain ⟨part, hpart, ih⟩ := hall field hfield
      rw [get?_fieldParts hnames hfield]
      cases hv : Entries.get? field.1 entries with
      | none =>
        rw [hv] at hpart
        exact conforms_of_make hpart
      | some v =>
        simp only [hv, Option.getD_some] at hpart ih
        simpa [hpart] using ih (hs field hfield)
  case record =>
    intro info value key entries hkeys hall hs
    refine .record ?_ ?_
    · rintro ⟨name, part⟩ hpart
      obtain ⟨v, hentry, -, -⟩ := mem_entryParts_rebuild.mp hpart
      exact keyAccepted_iff.mp (hkeys (name, v) hentry)
    · rintro ⟨name, part⟩ hpart -
      obtain ⟨v, hentry, hpresent, hpart⟩ := mem_entryParts_rebuild.mp hpart
      exact of_exists_make (hall _ hentry hpresent) hpart (wellFormed_of_record hs)
  case union =>
    intro info before alternative after v p hbefore hp ih hs
    exact .union (by simp) (ih (wellFormed_of_mem_union hs))

/-- **A parsed value is accepted again** by the schema that it was parsed by, for validation and for
parsing. -/
theorem validate_of_parse {schema : Schema} {v p : Value} (hs : schema.WellFormed)
    (hp : parse schema v = .ok p) :
    validate schema p = .ok p ∧ ∃ q, parse schema p = .ok q := by
  have hconforms : Conforms schema p := conforms_of_make_rebuild (make_rebuild_eq_some.mpr hp) hs
  constructor
  · obtain ⟨a, ha⟩ := exists_make_of_conforms .share hconforms
    obtain rfl := eq_of_make_share ha
    exact make_share_eq_some.mp ha
  · obtain ⟨q, hq⟩ := exists_make_of_conforms .rebuild hconforms
    exact ⟨q, make_rebuild_eq_some.mp hq⟩

/-! ## A union that changes its mind -/

/-- A flag that may be left out if `optional` is set. -/
def flag (optional : Bool) : Schema :=
  .leaf ⟨optional, false, none⟩ .boolean none

/-- Either a record of flags before an object without fields, or an object with a field `x` before
a record of flags. -/
def pairOfFlags : Schema :=
  .union .plain
    [.tuple .plain [.record .plain (flag false) none, .object .plain []],
      .tuple .plain [.object .plain [("x", flag true)], .record .plain (flag false) none]]

theorem wellFormed_pairOfFlags : pairOfFlags.WellFormed := by
  simp [pairOfFlags, flag, WellFormed, WellFormedList, WellFormedFields, Entries.keys]

/-- A mapping with one key and nothing under it. -/
def unsetEntry (key : String) : Value :=
  .mapping [(key, .absent)]

/-- Only the second alternative takes the value, but the first one takes what is made of it. -/
theorem validate_of_parse_pairOfFlags :
    parse pairOfFlags (.sequence [unsetEntry "x", unsetEntry "y"]) =
        .ok (.sequence [unsetEntry "x", .mapping []]) ∧
      validate pairOfFlags (.sequence [unsetEntry "x", .mapping []]) =
        .ok (.sequence [unsetEntry "x", .mapping []]) ∧
      ∃ q, parse pairOfFlags (.sequence [unsetEntry "x", .mapping []]) = .ok q := by
  have hp : parse pairOfFlags (.sequence [unsetEntry "x", unsetEntry "y"]) =
      .ok (.sequence [unsetEntry "x", .mapping []]) := by rfl
  exact ⟨hp, validate_of_parse wellFormed_pairOfFlags hp⟩

end Conform.Schema
