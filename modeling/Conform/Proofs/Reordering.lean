import Conform.Proofs.Equality
import Conform.Proofs.Rejections
import Conform.Proofs.Value.Equality
import Conform.Proofs.Visit.Comparison

/-!
# The order of entries and fields

`Reordered` relates values that differ in nothing but the order of the entries of their mappings,
and schemas that differ in nothing but the order in which objects declare their fields, at any
depth. Neither order decides anything: two such schemas over two such values give the same answer,
with parsed values that differ in the order of entries only, or with the same rejections in another
order (`agree_of_reordered`).
-/

namespace Conform

open Schema

/-! ## Reordered values and schemas -/

/-- The entries of mappings, at any depth, stand in another order. -/
inductive Value.Reordered : Value → Value → Prop
  | same (v : Value) : Reordered v v
  | sequence {items items' : List Value} (hlength : items.length = items'.length)
      (h : ∀ pair ∈ items.zip items', Reordered pair.1 pair.2) :
      Reordered (.sequence items) (.sequence items')
  | mapping {entries moved entries' : List (String × Value)}
      (hkeys : Entries.keys moved = Entries.keys entries)
      (h : ∀ pair ∈ entries.zip moved, Reordered pair.1.2 pair.2.2)
      (hperm : moved.Perm entries') : Reordered (.mapping entries) (.mapping entries')

/-- The fields of objects, at any depth, are declared in another order. A key schema has no
fields. -/
inductive Schema.Reordered : Schema → Schema → Prop
  | leaf (info : Info) (l : Leaf) (brand : Option Brand) :
      Reordered (.leaf info l brand) (.leaf info l brand)
  | array {info : Info} {element element' : Schema} {length : Bounds UInt64}
      (h : Reordered element element') :
      Reordered (.array info element length) (.array info element' length)
  | tuple {info : Info} {positions positions' : List Schema}
      (hlength : positions.length = positions'.length)
      (h : ∀ pair ∈ positions.zip positions', Reordered pair.1 pair.2) :
      Reordered (.tuple info positions) (.tuple info positions')
  | object {info : Info} {fields moved fields' : List (String × Schema)}
      (hkeys : Entries.keys moved = Entries.keys fields)
      (h : ∀ pair ∈ fields.zip moved, Reordered pair.1.2 pair.2.2) (hperm : moved.Perm fields') :
      Reordered (.object info fields) (.object info fields')
  | record {info : Info} {value value' : Schema} {key : Option Schema}
      (h : Reordered value value') : Reordered (.record info value key) (.record info value' key)
  | union {info : Info} {alternatives alternatives' : List Schema}
      (hlength : alternatives.length = alternatives'.length)
      (h : ∀ pair ∈ alternatives.zip alternatives', Reordered pair.1 pair.2) :
      Reordered (.union info alternatives) (.union info alternatives')

/-- The same is rejected for the same reason, up to the order of entries and fields. -/
abbrev Rejection.Reordered : Rejection → Rejection → Prop :=
  Alike fun schema v schema' v' => schema.Reordered schema' ∧ v.Reordered v'

namespace Value

theorem reordered_sequence {items items' : List Value} (h : List.Forall₂ Reordered items items') :
    Reordered (.sequence items) (.sequence items') :=
  .sequence h.length_eq fun _ hpair => List.forall₂_zip h hpair

theorem reordered_mapping {entries entries' : List (String × Value)}
    (h : Matched .free (Entries.Paired Reordered) entries entries') :
    Reordered (.mapping entries) (.mapping entries') := by
  obtain ⟨moved, hmoved, hperm⟩ := h
  obtain ⟨hkeys, hvalues⟩ := Entries.forall₂_paired_iff.mp hmoved
  exact .mapping hkeys hvalues hperm

theorem faces_of_matched {entries entries' : List (String × Value)}
    (h : Matched .free (Entries.Paired Reordered) entries entries')
    (hv : DistinctKeys (.mapping entries)) :
    Faces .free (fun v w => v.Reordered w ∧ v.DistinctKeys) (.mapping entries)
      (.mapping entries') := by
  obtain ⟨hkeys, hvalues⟩ := distinctKeys_mapping.mp hv
  have hmatched : Matched .free (Entries.Paired fun v w => v.Reordered w ∧ v.DistinctKeys) entries
      entries' :=
    (h.and_mem hvalues).imp fun _ _ hpair => ⟨hpair.2.1, hpair.2.2, hpair.1⟩
  exact .mapping hmatched (Entries.get?_rel_of_paired hkeys hmatched)

/-- Values that differ in the order of entries face each other part by part. -/
theorem faces_of_reordered {v w : Value} (h : v.Reordered w) (hv : v.DistinctKeys) :
    v.Faces .free (fun v w => v.Reordered w ∧ v.DistinctKeys) w := by
  cases h with
  | same =>
    cases v with
    | sequence items =>
      refine .sequence (List.forall₂_same.mpr fun item hmem => ⟨.same item, ?_⟩)
      exact distinctKeys_sequence.mp hv item hmem
    | mapping entries =>
      refine faces_of_matched (.of_forall₂ (List.forall₂_same.mpr fun entry _ => ?_)) hv
      exact ⟨rfl, .same _⟩
    | _ => exact .leaf rfl rfl
  | sequence hlength h =>
    refine .sequence (List.forall₂_iff_zip.mpr ⟨hlength, fun hpair => ⟨h _ hpair, ?_⟩⟩)
    exact distinctKeys_sequence.mp hv _ (List.of_mem_zip hpair).1
  | mapping hkeys h hperm =>
    exact faces_of_matched ⟨_, Entries.forall₂_paired_iff.mpr ⟨hkeys, h⟩, hperm⟩ hv

/-! ### What the order of entries leaves as it is -/

/-- Reordering can be undone. -/
theorem Reordered.symm {v w : Value} (h : v.Reordered w) : w.Reordered v := by
  induction h with
  | same v => exact .same v
  | @sequence items items' hlength _ ih =>
    have hitems : List.Forall₂ (flip Reordered) items items' :=
      List.forall₂_iff_zip.mpr ⟨hlength, fun hpair => ih _ hpair⟩
    exact reordered_sequence hitems.flip
  | @mapping entries moved entries' hkeys _ hperm ih =>
    have hentries : Matched .free (Entries.Paired (flip Reordered)) entries entries' :=
      ⟨moved, Entries.forall₂_paired_iff.mpr ⟨hkeys, ih⟩, hperm⟩
    exact reordered_mapping (hentries.symm.imp fun _ _ => Entries.paired_of_flip)

theorem Reordered.distinctKeys_iff {v w : Value} (h : v.Reordered w) :
    v.DistinctKeys ↔ w.DistinctKeys := by
  induction h with
  | same => exact Iff.rfl
  | @sequence items items' hlength _ ih =>
    have hitems : Matched .kept (fun v w => v.DistinctKeys ↔ w.DistinctKeys) items items' :=
      List.forall₂_iff_zip.mpr ⟨hlength, fun hpair => ih _ hpair⟩
    rw [distinctKeys_sequence, distinctKeys_sequence]
    exact hitems.forall_mem_iff
  | @mapping entries moved entries' hkeys _ hperm ih =>
    have hentries : Matched .free (Entries.Paired fun v w => v.DistinctKeys ↔ w.DistinctKeys)
        entries entries' := ⟨moved, Entries.forall₂_paired_iff.mpr ⟨hkeys, ih⟩, hperm⟩
    rw [distinctKeys_mapping, distinctKeys_mapping]
    exact and_congr (Entries.perm_keys_of_paired hentries).nodup_iff
      (Matched.forall_mem_iff (hentries.imp fun _ _ h => h.2))

theorem Faces.sameShape {order : Arrangement} {r : Value → Value → Prop} {v w : Value}
    (h : v.Faces order r w) (hself : ∀ x, v = .number x → x.isNaN = false) : SameShape r v w := by
  cases h with
  | leaf hitems hentries =>
    cases v with
    | number x => exact .number (Double.equal_self.mpr (hself x rfl))
    | sequence => cases hitems
    | mapping => cases hentries
    | _ => exact .leaf rfl rfl rfl
  | sequence h => exact .sequence h
  | mapping h hget => exact .mapping (Entries.perm_keys_of_paired h) hget

/-- Values are compared without regard to the order of entries. A NaN differs from itself, so the
first value has to be equal to itself. -/
theorem Reordered.equal_of_self {v w : Value} (h : v.Reordered w) (hv : v.DistinctKeys)
    (hself : v.equal v = true) : v.equal w = true := by
  induction v using parts_induction generalizing w with
  | h v ih =>
    obtain ⟨hnumber, hparts⟩ := (SameShape.self_iff hv).mp ((equal_iff_sameShape hv).mp hself)
    have hshape := (faces_of_reordered h hv).sameShape hnumber
    exact (equal_iff_sameShape hv).mpr
      (hshape.imp fun a ha b _ hab => ih a ha hab.1 hab.2 (hparts a ha))

end Value

namespace Schema

section

variable {info : Info} {schema schema' : Schema} {schemas schemas' : List Schema}
  {fields fields' : List (String × Schema)}

theorem reordered_tuple (h : List.Forall₂ Reordered schemas schemas') :
    Reordered (.tuple info schemas) (.tuple info schemas') :=
  .tuple h.length_eq fun _ hpair => List.forall₂_zip h hpair

theorem reordered_object (h : Matched .free (Entries.Paired Reordered) fields fields') :
    Reordered (.object info fields) (.object info fields') := by
  obtain ⟨moved, hmoved, hperm⟩ := h
  obtain ⟨hkeys, hschemas⟩ := Entries.forall₂_paired_iff.mp hmoved
  exact .object hkeys hschemas hperm

theorem reordered_union (h : List.Forall₂ Reordered schemas schemas') :
    Reordered (.union info schemas) (.union info schemas') :=
  .union h.length_eq fun _ hpair => List.forall₂_zip h hpair

theorem Reordered.refl (schema : Schema) : schema.Reordered schema := by
  induction schema with
  | leaf info l brand => exact .leaf info l brand
  | array info element length ih => exact .array ih
  | tuple info positions ih => exact reordered_tuple (List.forall₂_same.mpr ih)
  | object info fields ih =>
    exact reordered_object (.of_forall₂ (List.forall₂_same.mpr fun field hmem =>
      ⟨rfl, ih field hmem⟩))
  | record info value key ih _ => exact .record ih
  | union info alternatives ih => exact reordered_union (List.forall₂_same.mpr ih)

/-! ### What the order of fields leaves as it is -/

/-- A text schema has no fields. -/
theorem Reordered.eq_of_kind_string (h : schema.Reordered schema') (hkind : schema.kind = .string) :
    schema' = schema := by
  cases h with
  | leaf => rfl
  | _ => cases hkind

/-- Order has no part in being well formed. -/
theorem Reordered.wellFormed_iff (h : schema.Reordered schema') :
    schema.WellFormed ↔ schema'.WellFormed := by
  induction h with
  | leaf => exact Iff.rfl
  | array _ ih => exact ih
  | @tuple info positions positions' hlength _ ih =>
    have hpositions : Matched .kept (fun s t => s.WellFormed ↔ t.WellFormed) positions positions' :=
      List.forall₂_iff_zip.mpr ⟨hlength, fun hpair => ih _ hpair⟩
    rw [wellFormed_tuple, wellFormed_tuple]
    exact hpositions.forall_mem_iff
  | @object info fields moved fields' hkeys _ hperm ih =>
    have hfields : Matched .free (Entries.Paired fun s t => s.WellFormed ↔ t.WellFormed) fields
        fields' := ⟨moved, Entries.forall₂_paired_iff.mpr ⟨hkeys, ih⟩, hperm⟩
    rw [wellFormed_object, wellFormed_object]
    exact and_congr (Entries.perm_keys_of_paired hfields).nodup_iff
      (Matched.forall_mem_iff (hfields.imp fun _ _ h => h.2))
  | record _ ih => rw [wellFormed_record, wellFormed_record, ih]
  | @union info alternatives alternatives' hlength _ ih =>
    have halternatives : Matched .kept (fun s t => s.WellFormed ↔ t.WellFormed) alternatives
        alternatives' := List.forall₂_iff_zip.mpr ⟨hlength, fun hpair => ih _ hpair⟩
    rw [wellFormed_union, wellFormed_union]
    exact and_congr (not_congr halternatives.eq_nil_iff) halternatives.forall_mem_iff

theorem Reordered.symm (h : schema.Reordered schema') : schema'.Reordered schema := by
  induction h with
  | leaf info l brand => exact .leaf info l brand
  | array _ ih => exact .array ih
  | @tuple info positions positions' hlength _ ih =>
    have hpositions : List.Forall₂ (flip Reordered) positions positions' :=
      List.forall₂_iff_zip.mpr ⟨hlength, fun hpair => ih _ hpair⟩
    exact reordered_tuple hpositions.flip
  | @object info fields moved fields' hkeys _ hperm ih =>
    have hfields : Matched .free (Entries.Paired (flip Reordered)) fields fields' :=
      ⟨moved, Entries.forall₂_paired_iff.mpr ⟨hkeys, ih⟩, hperm⟩
    exact reordered_object (hfields.symm.imp fun _ _ => Entries.paired_of_flip)
  | record _ ih => exact .record ih
  | @union info alternatives alternatives' hlength _ ih =>
    have halternatives : List.Forall₂ (flip Reordered) alternatives alternatives' :=
      List.forall₂_iff_zip.mpr ⟨hlength, fun hpair => ih _ hpair⟩
    exact reordered_union halternatives.flip

theorem Reordered.sameNode (h : schema.Reordered schema') (hwell : schema.WellFormed)
    (hself : ∀ x ∈ schema.ownNumbers, x.isNaN = false) : SameNode Reordered schema schema' := by
  cases h with
  | leaf => exact .leaf (Leaf.equal_self_iff.mpr hself)
  | array h => exact .array h
  | tuple hlength h => exact .tuple (List.forall₂_iff_zip.mpr ⟨hlength, fun hpair => h _ hpair⟩)
  | @object info fields moved fields' hkeys h hperm =>
    have hfields : Matched .free (Entries.Paired Reordered) fields fields' :=
      ⟨moved, Entries.forall₂_paired_iff.mpr ⟨hkeys, h⟩, hperm⟩
    exact .object (Entries.perm_keys_of_paired hfields)
      (Entries.get?_rel_of_paired (wellFormed_object.mp hwell).1 hfields)
  | @record info value value' key h =>
    refine .record h ?_
    cases key with
    | none => exact .none
    | some key => exact .some (.refl key)
  | union hlength h => exact .union (List.forall₂_iff_zip.mpr ⟨hlength, fun hpair => h _ hpair⟩)

/-- Schemas are compared without regard to the order of fields. A NaN differs from itself, so the
first schema has to be equal to itself. -/
theorem Reordered.equal_of_self (h : schema.Reordered schema') (hwell : schema.WellFormed)
    (hself : schema.equal schema = true) : schema.equal schema' = true := by
  induction schema using parts_induction generalizing schema' with
  | h schema ih =>
    obtain ⟨hnumbers, hparts⟩ :=
      (SameNode.self_iff hwell).mp ((equal_iff_sameNode hwell).mp hself)
    exact (equal_iff_sameNode hwell).mpr
      ((h.sameNode hwell hnumbers).imp fun a ha b _ hab =>
        ih a ha hab (hwell.of_mem_parts ha) (hparts a ha))

/-- Schemas that differ in the order of fields are equal. -/
theorem Reordered.equal (h : schema.Reordered schema') (hwell : schema.WellFormed)
    (hfinite : schema.FiniteNumbers) : schema'.equal schema = true := by
  have hself : schema.equal schema = true := (equal_self_iff hwell).mpr fun x hx =>
    Double.isNaN_of_isFinite (hfinite.of_mentions hx)
  exact equal_symm hwell (h.wellFormed_iff.mp hwell) (h.equal_of_self hwell hself)

end

end Schema

/-! ## Checks -/

/-- Orders do not count. -/
def reordering : Comparison where
  order := .free
  site schema v schema' v' := schema.Reordered schema' ∧ v.Reordered v'
  part v v' := v.Reordered v' ∧ v.DistinctKeys
  made := Value.Reordered
  faces h := Value.faces_of_reordered h.1 h.2
  absent := ⟨.same .absent, trivial⟩
  leaf h := h.1
  sequence := Value.reordered_sequence
  mapping := Value.reordered_mapping

/-- Reordered schemas concur on reordered values. -/
theorem concur_of_reordered {schema schema' : Schema} (h : schema.Reordered schema') :
    ∀ v v', reordering.part v v' → reordering.Concur schema v schema' v' := by
  induction h with
  | leaf info l brand =>
    intro v v' hv
    exact .leaf ((reordering.faces hv).exempts_eq info) hv ⟨.leaf info l brand, hv.1⟩
  | @array info element element' length h ih =>
    intro v v' hv
    exact .array ((reordering.faces hv).exempts_eq info) hv ⟨.array h, hv.1⟩ ih
  | @tuple info positions positions' hlength h ih =>
    intro v v' hv
    refine .tuple ((reordering.faces hv).exempts_eq info) hv ⟨.tuple hlength h, hv.1⟩ ?_
    exact List.forall₂_iff_zip.mpr ⟨hlength, fun hpair => ih _ hpair⟩
  | @object info fields moved fields' hkeys h hperm ih =>
    intro v v' hv
    refine .object ((reordering.faces hv).exempts_eq info) hv ⟨.object hkeys h hperm, hv.1⟩ ?_
    exact ⟨moved, Entries.forall₂_paired_iff.mpr ⟨hkeys, ih⟩, hperm⟩
  | @record info value value' key h ih =>
    intro v v' hv
    refine .record ((reordering.faces hv).exempts_eq info) hv ⟨.record h, hv.1⟩ ?_
      fun w w' hw _ => ih w w' hw
    cases key with
    | none => exact .none
    | some key => exact .some fun name => ⟨rfl, .refl key, .same _⟩
  | @union info alternatives alternatives' hlength h ih =>
    intro v v' hv
    refine .union ((reordering.faces hv).exempts_eq info) hv ⟨.union hlength h, hv.1⟩ ?_
    exact List.forall₂_iff_zip.mpr ⟨hlength, fun hpair => ih _ hpair v v' hv⟩

/-- **Neither the order of entries nor that of fields matters.** Checks of reordered values by
reordered schemas succeed together, with reordered parsed values, or fail together, with the same
rejections in some order. -/
theorem agree_of_reordered {schema schema' : Schema} {v v' : Value} (hv : v.DistinctKeys)
    (hschema : schema.Reordered schema') (hvalue : v.Reordered v') :
    Agree Value.Reordered (Matched .free Rejection.Reordered) (schema.validate v)
        (schema'.validate v') ∧
      Agree Value.Reordered (Matched .free Rejection.Reordered) (schema.parse v)
        (schema'.parse v') := by
  have h := concur_of_reordered hschema v v' ⟨hvalue, hv⟩
  exact ⟨h.agree_validate hvalue, h.agree_parse⟩

/-! ## Contacts with their numbers first -/

/-- Contacts that declare their numbers before their names. -/
def contactsNumbersFirst : Schema :=
  .array .plain (.object .plain [("numbers", numbers), ("name", shortText none none)]) .unset

/-- The nameless contact with its numbers in another order. -/
def namelessContactHomeFirst : Value :=
  .sequence [.mapping [("numbers", .mapping [("home", .absent), ("mobile", .string "12")])]]

theorem reordered_contacts : contacts.Reordered contactsNumbersFirst :=
  .array (.object rfl
    (Entries.forall₂_paired_iff.mp (List.forall₂_same.mpr fun _ _ => ⟨rfl, .refl _⟩)).2
    (.swap _ _ []))

theorem reordered_namelessContact : namelessContact.Reordered namelessContactHomeFirst := by
  have hnumbers : shortNumber.Reordered (.mapping [("home", .absent), ("mobile", .string "12")]) :=
    Value.reordered_mapping ⟨_, List.forall₂_same.mpr fun _ _ => ⟨rfl, .same _⟩, .swap _ _ []⟩
  exact Value.reordered_sequence
    (.cons (Value.reordered_mapping (.of_forall₂ (.cons ⟨rfl, hnumbers⟩ .nil))) .nil)

/-- The missing name is noticed after the numbers then. -/
theorem agree_of_reordered_contacts :
    namelessContact.DistinctKeys ∧ contacts.Reordered contactsNumbersFirst ∧
      namelessContact.Reordered namelessContactHomeFirst ∧
      validate contactsNumbersFirst namelessContactHomeFirst =
        .error [longLabel, fewDigits, missingName] ∧
      Agree Value.Reordered (Matched .free Rejection.Reordered)
        (contacts.validate namelessContact)
        (contactsNumbersFirst.validate namelessContactHomeFirst) :=
  ⟨distinctKeys_namelessContact, reordered_contacts, reordered_namelessContact, rfl,
    (agree_of_reordered distinctKeys_namelessContact reordered_contacts
      reordered_namelessContact).1⟩

end Conform
