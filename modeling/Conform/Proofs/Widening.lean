import Conform.Proofs.Edits
import Conform.Proofs.Rejections

/-!
# Widening a schema

`Widening` lists the edits of a node by which it should not accept less: flags are turned on, labels
changed, bounds dropped or moved outwards, alternatives and optional fields added, key schemas
dropped. A node has no way to turn the acceptance of a part into a rejection, so such edits at any
depth keep everything accepted that was (`validate_of_widenings`). One more field could only harm
values with something else under its name, and these were rejected for it as undeclared.
-/

namespace Conform

open Schema

/-! ## Wider nodes -/

/-- The node with something else beside its kind. -/
def Schema.withInfo (schema : Schema) (info : Info) : Schema :=
  match schema with
  | leaf _ l brand => leaf info l brand
  | array _ element length => array info element length
  | tuple _ positions => tuple info positions
  | object _ fields => object info fields
  | record _ value key => record info value key
  | union _ alternatives => union info alternatives

/-- A bound that is still set was set before, to the same or to something tighter. -/
def Bounds.Looser (bounds wider : Bounds UInt64) : Prop :=
  (∀ least', wider.min = some least' → ∃ least, bounds.min = some least ∧ least' ≤ least) ∧
    ∀ most', wider.max = some most' → ∃ most, bounds.max = some most ∧ most ≤ most'

/-- One node is made to accept more. The length of keys is loosened at the key schema. -/
inductive Schema.Widening : Schema → Schema → Prop
  | info {schema : Schema} {info : Info}
      (hoptional : schema.info.optional = true → info.optional = true)
      (hnullable : schema.info.nullable = true → info.nullable = true) :
      Widening schema (schema.withInfo info)
  | brand {info : Info} {l : Leaf} {brand brand' : Option Brand} :
      Widening (.leaf info l brand) (.leaf info l brand')
  | least {info : Info} {range : Bounds Double} {brand : Option Brand} :
      Widening (.leaf info (.number range) brand) (.leaf info (.number ⟨none, range.max⟩) brand)
  | most {info : Info} {range : Bounds Double} {brand : Option Brand} :
      Widening (.leaf info (.number range) brand) (.leaf info (.number ⟨range.min, none⟩) brand)
  | text {info : Info} {length wider : Bounds UInt64} {brand : Option Brand}
      (h : length.Looser wider) :
      Widening (.leaf info (.string length) brand) (.leaf info (.string wider) brand)
  | array {info : Info} {element : Schema} {length wider : Bounds UInt64}
      (h : length.Looser wider) : Widening (.array info element length) (.array info element wider)
  | alternative {info : Info} {before after : List Schema} (alternative : Schema) :
      Widening (.union info (before ++ after)) (.union info (before ++ alternative :: after))
  | field {info : Info} {before after : List (String × Schema)} {name : String} {field : Schema}
      (hname : name ∉ Entries.keys (before ++ after)) (hoptional : field.info.optional = true) :
      Widening (.object info (before ++ after)) (.object info (before ++ (name, field) :: after))
  | key {info : Info} {value : Schema} {key : Option Schema} :
      Widening (.record info value key) (.record info value none)

/-! ## What a wider node accepts -/

theorem Bounds.Looser.within {bounds wider : Bounds UInt64} (h : bounds.Looser wider) {n : Nat}
    (hn : bounds.Within n) : wider.Within n := by
  constructor
  · intro least' hleast'
    obtain ⟨least, hleast, hle⟩ := h.1 least' hleast'
    exact Nat.le_trans (UInt64.le_iff_toNat_le.mp hle) (hn.1 least hleast)
  · intro most' hmost'
    obtain ⟨most, hmost, hle⟩ := h.2 most' hmost'
    exact Nat.le_trans (hn.2 most hmost) (UInt64.le_iff_toNat_le.mp hle)

namespace Schema

theorem info_withInfo (schema : Schema) (info : Info) : (schema.withInfo info).info = info := by
  cases schema <;> rfl

theorem verifyKey_withInfo (schema : Schema) (info : Info) (name : String) :
    (schema.withInfo info).verifyKey name = schema.verifyKey name := by
  cases schema with
  | leaf _ l _ => cases l <;> rfl
  | _ => rfl

theorem conforms_withInfo {schema : Schema} {info : Info} {v : Value}
    (hoptional : schema.info.optional = true → info.optional = true)
    (hnullable : schema.info.nullable = true → info.nullable = true) (h : Conforms schema v) :
    Conforms (schema.withInfo info) v := by
  cases h with
  | absent h => exact .absent (by rw [info_withInfo, hoptional h])
  | null h => exact .null (by rw [info_withInfo, hnullable h])
  | string h => exact .string h
  | number hfinite h => exact .number hfinite h
  | bigint => exact .bigint
  | boolean => exact .boolean
  | literalString => exact .literalString
  | literalNumber h => exact .literalNumber h
  | array hitems h => exact .array hitems h
  | tuple h hitems => exact .tuple h hitems
  | object hdeclared hfields => exact .object hdeclared hfields
  | record hkeys hvalues => exact .record hkeys hvalues
  | union hmem h => exact .union hmem h

/-- A value without a key that was not declared has nothing under a new name, and that is enough for
an optional field. -/
theorem conforms_object_insert {info : Info} {before after : List (String × Schema)}
    {name : String} {field : Schema} {entries : List (String × Value)}
    (hname : name ∉ Entries.keys (before ++ after)) (hoptional : field.info.optional = true)
    (hdeclared : ∀ entry ∈ entries, entry.1 ∈ Entries.keys (before ++ after))
    (hfields : ∀ field ∈ before ++ after,
      Conforms field.2 ((Entries.get? field.1 entries).getD .absent)) :
    Conforms (.object info (before ++ (name, field) :: after)) (.mapping entries) := by
  have hmissing : Entries.get? name entries = none := by
    refine Entries.get?_eq_none_iff.mpr fun hmem => hname ?_
    obtain ⟨entry, hentry, rfl⟩ := List.mem_map.mp hmem
    exact hdeclared entry hentry
  refine .object (fun entry hentry => ?_) fun other hother => ?_
  · obtain ⟨other, hother, hkey⟩ := List.mem_map.mp (hdeclared entry hentry)
    exact List.mem_map.mpr ⟨other, mem_middle.mpr (.inr hother), hkey⟩
  · rcases mem_middle.mp hother with rfl | hother
    · rw [hmissing]
      exact .absent hoptional
    · exact hfields other hother

/-- What conforms to a schema conforms to a wider one. -/
theorem Widening.conforms {schema wider : Schema} (h : Widening schema wider) (v : Value)
    (hv : Conforms schema v) : Conforms wider v := by
  cases h with
  | info hoptional hnullable => exact conforms_withInfo hoptional hnullable hv
  | brand =>
    obtain ⟨a, ha⟩ := exists_make_of_conforms .share hv
    exact conforms_of_make (make_leaf.mpr (make_leaf.mp ha))
  | least =>
    cases hv with
    | absent h => exact .absent h
    | null h => exact .null h
    | number hfinite h => exact .number hfinite ⟨by simp, h.2⟩
  | most =>
    cases hv with
    | absent h => exact .absent h
    | null h => exact .null h
    | number hfinite h => exact .number hfinite ⟨h.1, by simp⟩
  | text hlooser =>
    cases hv with
    | absent h => exact .absent h
    | null h => exact .null h
    | string h => exact .string (hlooser.within h)
  | array hlooser =>
    cases hv with
    | absent h => exact .absent h
    | null h => exact .null h
    | array hitems h => exact .array hitems (hlooser.within h)
  | alternative alternative =>
    cases hv with
    | absent h => exact .absent h
    | null h => exact .null h
    | union hmem h => exact .union (mem_middle.mpr (.inr hmem)) h
  | field hname hoptional =>
    cases hv with
    | absent h => exact .absent h
    | null h => exact .null h
    | object hdeclared hfields =>
      exact conforms_object_insert hname hoptional hdeclared hfields
  | key =>
    cases hv with
    | absent h => exact .absent h
    | null h => exact .null h
    | record _ hvalues => exact .record (fun _ _ _ hkey => nomatch hkey) hvalues

theorem Widening.verifyKey {schema wider : Schema} (h : Widening schema wider) (name : String)
    (hname : schema.verifyKey name = none) : wider.verifyKey name = none := by
  cases h with
  | info => exact (verifyKey_withInfo _ _ name).trans hname
  | @brand _ l => cases l <;> exact hname
  | text h => exact Bounds.checkText_eq_none.mpr (h.within (Bounds.checkText_eq_none.mp hname))
  | _ => exact hname

/-- **A widened schema accepts whatever it accepted before**, however often and however deep inside
it was widened. -/
theorem validate_of_widenings {schema wider : Schema}
    (h : Relation.ReflTransGen (OneEdit Widening) schema wider) {v a : Value}
    (hv : validate schema v = .ok a) : validate wider v = .ok a := by
  have hmake := make_share_eq_some.mpr hv
  have hconforms : Conforms wider v :=
    conforms_of_edits (fun _ _ h => h.conforms) (fun _ _ h => h.verifyKey) h
      (conforms_of_make hmake)
  obtain ⟨b, hb⟩ := exists_make_of_conforms .share hconforms
  obtain rfl := eq_of_make_share hmake
  obtain rfl := eq_of_make_share hb
  exact make_share_eq_some.mp hb

/-! ## Contacts with more room -/

/-- Contacts with these numbers, and possibly with more fields. -/
def contactsWith (numbers : Schema) (more : List (String × Schema)) : Schema :=
  .array .plain (.object .plain (("name", shortText none none) :: ("numbers", numbers) :: more))
    .unset

/-- A text that may be missing. -/
def note : Schema :=
  .leaf ⟨true, false, none⟩ (.string .unset) none

/-- Two digits are enough, labels may be long, and there may be a note. -/
def roomyContacts : Schema :=
  contactsWith (.record .plain (shortText (some 2) none) none) [("note", note)]

/-- A contact with a name and one number. -/
def namedContact : Value :=
  .sequence [.mapping [("name", .string "Ada"), ("numbers", .mapping [("home", .string "123")])]]

theorem OneEdit.contacts {edit : Schema → Schema → Prop} {numbers numbers' : Schema}
    (h : OneEdit edit numbers numbers') :
    OneEdit edit (contactsWith numbers []) (contactsWith numbers' []) :=
  .element (@OneEdit.field _ _ [("name", shortText none none)] [] "numbers" _ _ h)

theorem widenings_contacts : Relation.ReflTransGen (OneEdit Widening) contacts roomyContacts := by
  have hdigits : Bounds.Looser ⟨some 3, none⟩ ⟨some 2, none⟩ := by
    refine ⟨fun least' hleast' => ⟨3, rfl, ?_⟩, fun _ hmost => nomatch hmost⟩
    obtain rfl := Option.some.inj hleast'
    decide
  have hfirst : OneEdit Widening contacts (contactsWith
      (.record .plain (shortText (some 2) none) (some (shortText none (some 4)))) []) :=
    .contacts (.value (.here (.text hdigits)))
  have hlast : OneEdit Widening
      (contactsWith (.record .plain (shortText (some 2) none) none) []) roomyContacts :=
    .element (.here (@Widening.field _ [("name", _), ("numbers", _)] [] "note" note
      (by simp [Entries.keys]) rfl))
  exact ((Relation.ReflTransGen.single hfirst).tail (.contacts (.here .key))).tail hlast

theorem validate_of_widenings_contacts :
    Relation.ReflTransGen (OneEdit Widening) contacts roomyContacts ∧
      validate contacts namedContact = .ok namedContact ∧
      validate roomyContacts namedContact = .ok namedContact :=
  ⟨widenings_contacts, rfl, validate_of_widenings widenings_contacts rfl⟩

end Schema

end Conform
