import Conform.Proofs.Rejections
import Conform.Proofs.Reparse
import Conform.Proofs.Visit.Comparison

/-!
# What no check looks at

Brands and descriptions are for readers. Some flags are never looked at either: a record asks
nothing of an entry with nothing under it, so it does not matter whether its value schema is
optional, and it asks for the length of its keys only, so the flags of its key schema do not matter
at all. `SameRules` relates schemas that differ in these things only, at any depth. They give the
same answer to every value, with the same parsed value or with rejections that differ in the named
schema only, and there in these things only (`agree_of_sameRules`).
-/

namespace Conform

open Schema

/-! ## Schemas with the same rules -/

/-- What a schema is there for: for values, or for the values or the keys of a record. -/
inductive Role where
  | node
  | value
  | key

/-- The flags that count in the role are the same. -/
def Role.SameFlags (role : Role) (info info' : Info) : Prop :=
  match role with
  | node => info.optional = info'.optional ∧ info.nullable = info'.nullable
  | value => info.nullable = info'.nullable
  | key => True

/-- The schemas, both in this role, differ in nothing but brands, descriptions and flags that do not
count in the role of the schema that has them. -/
inductive Schema.SameRules : Role → Schema → Schema → Prop
  | leaf {role : Role} {info info' : Info} {l : Leaf} {brand brand' : Option Brand}
      (hflags : role.SameFlags info info') :
      SameRules role (.leaf info l brand) (.leaf info' l brand')
  | array {role : Role} {info info' : Info} {element element' : Schema} {length : Bounds UInt64}
      (hflags : role.SameFlags info info') (h : SameRules .node element element') :
      SameRules role (.array info element length) (.array info' element' length)
  | tuple {role : Role} {info info' : Info} {positions positions' : List Schema}
      (hflags : role.SameFlags info info') (hlength : positions.length = positions'.length)
      (h : ∀ pair ∈ positions.zip positions', SameRules .node pair.1 pair.2) :
      SameRules role (.tuple info positions) (.tuple info' positions')
  | object {role : Role} {info info' : Info} {fields fields' : List (String × Schema)}
      (hflags : role.SameFlags info info') (hkeys : Entries.keys fields' = Entries.keys fields)
      (h : ∀ pair ∈ fields.zip fields', SameRules .node pair.1.2 pair.2.2) :
      SameRules role (.object info fields) (.object info' fields')
  | record {role : Role} {info info' : Info} {value value' : Schema} {key key' : Option Schema}
      (hflags : role.SameFlags info info') (h : SameRules .value value value')
      (hkey : key.isSome = key'.isSome)
      (hkeys : ∀ k k', key = some k → key' = some k' → SameRules .key k k') :
      SameRules role (.record info value key) (.record info' value' key')
  | union {role : Role} {info info' : Info} {alternatives alternatives' : List Schema}
      (hflags : role.SameFlags info info') (hlength : alternatives.length = alternatives'.length)
      (h : ∀ pair ∈ alternatives.zip alternatives', SameRules .node pair.1 pair.2) :
      SameRules role (.union info alternatives) (.union info' alternatives')

/-- The schema stands somewhere inside the whole, in this role. -/
inductive Role.Held (whole : Schema) : Role → Schema → Prop
  | node {schema : Schema} (h : PartOf schema whole) : Held whole .node schema
  | value {info : Info} {schema : Schema} {key : Option Schema}
      (h : PartOf (.record info schema key) whole) : Held whole .value schema
  | key {info : Info} {value schema : Schema}
      (h : PartOf (.record info value (some schema)) whole) : Held whole .key schema

/-- The same value is rejected for the same reason in the same place, by schemas that stand in the
two wholes in one role and have the same rules in it. -/
abbrev Rejection.SameRules (whole whole' : Schema) : Rejection → Rejection → Prop :=
  Alike fun schema v schema' v' => v = v' ∧ ∃ role, schema.SameRules role schema' ∧
    Role.Held whole role schema ∧ Role.Held whole' role schema'

/-! ## Roles -/

/-- A value that a schema in this role may be asked about; a key schema is never asked about a
value. -/
def Role.Meets (role : Role) (v : Value) : Prop :=
  match role with
  | node => True
  | value => v.isAbsent = false
  | key => False

/-- Flags that agree in a role exempt the same of the values met in this role. -/
theorem Role.SameFlags.exempts_eq {role : Role} {info info' : Info} {v : Value}
    (h : role.SameFlags info info') (hv : role.Meets v) : info.exempts v = info'.exempts v := by
  cases role with
  | node =>
    obtain ⟨hoptional, hnullable⟩ := h
    rw [Info.exempts, Info.exempts, hoptional, hnullable]
  | value =>
    have hnullable : info.nullable = info'.nullable := h
    have hpresent : v.isAbsent = false := hv
    rw [Info.exempts, Info.exempts, hnullable, hpresent, Bool.and_false, Bool.and_false]
  | key => exact hv.elim

/-- Rules that are the same verify keys alike. -/
theorem Schema.SameRules.verifyKey_eq {role : Role} {key key' : Schema}
    (h : SameRules role key key') (name : String) : key.verifyKey name = key'.verifyKey name := by
  cases h with
  | @leaf _ _ _ l => cases l <;> rfl
  | _ => rfl

theorem Schema.PartOf.trans {part schema whole : Schema} (h : PartOf part schema)
    (h' : PartOf schema whole) : PartOf part whole := by
  induction h' with
  | self => exact h
  | element _ ih => exact .element ih
  | position hmem _ ih => exact .position hmem ih
  | field hmem _ ih => exact .field hmem ih
  | value _ ih => exact .value ih
  | alternative hmem _ ih => exact .alternative hmem ih

theorem Role.Held.partOf {whole schema : Schema} {role : Role} {v : Value}
    (h : role.Held whole schema) (hv : role.Meets v) : PartOf schema whole := by
  cases h with
  | node h => exact h
  | value h => exact (PartOf.value (.self schema)).trans h
  | key => exact hv.elim

/-! ## Checks -/

/-- One value is checked by parts of two wholes, and nothing but what is never looked at may be
different. -/
def relabelling (whole whole' : Schema) : Comparison :=
  .sameResult fun schema v schema' v' => v = v' ∧ ∃ role, schema.SameRules role schema' ∧
    Role.Held whole role schema ∧ Role.Held whole' role schema'

/-- Schemas with the same rules concur on every value met in their role. -/
theorem concur_of_sameRules {whole whole' : Schema} {role : Role} {schema schema' : Schema}
    (h : schema.SameRules role schema') :
    ∀ v, role.Meets v → role.Held whole schema → role.Held whole' schema' →
      (relabelling whole whole').Concur schema v schema' v := by
  induction h with
  | leaf hflags =>
    intro v hv hheld hheld'
    exact .leaf (hflags.exempts_eq hv) rfl ⟨rfl, _, .leaf hflags, hheld, hheld'⟩
  | array hflags h ih =>
    intro v hv hheld hheld'
    refine .array (hflags.exempts_eq hv) rfl ⟨rfl, _, .array hflags h, hheld, hheld'⟩ ?_
    rintro w _ rfl
    exact ih w trivial (.node ((PartOf.element (.self _)).trans (hheld.partOf hv)))
      (.node ((PartOf.element (.self _)).trans (hheld'.partOf hv)))
  | tuple hflags hlength h ih =>
    intro v hv hheld hheld'
    refine .tuple (hflags.exempts_eq hv) rfl ⟨rfl, _, .tuple hflags hlength h, hheld, hheld'⟩ ?_
    refine List.forall₂_iff_zip.mpr ⟨hlength, fun hpair w w' hw => ?_⟩
    obtain ⟨hmem, hmem'⟩ := List.of_mem_zip hpair
    obtain rfl : w = w' := hw
    exact ih _ hpair w trivial (.node ((PartOf.position hmem (.self _)).trans (hheld.partOf hv)))
      (.node ((PartOf.position hmem' (.self _)).trans (hheld'.partOf hv)))
  | object hflags hkeys h ih =>
    intro v hv hheld hheld'
    refine .object (hflags.exempts_eq hv) rfl ⟨rfl, _, .object hflags hkeys h, hheld, hheld'⟩ ?_
    refine .of_forall₂ (Entries.forall₂_paired_iff.mpr ⟨hkeys, fun pair hpair w w' hw => ?_⟩)
    obtain ⟨hmem, hmem'⟩ := List.of_mem_zip hpair
    obtain rfl : w = w' := hw
    exact ih _ hpair w trivial (.node ((PartOf.field hmem (.self _)).trans (hheld.partOf hv)))
      (.node ((PartOf.field hmem' (.self _)).trans (hheld'.partOf hv)))
  | @record role info info' value value' key key' hflags h hkey hkeys ih _ =>
    intro v hv hheld hheld'
    -- the value schema is asked about present entries only, the key schema about no value at all
    refine .record (hflags.exempts_eq hv) rfl
      ⟨rfl, _, .record hflags h hkey hkeys, hheld, hheld'⟩ ?_ fun w w' hw hpresent => ?_
    · cases key with
      | none =>
        obtain rfl : key' = none := by simpa using hkey
        exact .none
      | some k =>
        obtain ⟨k', rfl⟩ := Option.isSome_iff_exists.mp hkey.symm
        have hrules := hkeys k k' rfl rfl
        exact .some fun name => ⟨hrules.verifyKey_eq name, rfl, .key, hrules,
          .key (hheld.partOf hv), .key (hheld'.partOf hv)⟩
    · obtain rfl : w = w' := hw
      exact ih w hpresent (.value (hheld.partOf hv)) (.value (hheld'.partOf hv))
  | union hflags hlength h ih =>
    intro v hv hheld hheld'
    refine .union (hflags.exempts_eq hv) rfl ⟨rfl, _, .union hflags hlength h, hheld, hheld'⟩ ?_
    refine List.forall₂_iff_zip.mpr ⟨hlength, fun hpair => ?_⟩
    obtain ⟨hmem, hmem'⟩ := List.of_mem_zip hpair
    exact ih _ hpair v trivial
      (.node ((PartOf.alternative hmem (.self _)).trans (hheld.partOf hv)))
      (.node ((PartOf.alternative hmem' (.self _)).trans (hheld'.partOf hv)))

/-- **Nothing depends on what no check looks at.** Schemas with the same rules accept the same
values and parse them alike, and where they reject a value they do so with the same codes, at the
same paths, for the same subjects and in the same order. -/
theorem agree_of_sameRules {schema schema' : Schema} (h : schema.SameRules .node schema')
    (v : Value) :
    Agree Eq (List.Forall₂ (Rejection.SameRules schema schema')) (schema.validate v)
        (schema'.validate v) ∧
      Agree Eq (List.Forall₂ (Rejection.SameRules schema schema')) (schema.parse v)
        (schema'.parse v) := by
  have hconcur := concur_of_sameRules h v trivial (.node (.self schema)) (.node (.self schema'))
  exact ⟨hconcur.agree_validate rfl, hconcur.agree_parse⟩

/-! ## Contacts with descriptions -/

/-- As far as their own schemas are concerned a number may be absent, and a label absent or null; a
record asks for neither. -/
def describedNumbers : Schema :=
  .record .plain (.leaf ⟨true, false, none⟩ (.string ⟨some 3, none⟩) none)
    (some (.leaf ⟨true, true, some "kind of number"⟩ (.string ⟨none, some 4⟩) none))

/-- Contacts with descriptions and a brand. -/
def describedContacts : Schema :=
  .array ⟨false, false, some "address book"⟩
    (.object .plain
      [("name", .leaf .plain (.string .unset) (some ⟨"contact", "name"⟩)),
        ("numbers", describedNumbers)]) .unset

theorem sameRules_describedNumbers : numbers.SameRules .node describedNumbers := by
  refine .record ⟨rfl, rfl⟩ (.leaf rfl) rfl fun k k' hk hk' => ?_
  cases hk
  cases hk'
  exact .leaf trivial

theorem sameRules_describedContacts : contacts.SameRules .node describedContacts := by
  refine .array ⟨rfl, rfl⟩ (.object ⟨rfl, rfl⟩ rfl (Entries.forall₂_paired_iff.mp ?_).2)
  exact .cons ⟨rfl, .leaf ⟨rfl, rfl⟩⟩ (.cons ⟨rfl, sameRules_describedNumbers⟩ .nil)

/-- All three rejections come again, each with the described schema. -/
theorem agree_of_sameRules_contacts :
    contacts.SameRules .node describedContacts ∧
      contacts.validate namelessContact = .error [missingName, longLabel, fewDigits] ∧
      Agree Eq (List.Forall₂ (Rejection.SameRules contacts describedContacts))
        (contacts.validate namelessContact) (describedContacts.validate namelessContact) :=
  ⟨sameRules_describedContacts, validate_namelessContact,
    (agree_of_sameRules sameRules_describedContacts namelessContact).1⟩

end Conform
