import Conform.Schema

/-!
# Induction over schemas

`Schema.induction` proves a property of all schemas from one case a kind of node, where the
hypothesis for a tuple, an object or a union speaks of every schema in its list. The two lists in
`WellFormed`, and in `FiniteNumbers`, are read back as statements about their members.
-/

namespace Conform.Schema

/-- Induction on schemas, over the schemas that stand right below a node. -/
@[elab_as_elim, induction_eliminator]
theorem induction {motive : Schema → Prop}
    (leaf : ∀ info l brand, motive (leaf info l brand))
    (array : ∀ info element length, motive element → motive (array info element length))
    (tuple : ∀ info positions, (∀ position ∈ positions, motive position) →
      motive (tuple info positions))
    (object : ∀ info fields, (∀ field ∈ fields, motive field.2) → motive (object info fields))
    (record : ∀ info value key, motive value → (∀ k, key = some k → motive k) →
      motive (record info value key))
    (union : ∀ info alternatives, (∀ alternative ∈ alternatives, motive alternative) →
      motive (union info alternatives)) :
    ∀ schema, motive schema
  | .leaf info l brand => leaf info l brand
  | .array info element length =>
    array info element length (induction leaf array tuple object record union element)
  | .tuple info positions =>
    tuple info positions fun position _ => induction leaf array tuple object record union position
  | .object info fields =>
    object info fields fun field _ => induction leaf array tuple object record union field.2
  | .record info value key =>
    record info value key (induction leaf array tuple object record union value)
      fun k _ => induction leaf array tuple object record union k
  | .union info alternatives =>
    union info alternatives fun alternative _ =>
      induction leaf array tuple object record union alternative
termination_by schema => sizeOf schema
decreasing_by
  all_goals simp_wf
  · omega
  · have := List.sizeOf_lt_of_mem ‹position ∈ positions›
    omega
  · have := List.sizeOf_lt_of_mem ‹field ∈ fields›
    obtain ⟨name, schema⟩ := field
    simp at this ⊢
    omega
  · omega
  · subst key
    simp
    omega
  · have := List.sizeOf_lt_of_mem ‹alternative ∈ alternatives›
    omega

theorem wellFormedList_iff {schemas : List Schema} :
    WellFormedList schemas ↔ ∀ schema ∈ schemas, WellFormed schema := by
  induction schemas with
  | nil => simp [WellFormedList]
  | cons schema rest ih => simp [WellFormedList, ih]

theorem wellFormedFields_iff {fields : List (String × Schema)} :
    WellFormedFields fields ↔ ∀ field ∈ fields, WellFormed field.2 := by
  induction fields with
  | nil => simp [WellFormedFields]
  | cons field rest ih => simp [WellFormedFields, ih]

theorem wellFormed_tuple {info : Info} {positions : List Schema} :
    (tuple info positions).WellFormed ↔ ∀ position ∈ positions, position.WellFormed := by
  rw [WellFormed, wellFormedList_iff]

theorem wellFormed_object {info : Info} {fields : List (String × Schema)} :
    (object info fields).WellFormed ↔
      (Entries.keys fields).Nodup ∧ ∀ field ∈ fields, field.2.WellFormed := by
  rw [WellFormed, wellFormedFields_iff]

theorem wellFormed_of_record {info : Info} {value : Schema} {key : Option Schema}
    (h : (record info value key).WellFormed) : value.WellFormed :=
  h.1

theorem wellFormed_record {info : Info} {value : Schema} {key : Option Schema} :
    (record info value key).WellFormed ↔
      value.WellFormed ∧ ∀ k, key = some k → k.kind = .string := by
  cases key <;> simp [WellFormed]

theorem wellFormed_union {info : Info} {alternatives : List Schema} :
    (union info alternatives).WellFormed ↔
      alternatives ≠ [] ∧ ∀ alternative ∈ alternatives, alternative.WellFormed := by
  rw [WellFormed, wellFormedList_iff]

theorem wellFormed_of_mem_union {info : Info} {before after : List Schema} {alternative : Schema}
    (h : (union info (before ++ alternative :: after)).WellFormed) : alternative.WellFormed :=
  (wellFormed_union.mp h).2 alternative (by simp)

/-- A text schema has no schemas inside. -/
theorem wellFormed_of_kind_string {schema : Schema} (h : schema.kind = .string) :
    schema.WellFormed := by
  cases schema with
  | leaf => trivial
  | _ => cases h

/-! ## Defects -/

theorem defect?_record {info : Info} {value : Schema} {key : Option Schema} :
    (record info value key).defect? = none ↔ ∀ k, key = some k → k.kind = .string := by
  cases key with
  | none => simp [defect?]
  | some key => simp [defect?]

theorem defect?_union {info : Info} {alternatives : List Schema} :
    (union info alternatives).defect? = none ↔ alternatives ≠ [] := by
  cases alternatives <;> simp [defect?]

end Conform.Schema

namespace Conform

/-! ## Finite numbers -/

/-- The bounds of a number leaf, or the constant of a literal one, are finite. -/
def Leaf.FiniteNumbers : Leaf → Prop
  | number range =>
    (∀ x, range.min = some x → x.isFinite = true) ∧ ∀ x, range.max = some x → x.isFinite = true
  | literal (.number x) => x.isFinite = true
  | string _ | bigint | boolean | literal (.string _) => True

namespace Schema

mutual

/-- All bounds and constants, at every depth, are finite. -/
def FiniteNumbers : Schema → Prop
  | leaf _ l _ => l.FiniteNumbers
  | array _ element _ => FiniteNumbers element
  | tuple _ positions => FiniteNumbersList positions
  | object _ fields => FiniteNumbersFields fields
  | record _ value none => FiniteNumbers value
  | record _ value (some key) => FiniteNumbers value ∧ FiniteNumbers key
  | union _ alternatives => FiniteNumbersList alternatives

def FiniteNumbersList : List Schema → Prop
  | [] => True
  | schema :: rest => FiniteNumbers schema ∧ FiniteNumbersList rest

def FiniteNumbersFields : List (String × Schema) → Prop
  | [] => True
  | (_, schema) :: rest => FiniteNumbers schema ∧ FiniteNumbersFields rest

end

theorem finiteNumbersList_iff {schemas : List Schema} :
    FiniteNumbersList schemas ↔ ∀ schema ∈ schemas, FiniteNumbers schema := by
  induction schemas with
  | nil => simp [FiniteNumbersList]
  | cons schema rest ih => simp [FiniteNumbersList, ih]

theorem finiteNumbersFields_iff {fields : List (String × Schema)} :
    FiniteNumbersFields fields ↔ ∀ field ∈ fields, FiniteNumbers field.2 := by
  induction fields with
  | nil => simp [FiniteNumbersFields]
  | cons field rest ih => simp [FiniteNumbersFields, ih]

theorem finiteNumbers_tuple {info : Info} {positions : List Schema} :
    (tuple info positions).FiniteNumbers ↔ ∀ position ∈ positions, position.FiniteNumbers := by
  rw [FiniteNumbers, finiteNumbersList_iff]

theorem finiteNumbers_object {info : Info} {fields : List (String × Schema)} :
    (object info fields).FiniteNumbers ↔ ∀ field ∈ fields, field.2.FiniteNumbers := by
  rw [FiniteNumbers, finiteNumbersFields_iff]

theorem finiteNumbers_record {info : Info} {value : Schema} {key : Option Schema} :
    (record info value key).FiniteNumbers ↔
      value.FiniteNumbers ∧ ∀ k, key = some k → k.FiniteNumbers := by
  cases key <;> simp [FiniteNumbers]

theorem finiteNumbers_union {info : Info} {alternatives : List Schema} :
    (union info alternatives).FiniteNumbers ↔
      ∀ alternative ∈ alternatives, alternative.FiniteNumbers := by
  rw [FiniteNumbers, finiteNumbersList_iff]

end Schema

end Conform
