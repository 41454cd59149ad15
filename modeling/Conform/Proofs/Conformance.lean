import Conform.Check
import Conform.Proofs.Double
import Conform.Proofs.Entries
import Conform.Proofs.Visit.Made

/-!
# Conformance

`Conforms schema v` says what it takes for a value to be of the shape that a schema describes, one
rule for each kind of node and two for the exemptions. Nothing in it speaks of an order of checks,
of rejections or of paths.

* `exists_make_iff_conforms`: under any policy something is made of exactly the conforming values.
* `validate_iff_conforms`: `validate` and `guard` accept exactly the conforming values.
-/

namespace Conform

/-! ## The relation -/

/-- The count lies between those of the bounds that are set. -/
def Bounds.Within (bounds : Bounds UInt64) (n : Nat) : Prop :=
  (∀ least, bounds.min = some least → least.toNat ≤ n) ∧
    ∀ most, bounds.max = some most → n ≤ most.toNat

/-- The number lies on the number line between those of the bounds that are set; a bound that is no
number contains nothing. -/
def Bounds.Contains (range : Bounds Double) (x : Double) : Prop :=
  (∀ least, range.min = some least → least.isNaN = false ∧ least.rank ≤ x.rank) ∧
    ∀ most, range.max = some most → most.isNaN = false ∧ x.rank ≤ most.rank

/-- A key schema, if there is one, is a text schema whose length bounds the key keeps to. -/
def KeyConforms (keySchema : Option Schema) (key : String) : Prop :=
  ∀ schema, keySchema = some schema →
    ∃ info length brand, schema = .leaf info (.string length) brand ∧ length.Within key.length

/-- The value is of the shape that the schema describes. -/
inductive Conforms : Schema → Value → Prop
  | absent {schema : Schema} (h : schema.info.optional = true) : Conforms schema .absent
  | null {schema : Schema} (h : schema.info.nullable = true) : Conforms schema .null
  | string {info : Info} {length : Bounds UInt64} {brand : Option Brand} {text : String}
      (h : length.Within text.length) : Conforms (.leaf info (.string length) brand) (.string text)
  | number {info : Info} {range : Bounds Double} {brand : Option Brand} {x : Double}
      (hfinite : x.isFinite = true) (h : range.Contains x) :
      Conforms (.leaf info (.number range) brand) (.number x)
  | bigint {info : Info} {brand : Option Brand} {n : BigInt} :
      Conforms (.leaf info .bigint brand) (.bigInt n)
  | boolean {info : Info} {brand : Option Brand} {b : Bool} :
      Conforms (.leaf info .boolean brand) (.bool b)
  | literalString {info : Info} {brand : Option Brand} {text : String} :
      Conforms (.leaf info (.literal (.string text)) brand) (.string text)
  | literalNumber {info : Info} {brand : Option Brand} {x y : Double} (h : x.equal y = true) :
      Conforms (.leaf info (.literal (.number x)) brand) (.number y)
  | array {info : Info} {element : Schema} {length : Bounds UInt64} {items : List Value}
      (hitems : ∀ item ∈ items, Conforms element item) (h : length.Within items.length) :
      Conforms (.array info element length) (.sequence items)
  | tuple {info : Info} {positions : List Schema} {items : List Value}
      (h : items.length = positions.length)
      (hitems : ∀ pair ∈ positions.zip items, Conforms pair.1 pair.2) :
      Conforms (.tuple info positions) (.sequence items)
  | object {info : Info} {fields : List (String × Schema)} {entries : List (String × Value)}
      (hdeclared : ∀ entry ∈ entries, entry.1 ∈ Entries.keys fields)
      (hfields : ∀ field ∈ fields,
        Conforms field.2 ((Entries.get? field.1 entries).getD .absent)) :
      Conforms (.object info fields) (.mapping entries)
  | record {info : Info} {value : Schema} {key : Option Schema} {entries : List (String × Value)}
      (hkeys : ∀ entry ∈ entries, KeyConforms key entry.1)
      (hvalues : ∀ entry ∈ entries, entry.2 ≠ .absent → Conforms value entry.2) :
      Conforms (.record info value key) (.mapping entries)
  | union {info : Info} {alternatives : List Schema} {alternative : Schema} {v : Value}
      (hmem : alternative ∈ alternatives) (h : Conforms alternative v) :
      Conforms (.union info alternatives) v

/-! ## Exemptions, leaves and keys -/

/-- The flags exempt `Absent` under `optional` and `Null` under `nullable`, and nothing else. -/
theorem Info.exempts_iff {info : Info} {v : Value} :
    info.exempts v = true ↔
      info.optional = true ∧ v = .absent ∨ info.nullable = true ∧ v = .null := by
  cases v <;> simp [Info.exempts, Value.isAbsent, Value.isNull]

theorem Value.isAbsent_eq_true {v : Value} : v.isAbsent = true ↔ v = .absent := by
  cases v <;> simp [Value.isAbsent]

theorem Value.isAbsent_eq_false {v : Value} : v.isAbsent = false ↔ v ≠ .absent := by
  cases v <;> simp [Value.isAbsent]

theorem Bounds.allows_iff {bounds : Bounds UInt64} {n : Nat} :
    bounds.allows n = true ↔ bounds.Within n := by
  unfold Bounds.allows
  simp [Bounds.Within, Option.all_eq_true]

/-- A number is compared with the bounds by its place on the number line. -/
theorem Bounds.contain_iff {range : Bounds Double} {x : Double} (hx : x.isNaN = false) :
    range.contain x = true ↔ range.Contains x := by
  simp [Bounds.contain, Bounds.Contains, Option.all_eq_true, Double.le_iff, hx]

theorem Bounds.checkText_eq_none {length : Bounds UInt64} {text : String} :
    length.checkText text = none ↔ length.Within text.length := by
  simp [Bounds.checkText, ← Bounds.allows_iff]

/-- A leaf that finds no fault in a value describes it. -/
theorem Leaf.conforms_of_reject?_eq_none {info : Info} {l : Leaf} {brand : Option Brand} {v : Value}
    (h : l.reject? v = none) : Conforms (.leaf info l brand) v := by
  cases l with
  | string length =>
    cases v with
    | string text => exact .string (Bounds.checkText_eq_none.mp h)
    | _ => simp [Leaf.reject?] at h
  | number range =>
    cases v with
    | number x =>
      simp only [Leaf.reject?] at h
      split at h
      · rename_i hfinite
        refine .number hfinite ((Bounds.contain_iff (Double.isNaN_of_isFinite hfinite)).mp ?_)
        simpa using h
      · simp at h
    | _ => simp [Leaf.reject?] at h
  | bigint =>
    cases v with
    | bigInt n => exact .bigint
    | _ => simp [Leaf.reject?] at h
  | boolean =>
    cases v with
    | bool b => exact .boolean
    | _ => simp [Leaf.reject?] at h
  | literal value =>
    have haccepts : value.accepts v = true := by simpa [Leaf.reject?] using h
    cases value with
    | string text =>
      cases v with
      | string other =>
        obtain rfl : text = other := by simpa [Constant.accepts] using haccepts
        exact .literalString
      | _ => simp [Constant.accepts] at haccepts
    | number x =>
      cases v with
      | number y => exact .literalNumber haccepts
      | _ => simp [Constant.accepts] at haccepts

namespace Schema

/-- A key is accepted exactly when the key schema describes it as a text. -/
theorem keyAccepted_iff {keySchema : Option Schema} {key : String} :
    KeyAccepted keySchema key ↔ KeyConforms keySchema key := by
  refine forall_congr' fun schema => imp_congr_right fun _ => ?_
  constructor
  · intro h
    unfold verifyKey at h
    split at h
    · exact ⟨_, _, _, rfl, Bounds.checkText_eq_none.mp h⟩
    · simp at h
  · rintro ⟨info, length, brand, rfl, h⟩
    exact Bounds.checkText_eq_none.mpr h

/-- No key is undeclared exactly when the fields name them all. -/
theorem hasUndeclared_eq_false {fields : List (String × Schema)} {entries : List (String × Value)} :
    hasUndeclared fields entries = false ↔ ∀ entry ∈ entries, entry.1 ∈ Entries.keys fields := by
  simp [hasUndeclared, Entries.has_iff]

/-! ## Accepted values -/

theorem conforms_of_exempts {schema : Schema} {v : Value} (hx : schema.info.exempts v = true) :
    Conforms schema v := by
  rcases Info.exempts_iff.mp hx with ⟨ho, rfl⟩ | ⟨hn, rfl⟩
  · exact .absent ho
  · exact .null hn

variable {α : Type} {policy : Policy α}

/-- Whatever the policy builds, the subject conforms to the schema it was built under. -/
theorem conforms_of_make {schema : Schema} {v : Value} {a : α}
    (h : make policy schema v = some a) : Conforms schema v := by
  apply make_induction (motive := fun schema v _ => Conforms schema v) (h := h)
  case exempt =>
    intro schema v hx
    exact conforms_of_exempts hx
  case leaf =>
    intro info l brand v hl
    exact Leaf.conforms_of_reject?_eq_none hl
  case array =>
    intro info element length items parts hparts hlength
    refine .array (fun item hitem => ?_) (Bounds.allows_iff.mp hlength)
    obtain ⟨part, -, -, h⟩ := exists_of_mem_forall₂ hparts hitem
    exact h
  case tuple =>
    intro info positions items parts hlength hparts
    refine .tuple hlength fun pair hpair => ?_
    obtain ⟨part, -, -, h⟩ := exists_of_mem_forall₂ hparts hpair
    exact h
  case object =>
    intro info fields entries hall hdeclared
    refine .object (hasUndeclared_eq_false.mp hdeclared) fun field hfield => ?_
    obtain ⟨b, -, hb⟩ := hall field hfield
    exact hb
  case record =>
    intro info value key entries hkeys hall
    refine .record (fun entry hentry => keyAccepted_iff.mp (hkeys entry hentry)) ?_
    intro entry hentry hpresent
    obtain ⟨b, -, hb⟩ := hall entry hentry (Value.isAbsent_eq_false.mpr hpresent)
    exact hb
  case union =>
    intro info before alternative after v a hbefore ha ih
    exact .union (by simp) ih

variable (policy) in
/-- For a subject that conforms to the schema every policy builds something. -/
theorem exists_make_of_conforms {schema : Schema} {v : Value} (h : Conforms schema v) :
    ∃ a, make policy schema v = some a := by
  induction h with
  | absent h => exact ⟨_, make_of_exempts (by simp [Info.exempts_iff, h])⟩
  | null h => exact ⟨_, make_of_exempts (by simp [Info.exempts_iff, h])⟩
  | string h => exact ⟨_, make_leaf.mpr ⟨.inr (Bounds.checkText_eq_none.mpr h), rfl⟩⟩
  | number hfinite h =>
    have hcontain := (Bounds.contain_iff (Double.isNaN_of_isFinite hfinite)).mpr h
    refine ⟨_, make_leaf.mpr ⟨.inr ?_, rfl⟩⟩
    simp [Leaf.reject?, hfinite, hcontain]
  | bigint => exact ⟨_, make_leaf.mpr ⟨.inr rfl, rfl⟩⟩
  | boolean => exact ⟨_, make_leaf.mpr ⟨.inr rfl, rfl⟩⟩
  | literalString =>
    refine ⟨_, make_leaf.mpr ⟨.inr ?_, rfl⟩⟩
    simp [Leaf.reject?, Constant.accepts]
  | literalNumber h =>
    refine ⟨_, make_leaf.mpr ⟨.inr ?_, rfl⟩⟩
    simp [Leaf.reject?, Constant.accepts, h]
  | array _ h ih =>
    obtain ⟨parts, hparts⟩ := exists_forall₂_iff.mpr ih
    exact ⟨_, make_array.mpr ⟨parts, hparts, Bounds.allows_iff.mpr h, rfl⟩⟩
  | tuple h _ ih =>
    obtain ⟨parts, hparts⟩ := exists_forall₂_iff.mpr ih
    exact ⟨_, make_tuple.mpr ⟨h, parts, hparts, rfl⟩⟩
  | object hdeclared _ ih =>
    exact ⟨_, make_object.mpr ⟨ih, hasUndeclared_eq_false.mpr hdeclared, rfl⟩⟩
  | record hkeys _ ih =>
    refine ⟨_, make_record.mpr ⟨fun entry hentry => ⟨?_, fun hpresent => ?_⟩, rfl⟩⟩
    · exact keyAccepted_iff.mpr (hkeys entry hentry)
    · exact ih entry hentry (Value.isAbsent_eq_false.mp hpresent)
  | @union info alternatives alternative v hmem _ ih =>
    cases hx : info.exempts v with
    | true => exact ⟨_, make_of_exempts hx⟩
    | false =>
      rw [make_union hx, ← Option.isSome_iff_exists, List.findSome?_isSome_iff]
      exact ⟨alternative, hmem, Option.isSome_iff_exists.mpr ih⟩

/-- Success of the engine does not depend on the policy: it is conformance. -/
theorem exists_make_iff_conforms {schema : Schema} {v : Value} :
    (∃ a, make policy schema v = some a) ↔ Conforms schema v :=
  ⟨fun ⟨_, h⟩ => conforms_of_make h, exists_make_of_conforms policy⟩

theorem make_share_eq_some {schema : Schema} {v a : Value} :
    make .share schema v = some a ↔ validate schema v = .ok a :=
  Visit.made_eq_some

theorem make_rebuild_eq_some {schema : Schema} {v p : Value} :
    make .rebuild schema v = some p ↔ parse schema v = .ok p :=
  Visit.made_eq_some

theorem guard_eq_true {schema : Schema} {v : Value} :
    guard schema v = true ↔ ∃ a, validate schema v = .ok a := by
  unfold guard
  cases validate schema v <;> simp [Except.isOk, Except.toBool]

/-- A value is accepted exactly if it conforms to the schema. -/
theorem validate_iff_conforms (schema : Schema) (v : Value) :
    ((∃ a, validate schema v = .ok a) ↔ Conforms schema v) ∧
      (guard schema v = true ↔ Conforms schema v) := by
  have hvalidate : (∃ a, validate schema v = .ok a) ↔ Conforms schema v := by
    simp only [← make_share_eq_some, exists_make_iff_conforms]
  exact ⟨hvalidate, guard_eq_true.trans hvalidate⟩

end Schema

end Conform
