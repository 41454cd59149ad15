import Conform.Proofs.Edits

/-!
# Tuples of copies and arrays of one length

A tuple of `n` copies of a schema asks for the same as an array of this schema that has `n` items.
The tuple looks at the length first and the array last, so that they may reject a sequence of
another length with different words; but they accept the same values and make the same of them, and
of a sequence of `n` items they say the same. What is accepted and parsed stays the same when one
takes the place of the other anywhere inside a schema (`tupleOf_agrees_arrayOf`).
-/

namespace Conform

open Schema

namespace Schema

/-- A tuple whose positions all have one schema. -/
def tupleOf (info : Info) (element : Schema) (n : UInt64) : Schema :=
  .tuple info (List.replicate n.toNat element)

/-- An array that must have so many items. -/
def arrayOf (info : Info) (element : Schema) (n : UInt64) : Schema :=
  .array info element ⟨some n, some n⟩

/-- One of the two takes the place of the other; both exempt the same values. -/
inductive Interchange : Schema → Schema → Prop
  | toArray {info info' : Info} (hoptional : info.optional = info'.optional)
      (hnullable : info.nullable = info'.nullable) (element : Schema) (n : UInt64) :
      Interchange (tupleOf info element n) (arrayOf info' element n)
  | toTuple {info info' : Info} (hoptional : info.optional = info'.optional)
      (hnullable : info.nullable = info'.nullable) (element : Schema) (n : UInt64) :
      Interchange (arrayOf info' element n) (tupleOf info element n)

end Schema

theorem Bounds.allows_exact_iff {n : UInt64} {k : Nat} :
    Bounds.allows ⟨some n, some n⟩ k = true ↔ k = n.toNat := by
  unfold Bounds.allows
  simp only [Option.all_some, Bool.and_eq_true, decide_eq_true_eq]
  omega

section

variable {α : Type} {policy : Policy α} {info info' : Info} {element schema schema' : Schema}
  {n : UInt64} {v : Value} {items : List Value}

theorem zip_copies (h : items.length = n.toNat) :
    (List.replicate n.toNat element).zip items = items.map fun item => (element, item) := by
  rw [← h]
  clear h
  induction items with
  | nil => rfl
  | cons item rest ih => simp [List.replicate_succ, ih]

theorem exempts_eq_of_flags (hoptional : info.optional = info'.optional)
    (hnullable : info.nullable = info'.nullable) (v : Value) :
    info.exempts v = info'.exempts v := by
  simp [Info.exempts, hoptional, hnullable]

/-! ## The two nodes -/

/-- A tuple of copies and the array of that exact length build the same from every value. -/
theorem make_tupleOf (hoptional : info.optional = info'.optional)
    (hnullable : info.nullable = info'.nullable) (element : Schema) (n : UInt64) (v : Value) :
    make policy (tupleOf info element n) v = make policy (arrayOf info' element n) v := by
  refine make_eq_of_takes (exempts_eq_of_flags hoptional hnullable v) rfl ?_
  rintro ⟨items, rfl⟩
  ext a
  rw [tupleOf, arrayOf, make_tuple, make_array, List.length_replicate]
  constructor
  · rintro ⟨hlength, parts, hparts, rfl⟩
    rw [zip_copies hlength, List.forall₂_map_left_iff] at hparts
    exact ⟨parts, hparts, Bounds.allows_exact_iff.mpr hlength, rfl⟩
  · rintro ⟨parts, hparts, hallows, rfl⟩
    have hlength := Bounds.allows_exact_iff.mp hallows
    refine ⟨hlength, parts, ?_, rfl⟩
    rw [zip_copies hlength, List.forall₂_map_left_iff]
    exact hparts

/-- With the right number of items, neither node speaks for itself, and both demand the same. -/
theorem rejections_tupleOf (info info' : Info) (h : items.length = n.toNat) :
    rejections (tupleOf info element n) (.sequence items) =
      rejections (arrayOf info' element n) (.sequence items) := by
  have hdemands : demands (tupleOf info element n) (.sequence items) =
      demands (arrayOf info' element n) (.sequence items) := by
    simp [tupleOf, arrayOf, demands, h, zip_copies h, List.zipIdx_map]
  have htuple : ownCode? (tupleOf info element n) (.sequence items) = none := by
    simp [tupleOf, ownCode?, h]
  have harray : ownCode? (arrayOf info' element n) (.sequence items) = none := by
    simp [arrayOf, ownCode?, Bounds.allows_exact_iff.mpr h]
  rw [rejections_eq, rejections_eq, nodeRejections, nodeRejections, hdemands, htuple, harray,
    exempts_sequence, exempts_sequence]
  rfl

/-! ## Results -/

/-- The two schemas accept the same values and parse them to the same values. -/
def Schema.SameResults (schema schema' : Schema) : Prop :=
  ∀ v, ((∃ a, validate schema v = .ok a) ↔ ∃ a, validate schema' v = .ok a) ∧
    ∀ p, parse schema v = .ok p ↔ parse schema' v = .ok p

theorem sameResults_of_make
    (h : ∀ (policy : Policy Value) v, make policy schema v = make policy schema' v) :
    schema.SameResults schema' := by
  intro v
  constructor
  · simp only [← make_share_eq_some, h]
  · intro p
    rw [← make_rebuild_eq_some, ← make_rebuild_eq_some, h]

theorem Schema.Interchange.make_eq (h : Interchange schema schema') (v : Value) :
    make policy schema v = make policy schema' v := by
  cases h with
  | toArray hoptional hnullable element n => exact make_tupleOf hoptional hnullable element n v
  | toTuple hoptional hnullable element n =>
    exact (make_tupleOf hoptional hnullable element n v).symm

/-- Neither a tuple nor an array can judge a key. -/
theorem Schema.Interchange.verifyKey_eq (h : Interchange schema schema') (name : String) :
    schema'.verifyKey name = schema.verifyKey name := by
  cases h <;> rfl

/-- **A tuple of copies of one schema is an array of fixed length.** The two accept the same values
and parse them to the same values, and to a sequence of the right number of items they give the same
answers, rejections included. Neither what a schema accepts nor what it parses changes when one
takes the place of the other inside it, any number of times and at any depth. -/
theorem tupleOf_agrees_arrayOf (hoptional : info.optional = info'.optional)
    (hnullable : info.nullable = info'.nullable) (element : Schema) (n : UInt64) :
    (tupleOf info element n).SameResults (arrayOf info' element n) ∧
      (∀ items, items.length = n.toNat →
        validate (tupleOf info element n) (.sequence items) =
            validate (arrayOf info' element n) (.sequence items) ∧
          parse (tupleOf info element n) (.sequence items) =
            parse (arrayOf info' element n) (.sequence items)) ∧
      ∀ schema schema', Relation.ReflTransGen (OneEdit Interchange) schema schema' →
        schema.SameResults schema' := by
  refine ⟨sameResults_of_make fun _ => make_tupleOf hoptional hnullable element n,
    fun items hlength => ?_, fun schema schema' h => sameResults_of_make fun policy =>
      make_of_edits (fun _ _ h => h.make_eq) (fun _ _ h => h.verifyKey_eq) h⟩
  have houtcome (policy : Policy Value) :
      (visit policy (tupleOf info element n) (.sequence items) []).outcome =
        (visit policy (arrayOf info' element n) (.sequence items) []).outcome := by
    rw [outcome_visit, outcome_visit, make_tupleOf hoptional hnullable,
      rejections_tupleOf info info' hlength]
  exact ⟨houtcome .share, houtcome .rebuild⟩

end

/-! ## Two switches -/

/-- A node that accepts null, without a description. -/
def undescribed : Info :=
  ⟨false, true, none⟩

/-- The same node with a description. -/
def described : Info :=
  { undescribed with description := some "two switches" }

/-- Two flags, either of which may be missing, under one name. -/
def switches (pair : Schema) : Schema :=
  .object .plain [("switches", pair)]

theorem interchange_switches :
    Relation.ReflTransGen (OneEdit Interchange) (switches (tupleOf described (flag true) 2))
      (switches (arrayOf undescribed (flag true) 2)) :=
  .single (@OneEdit.field _ _ [] [] _ _ _
    (.here (@Interchange.toArray described undescribed rfl rfl (flag true) 2)))

/-- An absent switch will do, null will not. -/
theorem tupleOf_agrees_arrayOf_switches :
    described.optional = undescribed.optional ∧ described.nullable = undescribed.nullable ∧
      validate (tupleOf described (flag true) 2) (.sequence [.absent, .null]) =
        .error [⟨.invalidType, [.index 1], flag true, .null⟩] ∧
      validate (tupleOf described (flag true) 2) (.sequence [.absent, .null]) =
        validate (arrayOf undescribed (flag true) 2) (.sequence [.absent, .null]) ∧
      Relation.ReflTransGen (OneEdit Interchange) (switches (tupleOf described (flag true) 2))
        (switches (arrayOf undescribed (flag true) 2)) ∧
      (switches (tupleOf described (flag true) 2)).SameResults
        (switches (arrayOf undescribed (flag true) 2)) := by
  obtain ⟨-, hanswers, hreplaced⟩ :=
    @tupleOf_agrees_arrayOf described undescribed rfl rfl (flag true) 2
  exact ⟨rfl, rfl, rfl, (hanswers [.absent, .null] rfl).1, interchange_switches,
    hreplaced _ _ interchange_switches⟩

end Conform
