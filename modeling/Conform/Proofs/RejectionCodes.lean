import Conform.Proofs.Rejections
import Conform.Proofs.Visit.Comparison

/-!
# The wrong shape and the wrong size

A rejection says that a value has the wrong shape or only the wrong size. Which of the two it says
can be checked without looking at how the rejection came about: the size is wrong exactly if the
value would do once the bounds of the rejecting node are gone (`code_eq_invalidRange_iff`). The
bounds of a node change neither what it exempts nor what it demands of the parts, only what it says
when nothing else has been said (`ownCode?_unbounded`).
-/

namespace Conform

open Schema

/-! ## Without the bounds of the node -/

/-- The leaf without its bounds. -/
def Leaf.unbounded : Leaf → Leaf
  | string _ => .string .unset
  | number _ => .number .unset
  | bigint => .bigint
  | boolean => .boolean
  | literal value => .literal value

/-- The schema without the bounds of its own node; the schemas inside keep theirs. -/
def Schema.unbounded : Schema → Schema
  | leaf info l brand => .leaf info l.unbounded brand
  | array info element _ => .array info element .unset
  | tuple info positions => .tuple info positions
  | object info fields => .object info fields
  | record info value key => .record info value key
  | union info alternatives => .union info alternatives

@[simp]
theorem Bounds.allows_unset (n : Nat) : Bounds.allows .unset n = true :=
  rfl

@[simp]
theorem Bounds.contain_unset (x : Double) : (unset : Bounds Double).contain x = true :=
  rfl

@[simp]
theorem Schema.info_unbounded (schema : Schema) : schema.unbounded.info = schema.info := by
  cases schema <;> rfl

/-- Taking the bounds off a node changes nothing in what it demands of the parts. -/
theorem Schema.demands_unbounded (schema : Schema) (v : Value) :
    demands schema.unbounded v = demands schema v := by
  cases schema <;> cases v <;> rfl

section

variable {schema schema' : Schema} {v v' : Value} {code : Code} {es : List Rejection}
  {r : Rejection}

/-- A leaf rejects a value for its range exactly when it would not without its bounds. -/
theorem Leaf.reject?_unbounded {l : Leaf} (h : l.reject? v = some code) :
    code = .invalidRange ↔ l.unbounded.reject? v = none := by
  cases l with
  | string length =>
    cases v with
    | string text =>
      have hsize : code = .invalidRange := by
        simp only [Leaf.reject?, Bounds.checkText] at h
        split at h <;> simp_all
      simp [hsize, Leaf.unbounded, Leaf.reject?, Bounds.checkText]
    | _ =>
      obtain rfl : Code.invalidType = code := Option.some.inj h
      simp [Leaf.unbounded, Leaf.reject?]
  | number range =>
    cases v with
    | number x =>
      -- a number that is not finite has the wrong shape, whatever the bounds are
      by_cases hx : x.isFinite = true
      · have hsize : code = .invalidRange := by
          simp only [Leaf.reject?, hx, if_true] at h
          split at h <;> simp_all
        simp [hsize, hx, Leaf.unbounded, Leaf.reject?]
      · have hshape : code = .invalidType := by
          simpa [Leaf.reject?, hx, eq_comm] using h
        simp [hshape, hx, Leaf.unbounded, Leaf.reject?]
    | _ =>
      obtain rfl : Code.invalidType = code := Option.some.inj h
      simp [Leaf.unbounded, Leaf.reject?]
  | bigint | boolean =>
    have hshape : code = .invalidType := by
      cases v <;> simp_all [Leaf.reject?]
    simp [Leaf.unbounded, h, hshape]
  | literal value =>
    have hshape : code = .invalidType := by
      simp only [Leaf.reject?] at h
      split at h <;> simp_all
    simp [Leaf.unbounded, h, hshape]

/-- A node says that the size is wrong exactly if it would say nothing without its bounds. -/
theorem Schema.ownCode?_unbounded (h : ownCode? schema v = some code) :
    code = .invalidRange ↔ ownCode? schema.unbounded v = none := by
  cases schema with
  | leaf info l brand => exact Leaf.reject?_unbounded h
  | array info element length =>
    cases v with
    | sequence items =>
      have hsize : code = .invalidRange := by
        simp only [ownCode?] at h
        split at h <;> simp_all
      simp [hsize, Schema.unbounded, ownCode?]
    | _ =>
      obtain rfl : Code.invalidType = code := Option.some.inj h
      simp [Schema.unbounded, ownCode?]
  | tuple | object | record | union =>
    -- these nodes have no bounds, and speak of the shape only
    have hshape : code = .invalidType := by
      unfold ownCode? at h
      split at h <;> simp_all
    simp [Schema.unbounded, h, hshape]

/-! ## Rejections of a node by itself -/

theorem Demand.path_ne_nil {demand : Demand} (h : r ∈ demand.rejections) : r.path ≠ [] := by
  cases demand with
  | part segment schema subject =>
    obtain ⟨r', -, rfl⟩ := List.mem_map.mp h
    exact List.cons_ne_nil _ _
  | key name schema =>
    obtain ⟨code, -, rfl⟩ := List.mem_map.mp h
    exact List.cons_ne_nil _ _

/-- A node that is the only one to speak has nothing against the parts. -/
theorem Schema.own_of_rejections_eq (h : rejections schema v = [⟨code, [], schema, v⟩]) :
    schema.info.exempts v = false ∧ (demands schema v).flatMap Demand.rejections = [] ∧
      ownCode? schema v = some code := by
  rw [rejections_eq, nodeRejections] at h
  split at h
  · cases h
  · rename_i hexempt
    refine ⟨Bool.eq_false_iff.mpr hexempt, ?_⟩
    cases hparts : (demands schema v).flatMap Demand.rejections with
    | nil =>
      rw [hparts, Rejection.foremost] at h
      cases hown : ownCode? schema v with
      | none => simp [hown] at h
      | some code' =>
        rw [hown] at h
        cases h
        exact ⟨rfl, rfl⟩
    | cons r rest =>
      rw [hparts] at h
      cases h
      have hmem : (⟨code, [], schema, v⟩ : Rejection) ∈
          (demands schema v).flatMap Demand.rejections := by
        simp [hparts]
      obtain ⟨demand, -, hr⟩ := List.mem_flatMap.mp hmem
      exact absurd rfl (Demand.path_ne_nil hr)

theorem Schema.code_iff_of_rejections_eq (h : rejections schema v = [⟨code, [], schema, v⟩]) :
    code = .invalidRange ↔ rejections schema.unbounded v = [] := by
  obtain ⟨hexempt, hparts, hown⟩ := own_of_rejections_eq h
  rw [ownCode?_unbounded hown, rejections_eq, nodeRejections, info_unbounded, hexempt,
    demands_unbounded, hparts, Rejection.foremost]
  cases ownCode? schema.unbounded v <;> simp

/-! ## All rejections -/

/-- **A rejection says that the size is wrong exactly if the size is all that is wrong**: its schema
without the bounds of its own node accepts its subject. Otherwise it says that the shape is
wrong. -/
theorem code_eq_invalidRange_iff (hs : schema.WellFormed) (h : validate schema v = .error es)
    (hr : r ∈ es) :
    (r.code = .invalidRange ↔ ∃ a, validate r.schema.unbounded r.subject = .ok a) ∧
      (r.code = .invalidType ↔ ¬ ∃ a, validate r.schema.unbounded r.subject = .ok a) := by
  have hcode : r.code = .invalidRange ↔ rejections r.schema.unbounded r.subject = [] := by
    obtain ⟨rfl, -⟩ := validate_eq_error_iff.mp h
    revert hs
    apply rejection_induction (h := hr)
      (motive := fun schema _ r => schema.WellFormed →
        (r.code = .invalidRange ↔ rejections r.schema.unbounded r.subject = []))
    case own =>
      intro schema v code hown hs
      exact code_iff_of_rejections_eq hown
    case key =>
      intro info value key entries name code hname hcode hs
      obtain ⟨-, hown⟩ := rejections_of_verifyKey hs.2 hcode
      exact code_iff_of_rejections_eq hown
    case part =>
      intro schema v segment schema' v' r hstep hr ih hs
      exact ih (hstep.wellFormed hs)
  rw [← rejections_eq_nil_iff, ← hcode]
  cases r.code <;> simp

/-- The label would do if it could be of any length, and a name is missing all the same. -/
theorem code_eq_invalidRange_iff_namelessContact :
    contacts.WellFormed ∧
      validate contacts namelessContact = .error [missingName, longLabel, fewDigits] ∧
      validate longLabel.schema.unbounded longLabel.subject = .ok (.string "mobile") ∧
      (longLabel.code = .invalidRange ↔
        ∃ a, validate longLabel.schema.unbounded longLabel.subject = .ok a) ∧
      (missingName.code = .invalidType ↔
        ¬ ∃ a, validate missingName.schema.unbounded missingName.subject = .ok a) :=
  ⟨wellFormed_contacts, validate_namelessContact, rfl,
    (code_eq_invalidRange_iff (r := longLabel) wellFormed_contacts validate_namelessContact
      (by simp)).1,
    (code_eq_invalidRange_iff (r := missingName) wellFormed_contacts validate_namelessContact
      (by simp)).2⟩

end

end Conform
