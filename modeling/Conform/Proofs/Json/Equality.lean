import Conform.Proofs.Double
import Conform.Proofs.Json

/-!
# Equality of JSON trees

Two numbers are equal if they have the same form and are equal in it: integers as integers and
floats as floating-point numbers, so that the two zeros are equal but the integer 1 is no float.
Objects are compared without regard to the order of their members.

* `equal_object_of_rel`: objects are equal if the same stands under each key, where anything does.
-/

namespace Conform

namespace Json

/-- Doubles are compared as floating-point numbers, and an integer is equal to no double. -/
def Scalar.equal : Scalar → Scalar → Bool
  | float x _, float y _ => x.equal y
  | s, s' => s == s'

mutual

/-- Equality of trees: members may stand in any order. -/
def equal : Json → Json → Bool
  | .scalar s, .scalar s' => s.equal s'
  | .array items, .array others => equalItems items others
  | .object members, .object others =>
    members.length == others.length && equalMembers members others
  | _, _ => false

def equalItems : List Json → List Json → Bool
  | [], [] => true
  | item :: rest, other :: others => equal item other && equalItems rest others
  | _, _ => false

/-- Every member has an equal one among the others. -/
def equalMembers : List (String × Json) → List (String × Json) → Bool
  | [], _ => true
  | (key, value) :: rest, others =>
    (match Entries.get? key others with
      | some other => equal value other
      | none => false) && equalMembers rest others

end

theorem Scalar.equal_self (s : Scalar) : s.equal s = true := by
  cases s with
  | float x finite => exact Double.equal_self.mpr (Double.isNaN_of_isFinite finite)
  | _ => simp [equal]

theorem equal_scalar_self (s : Scalar) : (Json.scalar s).equal (.scalar s) = true :=
  s.equal_self

/-- Equal doubles have equal trees; two infinities are both null. -/
theorem equal_ofDouble {x y : Double} (h : x.equal y = true) :
    (Json.ofDouble x).equal (.ofDouble y) = true := by
  have hfinite := Double.isFinite_of_equal h
  by_cases hx : x.isFinite = true
  · have hy : y.isFinite = true := hfinite ▸ hx
    simpa [Json.ofDouble, hx, hy, equal, Scalar.equal] using h
  · have hy : ¬ y.isFinite = true := hfinite ▸ hx
    rw [Json.ofDouble, Json.ofDouble, dif_neg hx, dif_neg hy]
    exact equal_scalar_self _

/-- Arrays that are equal have the same length. -/
theorem equalItems_iff {items others : List Json} :
    equalItems items others = true ↔ List.Forall₂ (fun v w => v.equal w = true) items others := by
  induction items generalizing others with
  | nil => cases others <;> simp [equalItems]
  | cons item rest ih => cases others <;> simp [equalItems, ih]

/-- Every member is looked up among the others, whatever the order. -/
theorem equalMembers_iff {members others : List (String × Json)} :
    equalMembers members others = true ↔
      ∀ member ∈ members, ∃ other, Entries.get? member.1 others = some other ∧
        member.2.equal other = true := by
  induction members with
  | nil => simp [equalMembers]
  | cons member rest ih =>
    cases hget : Entries.get? member.1 others <;> simp [equalMembers, hget, ih]

/-- Objects are equal if every key leads to equal trees in both or is in neither. -/
theorem equal_object_of_rel {members others : List (String × Json)}
    (hkeys : (Entries.keys members).Nodup) (hkeys' : (Entries.keys others).Nodup)
    (h : ∀ key, Option.Rel (fun v w => v.equal w = true) (Entries.get? key members)
      (Entries.get? key others)) : equal (.object members) (.object others) = true := by
  obtain ⟨hlength, hmembers⟩ :=
    Entries.found_of_rel_get? hkeys (Entries.perm_keys_of_rel_get? hkeys hkeys' h) h
  rw [equal, equalMembers_iff.mpr hmembers, hlength]
  simp

end Json

end Conform
