import Conform.Proofs.Double
import Conform.Proofs.Export

/-!
# Imported trees

JSON tells integers from floats and values do not, so a tree that goes through a value comes back
with a float for every integer: `Json.floated`. Everything else in it comes back as it was. What
export leaves out or turns into null (an absent entry, a number that is not finite), and what it
writes in another form (a big integer), does not occur in a value that was imported, because all
that stands in such a value was itself imported (`exists_source`).

* `toJson_ofJson`: import and then export.
* `imported_and_exported`: the two are inverse up to the form of numbers.
-/

namespace Conform

/-! ## Floats for integers -/

namespace Json

/-- An integer becomes the double nearest to it. -/
def Scalar.floated : Scalar → Scalar
  | .integer n => .float (.ofInt n.value) (Double.isFinite_ofInt n)
  | s => s

mutual

/-- Every integer, at any depth, becomes the float that is nearest to it. -/
def floated : Json → Json
  | .scalar s => .scalar s.floated
  | .array items => .array (floatedItems items)
  | .object members => .object (floatedMembers members)

def floatedItems : List Json → List Json
  | [] => []
  | item :: rest => floated item :: floatedItems rest

def floatedMembers : List (String × Json) → List (String × Json)
  | [] => []
  | (key, value) :: rest => (key, floated value) :: floatedMembers rest

end

theorem floatedItems_eq_map (items : List Json) : floatedItems items = items.map floated := by
  induction items with
  | nil => rfl
  | cons item rest ih => rw [floatedItems, ih, List.map_cons]

theorem floatedMembers_eq_map (members : List (String × Json)) :
    floatedMembers members = members.map fun member => (member.1, member.2.floated) := by
  induction members with
  | nil => rfl
  | cons member rest ih => rw [floatedMembers, ih, List.map_cons]

end Json

namespace Value

/-! ## What stands in an imported value -/

/-- Every part of an imported value was imported from a part of the tree. -/
theorem exists_source {part : Value} {j : Json} (h : PartOf part (ofJson j)) :
    ∃ source, Json.PartOf source j ∧ ofJson source = part := by
  induction j using Json.strong_induction with
  | h j ih =>
    cases j with
    | scalar s =>
      have hpart : part = ofScalar s := by
        cases s <;> cases h <;> rfl
      exact ⟨.scalar s, .self _, hpart.symm⟩
    | array items =>
      rw [ofJson, itemsOfJson_eq_map, partOf_sequence_iff] at h
      rcases h with rfl | ⟨v, hv, hpart⟩
      · exact ⟨.array items, .self _, by rw [ofJson, itemsOfJson_eq_map]⟩
      · obtain ⟨item, hmem, rfl⟩ := List.mem_map.mp hv
        obtain ⟨source, hsource, heq⟩ := ih item (Json.sizeOf_item_lt hmem) hpart
        exact ⟨source, .item hmem hsource, heq⟩
    | object members =>
      rw [ofJson, entriesOfJson_eq_map, partOf_mapping_iff] at h
      rcases h with rfl | ⟨entry, hentry, hpart⟩
      · exact ⟨.object members, .self _, by rw [ofJson, entriesOfJson_eq_map]⟩
      · obtain ⟨member, hmem, rfl⟩ := List.mem_map.mp hentry
        obtain ⟨source, hsource, heq⟩ := ih member.2 (Json.sizeOf_member_lt hmem) hpart
        exact ⟨source, .member hmem hsource, heq⟩

theorem ofJson_ne_absent (j : Json) : ofJson j ≠ .absent := by
  cases j with
  | scalar s => cases s <;> simp [ofJson, ofScalar]
  | _ => simp [ofJson]

theorem ofJson_ne_bigInt (j : Json) (n : BigInt) : ofJson j ≠ .bigInt n := by
  cases j with
  | scalar s => cases s <;> simp [ofJson, ofScalar]
  | _ => simp [ofJson]

theorem isFinite_of_ofJson_eq {j : Json} {x : Double} (h : ofJson j = .number x) :
    x.isFinite = true := by
  cases j with
  | scalar s =>
    cases s with
    | integer n =>
      cases h
      exact Double.isFinite_ofInt n
    | float y finite =>
      cases h
      exact finite
    | _ => simp [ofJson, ofScalar] at h
  | _ => simp [ofJson] at h

/-! ## There and back -/

/-- Nothing is left out on export, and members that are sorted stay where they are. -/
theorem toJson_ofJson {j : Json} : j.Sorted → (ofJson j).toJson = j.floated := by
  induction j using Json.strong_induction with
  | h j ih =>
    intro hj
    cases j with
    | scalar s =>
      cases s with
      | integer n => simp [ofJson, ofScalar, toJson, Json.ofDouble, Double.isFinite_ofInt,
          Json.floated, Json.Scalar.floated]
      | float x finite => simp [ofJson, ofScalar, toJson, Json.ofDouble, finite, Json.floated,
          Json.Scalar.floated]
      | _ => rfl
    | array items =>
      simp only [ofJson, itemsOfJson_eq_map, toJson, itemsToJson_eq_map, List.map_map,
        Json.floated, Json.floatedItems_eq_map, Json.array.injEq]
      exact List.map_congr_left fun item hmem =>
        ih item (Json.sizeOf_item_lt hmem) (Json.sorted_array_iff.mp hj item hmem)
    | object members =>
      obtain ⟨hmembers, hsorted⟩ := Json.sorted_object_iff.mp hj
      have hpresent : ∀ entry ∈ members.map fun member => (member.1, ofJson member.2),
          entry.2 ≠ .absent := by
        intro entry hentry
        obtain ⟨member, -, rfl⟩ := List.mem_map.mp hentry
        exact ofJson_ne_absent member.2
      have hexported : entriesToJson (entriesOfJson members) = Json.floatedMembers members := by
        rw [entriesOfJson_eq_map, entriesToJson_eq_map hpresent, Json.floatedMembers_eq_map,
          List.map_map]
        refine List.map_congr_left fun member hmem => ?_
        exact congrArg (Prod.mk member.1)
          (ih member.2 (Json.sizeOf_member_lt hmem) (hsorted member hmem))
      have hascending : Entries.Ascending (Json.floatedMembers members) := by
        rwa [Entries.Ascending, Json.floatedMembers_eq_map, Entries.keys_map]
      rw [ofJson, toJson, hexported, Entries.sorted_eq_self hascending, Json.floated]

/-- A value does not tell whether a number came as an integer or as a float. -/
theorem ofJson_floated (j : Json) : ofJson j.floated = ofJson j := by
  induction j using Json.strong_induction with
  | h j ih =>
    cases j with
    | scalar s => cases s <;> rfl
    | array items =>
      simp only [Json.floated, Json.floatedItems_eq_map, ofJson, itemsOfJson_eq_map, List.map_map,
        sequence.injEq]
      exact List.map_congr_left fun item hmem => ih item (Json.sizeOf_item_lt hmem)
    | object members =>
      simp only [Json.floated, Json.floatedMembers_eq_map, ofJson, entriesOfJson_eq_map,
        List.map_map, mapping.injEq]
      exact List.map_congr_left fun member hmem =>
        congrArg (Prod.mk member.1) (ih member.2 (Json.sizeOf_member_lt hmem))

/-- **Import and export are inverse up to the form of numbers.** An imported value has nothing in it
that export leaves out or writes in another form; the tree comes back with a float for every
integer, and that tree is imported as the very same value. -/
theorem imported_and_exported {j : Json} (h : j.Sorted) :
    (¬ PartOf .absent (ofJson j) ∧ (∀ n, ¬ PartOf (.bigInt n) (ofJson j)) ∧
      ∀ x, PartOf (.number x) (ofJson j) → x.isFinite = true) ∧
    (ofJson j).toJson = j.floated ∧
    ofJson (ofJson j).toJson = ofJson j := by
  refine ⟨⟨?_, ?_, ?_⟩, toJson_ofJson h, ?_⟩
  · intro hpart
    obtain ⟨source, -, hsource⟩ := exists_source hpart
    exact ofJson_ne_absent source hsource
  · intro n hpart
    obtain ⟨source, -, hsource⟩ := exists_source hpart
    exact ofJson_ne_bigInt source n hsource
  · intro x hpart
    obtain ⟨source, -, hsource⟩ := exists_source hpart
    exact isFinite_of_ofJson_eq hsource
  · rw [toJson_ofJson h, ofJson_floated]

/-- The first whole number that no double can be, beside a null, and below it a zero with a sign. -/
def beyondDoubles : Json :=
  .object [("a", .array [.scalar (.integer ⟨9007199254740993, by decide, by decide⟩), .null]),
    ("b", .object [("", .scalar (.float (.zero true) rfl))])]

/-- The whole number comes back as the float 2 ^ 53. -/
theorem imported_and_exported_beyondDoubles :
    beyondDoubles.Sorted ∧
    (ofJson beyondDoubles).toJson =
      .object [("a", .array [.scalar (.float ⟨false, 0x4340000000000000, by decide⟩ rfl), .null]),
        ("b", .object [("", .scalar (.float (.zero true) rfl))])] ∧
    ofJson (ofJson beyondDoubles).toJson = ofJson beyondDoubles := by
  have hnormal : beyondDoubles.normalize = beyondDoubles := by rfl
  have hsorted : beyondDoubles.Sorted := hnormal ▸ Json.sorted_normalize beyondDoubles
  have hrounded : Double.ofInt 9007199254740993 = ⟨false, 0x4340000000000000, by decide⟩ := by
    decide +kernel
  obtain ⟨-, htree, hagain⟩ := imported_and_exported hsorted
  refine ⟨hsorted, htree.trans ?_, hagain⟩
  simp [beyondDoubles, Json.floated, Json.floatedItems, Json.floatedMembers, Json.Scalar.floated,
    Json.null, hrounded]

end Value

end Conform
