import Conform.Proofs.Entries.Sorted
import Conform.Json

/-!
# JSON trees

`Json.PartOf` relates a tree to all that stands in it, at any depth. A JSON value has distinct keys
in every object (`Json.DistinctKeys`), and its objects are sorted by key (`Json.Sorted`); a tree
that was read from text may have them in any order and repeat them. `normalize` sorts an object and
so, where keys are distinct, changes nothing that can be looked up.

* `Json.strong_induction`: what holds of a tree if it holds of all smaller ones holds of all trees.
-/

namespace Conform.Json

/-! ## Parts -/

/-- The first tree is the second one or stands in it at some depth. -/
inductive PartOf : Json → Json → Prop
  | self (j : Json) : PartOf j j
  | item {part item : Json} {items : List Json} (hmem : item ∈ items) (h : PartOf part item) :
      PartOf part (.array items)
  | member {part : Json} {members : List (String × Json)} {member : String × Json}
      (hmem : member ∈ members) (h : PartOf part member.2) : PartOf part (.object members)

theorem PartOf.trans {part middle whole : Json} (h : PartOf part middle)
    (h' : PartOf middle whole) : PartOf part whole := by
  induction h' with
  | self => exact h
  | item hmem _ ih => exact .item hmem ih
  | member hmem _ ih => exact .member hmem ih

theorem sizeOf_item_lt {items : List Json} {item : Json} (hmem : item ∈ items) :
    sizeOf item < sizeOf (array items) := by
  have := List.sizeOf_lt_of_mem hmem
  rw [array.sizeOf_spec]
  omega

theorem sizeOf_member_lt {members : List (String × Json)} {member : String × Json}
    (hmem : member ∈ members) : sizeOf member.2 < sizeOf (object members) := by
  have := List.sizeOf_lt_of_mem hmem
  obtain ⟨key, value⟩ := member
  rw [Prod.mk.sizeOf_spec] at this
  rw [object.sizeOf_spec]
  dsimp only
  omega

theorem PartOf.sizeOf_le {part j : Json} (h : PartOf part j) : sizeOf part ≤ sizeOf j := by
  induction h with
  | self => exact Nat.le_refl _
  | item hmem _ ih => exact Nat.le_trans ih (Nat.le_of_lt (sizeOf_item_lt hmem))
  | member hmem _ ih => exact Nat.le_trans ih (Nat.le_of_lt (sizeOf_member_lt hmem))

/-- What holds of a tree once it holds of all smaller trees holds of every tree. -/
theorem strong_induction {motive : Json → Prop}
    (h : ∀ j, (∀ part, sizeOf part < sizeOf j → motive part) → motive j) (j : Json) : motive j :=
  (measure (sizeOf : Json → Nat)).wf.induction j h

/-! ## Keys and numbers in a tree -/

/-- No object in the tree has two members with one key. -/
def DistinctKeys (j : Json) : Prop :=
  ∀ members, PartOf (.object members) j → (Entries.keys members).Nodup

/-- Every object in the tree has its members in ascending order of their keys. -/
def Sorted (j : Json) : Prop :=
  ∀ members, PartOf (.object members) j → Entries.Ascending members

/-- The tree is an integer or a double. -/
inductive IsNumber : Json → Prop
  | integer (n : Integer) : IsNumber (.scalar (.integer n))
  | float (x : Double) (finite : x.isFinite = true) : IsNumber (.scalar (.float x finite))

/-- The double stands in the tree. -/
def Mentions (x : Double) (j : Json) : Prop :=
  ∃ finite, PartOf (.scalar (.float x finite)) j

/-- No object in the tree has a number under the key. -/
def NoNumberUnder (key : String) (j : Json) : Prop :=
  ∀ members value, PartOf (.object members) j → (key, value) ∈ members → ¬ value.IsNumber

theorem DistinctKeys.part {part j : Json} (h : DistinctKeys j) (hpart : PartOf part j) :
    DistinctKeys part :=
  fun members hmembers => h members (hmembers.trans hpart)

theorem DistinctKeys.nodup {members : List (String × Json)} (h : DistinctKeys (.object members)) :
    (Entries.keys members).Nodup :=
  h members (.self _)

theorem Sorted.part {part j : Json} (h : Sorted j) (hpart : PartOf part j) : Sorted part :=
  fun members hmembers => h members (hmembers.trans hpart)

/-- Ascending keys are distinct. -/
theorem Sorted.distinctKeys {j : Json} (h : Sorted j) : DistinctKeys j :=
  fun members hmembers => (h members hmembers).nodup

theorem NoNumberUnder.part {key : String} {part j : Json} (h : NoNumberUnder key j)
    (hpart : PartOf part j) : NoNumberUnder key part :=
  fun members value hmembers => h members value (hmembers.trans hpart)

/-! ### Member by member -/

theorem isNumber_iff {j : Json} :
    j.IsNumber ↔ (∃ n, j = .scalar (.integer n)) ∨ ∃ x finite, j = .scalar (.float x finite) := by
  constructor
  · rintro (⟨n⟩ | ⟨x, finite⟩)
    · exact .inl ⟨n, rfl⟩
    · exact .inr ⟨x, finite, rfl⟩
  · rintro (⟨n, rfl⟩ | ⟨x, finite, rfl⟩)
    · exact .integer n
    · exact .float x finite

section

variable {P : List (String × Json) → Prop}

theorem forall_objects_array_iff {items : List Json} :
    (∀ members, PartOf (.object members) (.array items) → P members) ↔
      ∀ item ∈ items, ∀ members, PartOf (.object members) item → P members := by
  constructor
  · exact fun h item hmem members hpart => h members (.item hmem hpart)
  · rintro h members (_ | ⟨hmem, hpart⟩ | _)
    exact h _ hmem members hpart

/-- What holds of all objects in an object holds of this object and of all those in its members. -/
theorem forall_objects_object_iff {members : List (String × Json)} :
    (∀ others, PartOf (.object others) (.object members) → P others) ↔
      P members ∧ ∀ member ∈ members, ∀ others, PartOf (.object others) member.2 → P others := by
  constructor
  · exact fun h => ⟨h members (.self _), fun member hmem others hpart =>
      h others (.member hmem hpart)⟩
  · rintro ⟨hP, hmembers⟩ others (_ | _ | ⟨hmem, hpart⟩)
    · exact hP
    · exact hmembers _ hmem others hpart

end

theorem distinctKeys_scalar (s : Scalar) : DistinctKeys (.scalar s) := by
  rintro members ⟨⟩

theorem distinctKeys_array_iff {items : List Json} :
    DistinctKeys (.array items) ↔ ∀ item ∈ items, DistinctKeys item :=
  forall_objects_array_iff

/-- No key is repeated in an object when none is at the top and none in its members. -/
theorem distinctKeys_object_iff {members : List (String × Json)} :
    DistinctKeys (.object members) ↔
      (Entries.keys members).Nodup ∧ ∀ member ∈ members, DistinctKeys member.2 :=
  forall_objects_object_iff

theorem sorted_array_iff {items : List Json} :
    Sorted (.array items) ↔ ∀ item ∈ items, Sorted item :=
  forall_objects_array_iff

/-- An object is sorted when its keys ascend and the values of its members are sorted. -/
theorem sorted_object_iff {members : List (String × Json)} :
    Sorted (.object members) ↔
      Entries.Ascending members ∧ ∀ member ∈ members, Sorted member.2 :=
  forall_objects_object_iff

theorem noNumberUnder_scalar (key : String) (s : Scalar) : NoNumberUnder key (.scalar s) := by
  rintro members value ⟨⟩

theorem noNumberUnder_object_iff {key : String} {members : List (String × Json)} :
    NoNumberUnder key (.object members) ↔
      (∀ value, (key, value) ∈ members → ¬ value.IsNumber) ∧
        ∀ member ∈ members, NoNumberUnder key member.2 := by
  constructor
  · intro h
    exact ⟨fun value => h members value (.self _),
      fun member hmem => h.part (.member hmem (.self _))⟩
  · rintro ⟨hvalue, hmembers⟩ others value (_ | _ | ⟨hmem, hpart⟩)
    · exact hvalue value
    · exact hmembers _ hmem others value hpart

section

variable {x y : Double}

theorem mentions_scalar_iff {s : Scalar} :
    Mentions x (.scalar s) ↔ ∃ finite, s = .float x finite := by
  constructor
  · rintro ⟨finite, ⟨⟩⟩
    exact ⟨finite, rfl⟩
  · rintro ⟨finite, rfl⟩
    exact ⟨finite, .self _⟩

theorem not_mentions_scalar {s : Scalar} (h : ∀ y finite, s ≠ .float y finite) :
    ¬ Mentions x (.scalar s) := by
  intro hs
  obtain ⟨finite, hfloat⟩ := mentions_scalar_iff.mp hs
  exact h x finite hfloat

theorem mentions_array_iff {items : List Json} :
    Mentions x (.array items) ↔ ∃ item ∈ items, Mentions x item := by
  constructor
  · rintro ⟨finite, _ | ⟨hmem, hpart⟩ | _⟩
    exact ⟨_, hmem, finite, hpart⟩
  · rintro ⟨item, hmem, finite, hpart⟩
    exact ⟨finite, .item hmem hpart⟩

/-- The floats in an object are those of its members. -/
theorem mentions_object_iff {members : List (String × Json)} :
    Mentions x (.object members) ↔ ∃ member ∈ members, Mentions x member.2 := by
  constructor
  · rintro ⟨finite, _ | _ | ⟨hmem, hpart⟩⟩
    exact ⟨_, hmem, finite, hpart⟩
  · rintro ⟨member, hmem, finite, hpart⟩
    exact ⟨finite, .member hmem hpart⟩

theorem eq_of_mentions_ofDouble (h : Mentions x (ofDouble y)) : x = y := by
  rw [ofDouble] at h
  split at h
  · obtain ⟨finite, hfloat⟩ := mentions_scalar_iff.mp h
    cases hfloat
    rfl
  · exact absurd h (not_mentions_scalar nofun)

end

/-! ## Normal trees -/

theorem normalizeItems_eq_map (items : List Json) : normalizeItems items = items.map normalize := by
  induction items with
  | nil => rfl
  | cons item rest ih => rw [normalizeItems, ih, List.map_cons]

theorem normalizeMembers_eq_map (members : List (String × Json)) :
    normalizeMembers members = members.map fun member => (member.1, member.2.normalize) := by
  induction members with
  | nil => rfl
  | cons member rest ih => rw [normalizeMembers, ih, List.map_cons]

variable {members : List (String × Json)}

/-- The members of a normal object. -/
def normalMembers (members : List (String × Json)) : List (String × Json) :=
  Entries.sorted (normalizeMembers members)

theorem normalize_object (members : List (String × Json)) :
    normalize (.object members) = .object (normalMembers members) := by
  rw [normalize, normalMembers]

theorem ascending_normalMembers (members : List (String × Json)) :
    Entries.Ascending (normalMembers members) :=
  Entries.ascending_sorted _

theorem nodup_keys_normalMembers (members : List (String × Json)) :
    (Entries.keys (normalMembers members)).Nodup :=
  (ascending_normalMembers members).nodup

/-- Normalisation keeps what is found under a key, normalised itself. -/
theorem get?_normalMembers (hkeys : (Entries.keys members).Nodup) (key : String) :
    Entries.get? key (normalMembers members) = (Entries.get? key members).map normalize := by
  rw [normalMembers, normalizeMembers_eq_map, Entries.get?_sorted, Entries.get?_map]
  rwa [Entries.keys_map]

theorem mem_normalMembers {member : String × Json} (h : member ∈ normalMembers members) :
    ∃ source ∈ members, member = (source.1, source.2.normalize) := by
  rw [normalMembers, normalizeMembers_eq_map] at h
  obtain ⟨source, hmem, rfl⟩ := List.mem_map.mp (Entries.mem_of_mem_sorted h)
  exact ⟨source, hmem, rfl⟩

/-- Distinct keys lose no member in the normal form. -/
theorem perm_normalMembers (hkeys : (Entries.keys members).Nodup) :
    (normalMembers members).Perm (normalizeMembers members) := by
  apply Entries.perm_sorted
  rwa [normalizeMembers_eq_map, Entries.keys_map]

/-- A normal tree also repeats no key, even if the tree that it was made of does. -/
theorem sorted_normalize (j : Json) : Sorted j.normalize := by
  induction j using strong_induction with
  | h j ih =>
    cases j with
    | scalar s => rintro members ⟨⟩
    | array items =>
      rw [normalize, normalizeItems_eq_map, sorted_array_iff]
      intro item hitem
      obtain ⟨item, hmem, rfl⟩ := List.mem_map.mp hitem
      exact ih item (sizeOf_item_lt hmem)
    | object members =>
      rw [normalize_object, sorted_object_iff]
      refine ⟨ascending_normalMembers members, fun member hmember => ?_⟩
      obtain ⟨member, hmem, rfl⟩ := mem_normalMembers hmember
      exact ih member.2 (sizeOf_member_lt hmem)

theorem normalize_normalize (j : Json) : j.normalize.normalize = j.normalize := by
  induction j using strong_induction with
  | h j ih =>
    cases j with
    | scalar s => rfl
    | array items =>
      simp only [normalize, normalizeItems_eq_map, List.map_map, array.injEq]
      exact List.map_congr_left fun item hmem => ih item (sizeOf_item_lt hmem)
    | object members =>
      have hsame : normalizeMembers (normalMembers members) = normalMembers members := by
        rw [normalizeMembers_eq_map]
        conv_rhs => rw [← List.map_id (normalMembers members)]
        refine List.map_congr_left fun member hmember => ?_
        obtain ⟨source, hmem, rfl⟩ := mem_normalMembers hmember
        simp only [ih source.2 (sizeOf_member_lt hmem), id_eq]
      rw [normalize_object, normalize_object, normalMembers, hsame,
        Entries.sorted_eq_self (ascending_normalMembers members)]

end Conform.Json
