import Conform.Proofs.Double
import Conform.Proofs.Entries.Sorted
import Conform.Proofs.Lists
import Conform.Proofs.Schema
import Conform.Schema.Equality

/-!
# Equal schemas

Lists of schemas are equal one by one, and fields are equal if there are as many and every one of
them has an equal one under its name. In a well-formed schema the names are distinct, so this is the
same as to have the same names and to look every name up in both (`SameNode.object`), which favours
neither side. `equal_iff_sameNode` takes a comparison apart into that of two nodes and that of the
schemas inside; what is to be shown of equality then follows by induction on these.

* `equal_symm`, `equal_trans`.
* `equal_self_iff`: a schema differs from itself exactly if some number in it does.
-/

namespace Conform

/-! ## Leaves -/

/-- A bound is compared as if it were a number, and two bounds that are not set are equal. -/
theorem Double.equalOption_symm {x y : Option Double} (h : Double.equalOption x y = true) :
    Double.equalOption y x = true := by
  cases x <;> cases y <;> simp only [Double.equalOption, Bool.false_eq_true] at h ⊢
  exact Double.equal_comm _ _ ▸ h

theorem Double.equalOption_trans {x y z : Option Double} (h : Double.equalOption x y = true)
    (h' : Double.equalOption y z = true) : Double.equalOption x z = true := by
  cases x <;> cases y <;> cases z <;>
    simp only [Double.equalOption, Bool.false_eq_true] at h h' ⊢
  exact Double.equal_trans h h'

/-- A bound differs from itself only if it is a NaN. -/
theorem Double.equalOption_self_iff {x : Option Double} :
    Double.equalOption x x = true ↔ ∀ y ∈ x, y.isNaN = false := by
  cases x with
  | none => simp [Double.equalOption]
  | some x => simp [Double.equalOption, Double.equal_self]

/-- Constants of different types are never equal, so neither side is favoured. -/
theorem Constant.equal_symm {c c' : Constant} (h : c.equal c' = true) : c'.equal c = true := by
  cases c <;> cases c' <;> simp only [Constant.equal, Bool.false_eq_true, beq_iff_eq] at h ⊢
  · exact h.symm
  · exact Double.equal_comm _ _ ▸ h

theorem Constant.equal_trans {c c' c'' : Constant} (h : c.equal c' = true)
    (h' : c'.equal c'' = true) : c.equal c'' = true := by
  cases c <;> cases c' <;> cases c'' <;>
    simp only [Constant.equal, Bool.false_eq_true, beq_iff_eq] at h h' ⊢
  · exact h.trans h'
  · exact Double.equal_trans h h'

namespace Leaf

/-- The bounds of a number leaf that are set, or the constant of a literal one. -/
def numbers : Leaf → List Double
  | number range => range.min.toList ++ range.max.toList
  | literal (.number x) => [x]
  | _ => []

/-- Leaves are equal in both directions. -/
theorem equal_symm {l l' : Leaf} (h : l.equal l' = true) : l'.equal l = true := by
  cases l <;> cases l' <;>
    simp only [equal, Bool.false_eq_true, Bool.and_eq_true, beq_iff_eq] at h ⊢
  case string.string => exact h.symm
  case number.number =>
    exact ⟨Double.equalOption_symm h.1, Double.equalOption_symm h.2⟩
  case literal.literal => exact Constant.equal_symm h

/-- Equal leaves are of one kind, and their bounds or constants are equal one by one. -/
theorem equal_trans {l l' l'' : Leaf} (h : l.equal l' = true) (h' : l'.equal l'' = true) :
    l.equal l'' = true := by
  cases l <;> cases l' <;> simp only [equal, Bool.false_eq_true] at h <;> cases l'' <;>
    simp only [equal, Bool.false_eq_true, Bool.and_eq_true, beq_iff_eq] at h h' ⊢
  case string.string.string => exact h.trans h'
  case number.number.number =>
    exact ⟨Double.equalOption_trans h.1 h'.1, Double.equalOption_trans h.2 h'.2⟩
  case literal.literal.literal => exact Constant.equal_trans h h'

/-- A leaf differs from itself exactly if one of its own numbers does. -/
theorem equal_self_iff {l : Leaf} : l.equal l = true ↔ ∀ x ∈ l.numbers, x.isNaN = false := by
  cases l with
  | string => simp [equal, numbers]
  | number range =>
    simp only [equal, numbers, Bool.and_eq_true, Double.equalOption_self_iff, List.mem_append,
      Option.mem_toList]
    exact ⟨fun h x hx => hx.elim (h.1 x) (h.2 x),
      fun h => ⟨fun x hx => h x (.inl hx), fun x hx => h x (.inr hx)⟩⟩
  | bigint | boolean => simp [equal, numbers]
  | literal value =>
    cases value with
    | string => simp [equal, Constant.equal, numbers]
    | number x => simp [equal, Constant.equal, numbers, Double.equal_self]

/-- The numbers of a leaf are those that have to be finite. -/
theorem FiniteNumbers.of_mem_numbers {l : Leaf} {x : Double} (h : l.FiniteNumbers)
    (hmem : x ∈ l.numbers) : x.isFinite = true := by
  cases l with
  | number range =>
    rcases List.mem_append.mp hmem with hmem | hmem
    · exact h.1 x (Option.mem_toList.mp hmem)
    · exact h.2 x (Option.mem_toList.mp hmem)
  | literal value =>
    cases value with
    | string => cases hmem
    | number y => exact List.mem_singleton.mp hmem ▸ h
  | _ => cases hmem

end Leaf

namespace Schema

variable {schema s t u : Schema}

/-! ## Parts -/

/-- The schemas right inside a schema. -/
def parts : Schema → List Schema
  | leaf .. => []
  | array _ element _ => [element]
  | tuple _ positions => positions
  | object _ fields => fields.map (·.2)
  | record _ value key => value :: key.toList
  | union _ alternatives => alternatives

/-- A field that is found by its name is a part. -/
theorem mem_parts_of_get? {info : Info} {fields : List (String × Schema)} {name : String}
    (h : Entries.get? name fields = some s) : s ∈ (object info fields).parts :=
  List.mem_map.mpr ⟨(name, s), Entries.mem_of_get? h, rfl⟩

theorem key_mem_parts {info : Info} {value k : Schema} {key : Option Schema} (h : key = some k) :
    k ∈ (record info value key).parts :=
  List.mem_cons_of_mem _ (Option.mem_toList.mpr h)

/-- What holds of a schema if it holds of all schemas right inside it holds of all schemas. -/
theorem parts_induction {motive : Schema → Prop}
    (h : ∀ schema, (∀ part ∈ schema.parts, motive part) → motive schema) (schema : Schema) :
    motive schema := by
  induction schema with
  | leaf info l brand => exact h _ (by simp [parts])
  | array info element length ih => exact h _ (by simpa [parts] using ih)
  | tuple info positions ih => exact h _ ih
  | object info fields ih => exact h _ (List.forall_mem_map.mpr ih)
  | record info value key ihvalue ihkey =>
    refine h _ fun part hmem => ?_
    rcases List.mem_cons.mp hmem with rfl | hmem
    · exact ihvalue
    · exact ihkey part (Option.mem_toList.mp hmem)
  | union info alternatives ih => exact h _ ih

/-- The key schema is a text schema, which is well-formed in any case. -/
theorem WellFormed.of_mem_parts {part : Schema} (h : schema.WellFormed)
    (hmem : part ∈ schema.parts) : part.WellFormed := by
  cases schema with
  | leaf => cases hmem
  | array => exact List.mem_singleton.mp hmem ▸ h
  | tuple => exact wellFormed_tuple.mp h part hmem
  | object =>
    obtain ⟨field, hfield, rfl⟩ := List.mem_map.mp hmem
    exact (wellFormed_object.mp h).2 field hfield
  | record =>
    obtain ⟨hvalue, hkey⟩ := wellFormed_record.mp h
    rcases List.mem_cons.mp hmem with rfl | hmem
    · exact hvalue
    · exact wellFormed_of_kind_string (hkey part (Option.mem_toList.mp hmem))
  | union => exact (wellFormed_union.mp h).2 part hmem

/-- The numbers in a part are numbers in the whole. -/
theorem FiniteNumbers.of_mem_parts {part : Schema} (h : schema.FiniteNumbers)
    (hmem : part ∈ schema.parts) : part.FiniteNumbers := by
  cases schema with
  | leaf => cases hmem
  | array => exact List.mem_singleton.mp hmem ▸ h
  | tuple => exact finiteNumbers_tuple.mp h part hmem
  | object =>
    obtain ⟨field, hfield, rfl⟩ := List.mem_map.mp hmem
    exact finiteNumbers_object.mp h field hfield
  | record =>
    obtain ⟨hvalue, hkey⟩ := finiteNumbers_record.mp h
    rcases List.mem_cons.mp hmem with rfl | hmem
    · exact hvalue
    · exact hkey part (Option.mem_toList.mp hmem)
  | union => exact finiteNumbers_union.mp h part hmem

/-! ## Numbers in a schema -/

/-- The bounds and the constant of a node; the schemas inside are not looked at. -/
def ownNumbers : Schema → List Double
  | leaf _ l _ => l.numbers
  | _ => []

/-- The number is a bound or the constant of a node, at some depth. -/
inductive Mentions (x : Double) : Schema → Prop
  | here {schema : Schema} (h : x ∈ schema.ownNumbers) : Mentions x schema
  | inside {schema part : Schema} (hmem : part ∈ schema.parts) (h : Mentions x part) :
      Mentions x schema

/-- A number in a schema is one of the node itself or stands in a part. -/
theorem mentions_iff {x : Double} :
    Mentions x schema ↔ x ∈ schema.ownNumbers ∨ ∃ part ∈ schema.parts, Mentions x part := by
  constructor
  · intro h
    cases h with
    | here hmem => exact .inl hmem
    | inside hmem hpart => exact .inr ⟨_, hmem, hpart⟩
  · intro h
    rcases h with hmem | ⟨part, hmem, hpart⟩
    · exact .here hmem
    · exact .inside hmem hpart

theorem mentions_leaf_iff {x : Double} {info : Info} {l : Leaf} {brand : Option Brand} :
    Mentions x (leaf info l brand) ↔ x ∈ l.numbers := by
  rw [mentions_iff]
  simp [ownNumbers, parts]

theorem mentions_object_iff {x : Double} {info : Info} {fields : List (String × Schema)} :
    Mentions x (object info fields) ↔ ∃ field ∈ fields, Mentions x field.2 := by
  rw [mentions_iff]
  constructor
  · intro h
    rcases h with hmem | ⟨part, hmem, hpart⟩
    · cases hmem
    · obtain ⟨field, hfield, rfl⟩ := List.mem_map.mp hmem
      exact ⟨field, hfield, hpart⟩
  · intro ⟨field, hfield, hpart⟩
    exact .inr ⟨field.2, List.mem_map_of_mem hfield, hpart⟩

/-- In a schema with finite numbers every number that it mentions is finite. -/
theorem FiniteNumbers.of_mentions {x : Double} (h : Mentions x schema) :
    schema.FiniteNumbers → x.isFinite = true := by
  induction h with
  | @here schema hmem =>
    intro hfinite
    cases schema with
    | leaf => exact Leaf.FiniteNumbers.of_mem_numbers hfinite hmem
    | _ => cases hmem
  | inside hmem _ ih => exact fun hfinite => ih (hfinite.of_mem_parts hmem)

/-! ## Nodes that say the same -/

/-- Lists that are equal have the same length. -/
theorem equalList_iff {schemas others : List Schema} :
    equalList schemas others = true ↔
      List.Forall₂ (fun schema other => schema.equal other = true) schemas others := by
  induction schemas generalizing others with
  | nil => cases others <;> simp [equalList]
  | cons schema rest ih => cases others <;> simp [equalList, ih]

/-- Every field is looked up among the others, whatever the order. -/
theorem equalFields_iff {fields others : List (String × Schema)} :
    equalFields fields others = true ↔
      ∀ field ∈ fields, ∃ other, Entries.get? field.1 others = some other ∧
        field.2.equal other = true := by
  induction fields with
  | nil => simp [equalFields]
  | cons field rest ih =>
    cases hget : Entries.get? field.1 others <;> simp [equalFields, hget, ih]

/-- The two nodes are the same but for numbers, which are equal, and for the schemas inside, which
are related. -/
inductive SameNode (r : Schema → Schema → Prop) : Schema → Schema → Prop
  | leaf {info : Info} {l l' : Leaf} {brand : Option Brand} (h : l.equal l' = true) :
      SameNode r (.leaf info l brand) (.leaf info l' brand)
  | array {info : Info} {element element' : Schema} {length : Bounds UInt64}
      (h : r element element') :
      SameNode r (.array info element length) (.array info element' length)
  | tuple {info : Info} {positions positions' : List Schema}
      (h : List.Forall₂ r positions positions') :
      SameNode r (.tuple info positions) (.tuple info positions')
  | object {info : Info} {fields fields' : List (String × Schema)}
      (hnames : (Entries.keys fields).Perm (Entries.keys fields'))
      (h : ∀ name, Option.Rel r (Entries.get? name fields) (Entries.get? name fields')) :
      SameNode r (.object info fields) (.object info fields')
  | record {info : Info} {value value' : Schema} {key key' : Option Schema} (h : r value value')
      (hkey : Option.Rel r key key') :
      SameNode r (.record info value key) (.record info value' key')
  | union {info : Info} {alternatives alternatives' : List Schema}
      (h : List.Forall₂ r alternatives alternatives') :
      SameNode r (.union info alternatives) (.union info alternatives')

namespace SameNode

variable {r r' r'' : Schema → Schema → Prop}

/-- What is said of the parts may be replaced by what follows from it. -/
theorem imp (h : SameNode r s t) (hr : ∀ a ∈ s.parts, ∀ b ∈ t.parts, r a b → r' a b) :
    SameNode r' s t := by
  cases h with
  | leaf h => exact .leaf h
  | array h => exact .array (hr _ (by simp [parts]) _ (by simp [parts]) h)
  | tuple h => exact .tuple (forall₂_imp_mem h hr)
  | object hnames h =>
    exact .object hnames fun name => rel_imp (h name) fun a b ha hb =>
      hr a (mem_parts_of_get? ha) b (mem_parts_of_get? hb)
  | record h hkey =>
    refine .record (hr _ (by simp [parts]) _ (by simp [parts]) h) ?_
    exact rel_imp hkey fun a b ha hb => hr a (key_mem_parts ha) b (key_mem_parts hb)
  | union h => exact .union (forall₂_imp_mem h hr)

/-- The comparison of nodes favours neither side. -/
theorem symm (h : SameNode r s t) : SameNode (flip r) t s := by
  cases h with
  | leaf h => exact .leaf (Leaf.equal_symm h)
  | array h => exact .array h
  | tuple h => exact .tuple (List.Forall₂.flip (R := flip r) h)
  | object hnames h => exact .object hnames.symm fun name => rel_flip (h name)
  | record h hkey => exact .record h (rel_flip hkey)
  | union h => exact .union (List.Forall₂.flip (R := flip r) h)

/-- Comparisons of nodes are chained if those of their parts are. -/
theorem trans (h : SameNode r s t) (h' : SameNode r' t u)
    (hr : ∀ a b c, r a b → r' b c → r'' a c) : SameNode r'' s u := by
  cases h with
  | leaf h =>
    cases h' with
    | leaf h' => exact .leaf (Leaf.equal_trans h h')
  | array h =>
    cases h' with
    | array h' => exact .array (hr _ _ _ h h')
  | tuple h =>
    cases h' with
    | tuple h' => exact .tuple (forall₂_trans h h' hr)
  | object hnames h =>
    cases h' with
    | object hnames' h' =>
      exact .object (hnames.trans hnames') fun name => rel_trans (h name) (h' name) hr
  | record h hkey =>
    cases h' with
    | record h' hkey' => exact .record (hr _ _ _ h h') (rel_trans hkey hkey' hr)
  | union h =>
    cases h' with
    | union h' => exact .union (forall₂_trans h h' hr)

/-- A node is compared to itself by its own numbers and then by its parts. -/
theorem self_iff (hs : s.WellFormed) :
    SameNode r s s ↔ (∀ x ∈ s.ownNumbers, x.isNaN = false) ∧ ∀ part ∈ s.parts, r part part := by
  constructor
  · intro h
    cases h with
    | leaf h => exact ⟨Leaf.equal_self_iff.mp h, by simp [parts]⟩
    | array h => exact ⟨by simp [ownNumbers], by simpa [parts] using h⟩
    | tuple h => exact ⟨by simp [ownNumbers], List.forall₂_same.mp h⟩
    | object _ h =>
      refine ⟨by simp [ownNumbers], List.forall_mem_map.mpr fun field hmem => ?_⟩
      have hfield := h field.1
      rw [Entries.get?_eq_some_of_mem (wellFormed_object.mp hs).1 hmem] at hfield
      cases hfield with
      | some h => exact h
    | @record _ _ _ key _ h hkey =>
      refine ⟨by simp [ownNumbers], fun part hmem => ?_⟩
      rcases List.mem_cons.mp hmem with rfl | hmem
      · exact h
      · cases hkey with
        | none => cases hmem
        | some h => exact List.mem_singleton.mp hmem ▸ h
    | union h => exact ⟨by simp [ownNumbers], List.forall₂_same.mp h⟩
  · rintro ⟨hnumbers, hparts⟩
    cases s with
    | leaf => exact .leaf (Leaf.equal_self_iff.mpr hnumbers)
    | array => exact .array (hparts _ (by simp [parts]))
    | tuple => exact .tuple (List.forall₂_same.mpr hparts)
    | object info fields =>
      refine .object (.refl _) fun name => ?_
      cases hget : Entries.get? name fields with
      | none => exact .none
      | some part => exact .some (hparts part (mem_parts_of_get? hget))
    | record info value key =>
      refine .record (hparts value (by simp [parts])) ?_
      cases key with
      | none => exact .none
      | some key => exact .some (hparts key (key_mem_parts rfl))
    | union => exact .union (List.forall₂_same.mpr hparts)

end SameNode

/-! ## Equality -/

/-- Schemas are equal if the nodes say the same and the parts are equal. Only the side whose fields
are looked up has to have distinct names. -/
theorem equal_iff_sameNode (hs : s.WellFormed) :
    s.equal t = true ↔ SameNode (fun a b => a.equal b = true) s t := by
  constructor
  · intro h
    cases s with
    | leaf info l brand =>
      cases t with
      | leaf info' l' brand' =>
        simp only [equal, Bool.and_eq_true, beq_iff_eq] at h
        obtain ⟨⟨rfl, hl⟩, rfl⟩ := h
        exact .leaf hl
      | _ => simp [equal] at h
    | array info element length =>
      cases t with
      | array info' element' length' =>
        simp only [equal, Bool.and_eq_true, beq_iff_eq] at h
        obtain ⟨⟨rfl, helement⟩, rfl⟩ := h
        exact .array helement
      | _ => simp [equal] at h
    | tuple info positions =>
      cases t with
      | tuple info' positions' =>
        simp only [equal, Bool.and_eq_true, beq_iff_eq] at h
        obtain ⟨rfl, hpositions⟩ := h
        exact .tuple (equalList_iff.mp hpositions)
      | _ => simp [equal] at h
    | object info fields =>
      cases t with
      | object info' fields' =>
        simp only [equal, Bool.and_eq_true, beq_iff_eq] at h
        obtain ⟨⟨rfl, hlength⟩, hfields⟩ := h
        have hnames := (wellFormed_object.mp hs).1
        have hfound := equalFields_iff.mp hfields
        exact .object (Entries.perm_keys_of_found hnames hlength hfound)
          (Entries.rel_get?_of_found hnames hlength hfound)
      | _ => simp [equal] at h
    | record info value key =>
      cases t with
      | record info' value' key' =>
        cases key <;> cases key' <;>
          simp only [equal, Bool.false_eq_true, Bool.and_eq_true, beq_iff_eq] at h
        case none.none =>
          obtain ⟨rfl, hvalue⟩ := h
          exact .record hvalue .none
        case some.some =>
          obtain ⟨⟨rfl, hvalue⟩, hkey⟩ := h
          exact .record hvalue (.some hkey)
      | _ => cases key <;> simp [equal] at h
    | union info alternatives =>
      cases t with
      | union info' alternatives' =>
        simp only [equal, Bool.and_eq_true, beq_iff_eq] at h
        obtain ⟨rfl, halternatives⟩ := h
        exact .union (equalList_iff.mp halternatives)
      | _ => simp [equal] at h
  · intro h
    cases h with
    | leaf h => simp [equal, h]
    | array h => simp [equal, h]
    | tuple h => simp [equal, equalList_iff.mpr h]
    | object hnames h =>
      obtain ⟨hlength, hfields⟩ :=
        Entries.found_of_rel_get? (wellFormed_object.mp hs).1 hnames h
      simp [equal, hlength, equalFields_iff.mpr hfields]
    | record h hkey =>
      cases hkey with
      | none => simp [equal, h]
      | some hkey => simp [equal, h, hkey]
    | union h => simp [equal, equalList_iff.mpr h]

/-- Equality of well-formed schemas is symmetric. -/
theorem equal_symm (hs : s.WellFormed) (ht : t.WellFormed) (h : s.equal t = true) :
    t.equal s = true := by
  induction s using parts_induction generalizing t with
  | h s ih =>
    have hnodes := ((equal_iff_sameNode hs).mp h).imp fun a ha b hb hab =>
      ih a ha (hs.of_mem_parts ha) (ht.of_mem_parts hb) hab
    exact (equal_iff_sameNode ht).mpr hnodes.symm

/-- Equality of well-formed schemas is transitive. -/
theorem equal_trans (hs : s.WellFormed) (ht : t.WellFormed) (hst : s.equal t = true)
    (htu : t.equal u = true) : s.equal u = true := by
  induction s using parts_induction generalizing t u with
  | h s ih =>
    have hleft : SameNode (fun a b => ∀ c, b.equal c = true → a.equal c = true) s t :=
      ((equal_iff_sameNode hs).mp hst).imp fun a ha b hb hab _ hbc =>
        ih a ha (hs.of_mem_parts ha) (ht.of_mem_parts hb) hab hbc
    have hright := (equal_iff_sameNode ht).mp htu
    exact (equal_iff_sameNode hs).mpr (hleft.trans hright fun a b c hab hbc => hab c hbc)

/-- A schema differs from itself exactly if a NaN stands in it. -/
theorem equal_self_iff (hs : s.WellFormed) :
    s.equal s = true ↔ ∀ x, Mentions x s → x.isNaN = false := by
  induction s using parts_induction with
  | h s ih =>
    rw [equal_iff_sameNode hs, SameNode.self_iff hs]
    constructor
    · rintro ⟨hnumbers, hparts⟩ x hx
      cases hx with
      | here hmem => exact hnumbers x hmem
      | inside hmem hx => exact (ih _ hmem (hs.of_mem_parts hmem)).mp (hparts _ hmem) x hx
    · intro h
      refine ⟨fun x hmem => h x (.here hmem), fun part hmem => ?_⟩
      exact (ih part hmem (hs.of_mem_parts hmem)).mpr fun x hx => h x (.inside hmem hx)

end Schema

end Conform
