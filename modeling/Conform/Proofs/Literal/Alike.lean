import Conform.Proofs.Json.Equality
import Conform.Proofs.Literal.RoundTrip

/-!
# Equal schemas are written alike

The literals of two equal schemas hold equal values under the same keys: an unset key is left out of
both, bounds and constants are equal as floating-point numbers, and the fields of an object may
stand in another order. Sorted by keys the two literals are therefore equal trees.

* `alike_nodeJson`: two nodes are alike if what the keys of their kind hold is.
* `alike_toLiteral`: so are the literals of equal schemas.
-/

namespace Conform.Schema

open Literal
open Entries (get? keys)

/-- Sorted by keys the trees are equal. -/
def Alike (v w : Json) : Prop :=
  v.normalize.equal w.normalize = true

theorem alike_scalar (s : Json.Scalar) : Alike (.scalar s) (.scalar s) :=
  Json.equal_scalar_self s

theorem alike_brandJson (brand : Brand) : Alike (brandJson brand) (brandJson brand) := by
  have hpart (text : String) : (Json.string text).equal (.string text) = true :=
    Json.equal_scalar_self _
  exact Json.equalItems_iff.mpr (.cons (hpart _) (.cons (hpart _) .nil))

/-- Equal numbers are written alike, the two zeros among them. -/
theorem alike_ofDouble {x y : Double} (h : x.equal y = true) :
    Alike (.ofDouble x) (.ofDouble y) := by
  have hnormal (z : Double) : (Json.ofDouble z).normalize = .ofDouble z := by
    unfold Json.ofDouble
    split <;> rfl
  rw [Alike, hnormal, hnormal]
  exact Json.equal_ofDouble h

theorem rel_map_self {α : Type} {f : α → Json} (hf : ∀ a, Alike (f a) (f a)) (a : Option α) :
    Option.Rel Alike (a.map f) (a.map f) := by
  cases a with
  | none => exact .none
  | some a => exact .some (hf a)

theorem rel_ofDouble {x y : Option Double} (h : Double.equalOption x y = true) :
    Option.Rel Alike (x.map Json.ofDouble) (y.map Json.ofDouble) := by
  cases x <;> cases y <;> simp only [Double.equalOption, Bool.false_eq_true] at h
  · exact .none
  · exact .some (alike_ofDouble h)

theorem rel_cons {key name : String} {v w : Json} {rest rest' : List (String × Json)}
    (hv : Alike v w) (h : Option.Rel Alike (get? name rest) (get? name rest')) :
    Option.Rel Alike (get? name ((key, v) :: rest)) (get? name ((key, w) :: rest')) := by
  by_cases hkey : key = name
  · simpa [get?, hkey] using hv
  · simpa [get?, hkey] using h

/-- Nodes are alike if what they say in each slot is. -/
theorem alike_nodeJson {kind : Kind} {own own' : List (String × Json)} (info : Info)
    (hown : (keys own).Sublist ((slots kind).map Slot.name))
    (hown' : (keys own').Sublist ((slots kind).map Slot.name))
    (h : ∀ slot : Slot, Option.Rel Alike (get? slot.name own) (get? slot.name own')) :
    Alike (nodeJson kind own info) (nodeJson kind own' info) := by
  rw [Alike, normalize_nodeJson, normalize_nodeJson]
  refine Json.equal_object_of_rel (Json.nodup_keys_normalMembers _)
    (Json.nodup_keys_normalMembers _) fun key => ?_
  rw [Json.get?_normalMembers (nodup_keys_nodeMembers hown info),
    Json.get?_normalMembers (nodup_keys_nodeMembers hown' info)]
  refine rel_map (r := Alike) ?_ fun _ _ h => h
  by_cases hkey : isCommon key = true ∨ ∃ slot ∈ slots kind, slot.name = key
  · rcases hkey with hcommon | ⟨slot, -, rfl⟩
    · rcases isCommon_iff.mp hcommon with rfl | ⟨m, rfl⟩
      · exact .some (alike_scalar _)
      · rw [get?_nodeMembers_shared hown, get?_nodeMembers_shared hown']
        cases hjson : (headerOf info).json m with
        | none => exact .none
        | some value =>
          obtain ⟨s, rfl⟩ := Header.exists_scalar_of_json hjson
          exact .some (alike_scalar s)
    · rw [get?_nodeMembers_slot, get?_nodeMembers_slot]
      exact h slot
  · rw [get?_nodeMembers_of_unknown hown hkey, get?_nodeMembers_of_unknown hown' hkey]
    exact .none

theorem rel_lengthValue (length : Bounds UInt64) (slot : Slot) :
    Option.Rel Alike (lengthValue length slot) (lengthValue length slot) := by
  cases slot with
  | minLength | maxLength => exact rel_map_self (fun _ => alike_scalar _) _
  | _ => exact .none

/-- Equal leaves say alike in each slot. -/
theorem rel_leafValue {l l' : Leaf} (brand : Option Brand) (h : l.equal l' = true) (slot : Slot) :
    Option.Rel Alike (leafValue l brand slot) (leafValue l' brand slot) := by
  have hbrand := rel_map_self alike_brandJson brand
  cases l <;> cases l' <;> simp only [Leaf.equal, Bool.false_eq_true] at h
  case string.string length length' =>
    obtain rfl : length = length' := by simpa using h
    cases slot with
    | brand => exact hbrand
    | minLength => exact rel_lengthValue length .minLength
    | maxLength => exact rel_lengthValue length .maxLength
    | _ => exact .none
  case number.number range range' =>
    obtain ⟨hmin, hmax⟩ := (Bool.and_eq_true _ _).mp h
    cases slot with
    | brand => exact hbrand
    | min => exact rel_ofDouble hmin
    | max => exact rel_ofDouble hmax
    | _ => exact .none
  case bigint.bigint | boolean.boolean =>
    cases slot with
    | brand => exact hbrand
    | _ => exact .none
  case literal.literal c c' =>
    cases slot with
    | brand => exact hbrand
    | contents =>
      refine .some ?_
      cases c <;> cases c' <;> simp only [Constant.equal, Bool.false_eq_true, beq_iff_eq] at h
      · rw [h]
        exact alike_scalar _
      · exact alike_ofDouble h
    | _ => exact .none

theorem kind_eq_of_leafEqual {l l' : Leaf} (h : l.equal l' = true) : l.kind = l'.kind := by
  cases l <;> cases l' <;> first | rfl | simp [Leaf.equal] at h

theorem alike_toLiterals {schemas others : List Schema}
    (h : List.Forall₂ (fun schema other => Alike schema.toLiteral other.toLiteral) schemas others) :
    Alike (.array (toLiterals schemas)) (.array (toLiterals others)) := by
  refine Json.equalItems_iff.mpr ?_
  simpa only [Alike, Json.normalizeItems_eq_map, toLiterals_eq_map, List.forall₂_map_left_iff,
    List.forall₂_map_right_iff] using h

/-- Fields whose literals are alike may stand in any order. -/
theorem alike_fieldLiterals {fields others : List (String × Schema)}
    (hnames : (keys fields).Nodup) (hperm : (keys fields).Perm (keys others))
    (h : ∀ name, Option.Rel (fun schema other => Alike schema.toLiteral other.toLiteral)
      (get? name fields) (get? name others)) :
    Alike (.object (fieldLiterals fields)) (.object (fieldLiterals others)) := by
  have hnames' : (keys others).Nodup := hperm.nodup_iff.mp hnames
  rw [Alike, Json.normalize_object, Json.normalize_object]
  refine Json.equal_object_of_rel (Json.nodup_keys_normalMembers _)
    (Json.nodup_keys_normalMembers _) fun key => ?_
  rw [Json.get?_normalMembers (by rwa [fieldLiterals_eq_map, Entries.keys_map]),
    Json.get?_normalMembers (by rwa [fieldLiterals_eq_map, Entries.keys_map]),
    fieldLiterals_eq_map, fieldLiterals_eq_map, Entries.get?_map, Entries.get?_map]
  exact rel_map (r := Alike) (rel_map (h key) fun _ _ h => h) fun _ _ h => h

/-- Equal schemas are written as equal trees. -/
theorem alike_toLiteral {schema schema' : Schema} (hs : schema.WellFormed)
    (h : schema.equal schema' = true) : Alike schema.toLiteral schema'.toLiteral := by
  induction schema using parts_induction generalizing schema' with
  | h schema ih =>
    have hnode : SameNode (fun a b => Alike a.toLiteral b.toLiteral) schema schema' :=
      ((equal_iff_sameNode hs).mp h).imp fun a ha b _ hab => ih a ha (hs.of_mem_parts ha) hab
    cases hnode with
    | @leaf info l l' brand hl =>
      rw [toLiteral, toLiteral, kind_eq_of_leafEqual hl]
      refine alike_nodeJson info (kind_eq_of_leafEqual hl ▸ keys_leafMembers l brand)
        (keys_leafMembers l' brand) fun slot => ?_
      rw [get?_leafMembers, get?_leafMembers]
      exact rel_leafValue brand hl slot
    | @array info _ _ length helement =>
      have hown := (keys_lengthMembers length).cons_cons "of"
      rw [toLiteral, toLiteral]
      refine alike_nodeJson info hown hown fun slot => rel_cons helement ?_
      rw [get?_lengthMembers]
      exact rel_lengthValue length slot
    | @tuple info _ _ hpositions =>
      rw [toLiteral, toLiteral]
      exact alike_nodeJson info (.refl ["of"]) (.refl ["of"]) fun slot =>
        rel_cons (alike_toLiterals hpositions) .none
    | @object info _ _ hnames hfields =>
      rw [toLiteral, toLiteral]
      exact alike_nodeJson info (.refl ["of"]) (.refl ["of"]) fun slot =>
        rel_cons (alike_fieldLiterals (wellFormed_object.mp hs).1 hnames hfields) .none
    | @record info _ _ _ _ hvalue hkey =>
      cases hkey with
      | none =>
        have hown := List.sublist_append_left ["of"] ["key"]
        rw [toLiteral, toLiteral]
        exact alike_nodeJson info hown hown fun slot => rel_cons hvalue .none
      | some hkey =>
        have hown := List.Sublist.refl ["of", "key"]
        rw [toLiteral, toLiteral]
        exact alike_nodeJson info hown hown fun slot => rel_cons hvalue (rel_cons hkey .none)
    | @union info _ _ halternatives =>
      rw [toLiteral, toLiteral]
      exact alike_nodeJson info (.refl ["of"]) (.refl ["of"]) fun slot =>
        rel_cons (alike_toLiterals halternatives) .none

end Conform.Schema
