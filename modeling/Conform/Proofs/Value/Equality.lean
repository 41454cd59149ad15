import Conform.Proofs.Entries.Sorted
import Conform.Proofs.Lists
import Conform.Proofs.Value

/-!
# Equal values

Equality looks at one value and asks of the other only that it is as long and holds an equal entry
under each key. Where keys are distinct this is the same as to have the same keys and to look every
key up in both (`SameShape.mapping`), which favours neither side. `equal_iff_sameShape` takes a
comparison apart into values of one shape and the comparison of their parts, and what is to be shown
of equality then follows by induction on the parts.

* `equal_symm`, `equal_trans`.
* `equal_self_iff`: a value differs from itself exactly if some number in it does.
-/

namespace Conform.Value

variable {u v w : Value}

/-! ## Parts -/

/-- The items of a sequence, or what stands under the keys of a mapping. -/
def parts : Value → List Value
  | sequence items => items
  | mapping entries => entries.map (·.2)
  | _ => []

/-- Only sequences and mappings have parts. -/
theorem parts_eq_nil (hitems : v.items? = none) (hentries : v.entries? = none) : v.parts = [] := by
  cases v with
  | sequence => simp [items?] at hitems
  | mapping => simp [entries?] at hentries
  | _ => rfl

/-- What is found under a key is a part. -/
theorem mem_parts_of_get? {entries : List (String × Value)} {key : String}
    (h : Entries.get? key entries = some v) : v ∈ (mapping entries).parts :=
  List.mem_map.mpr ⟨(key, v), Entries.mem_of_get? h, rfl⟩

/-- What holds of a value if it holds of everything right inside it holds of all values. -/
theorem parts_induction {motive : Value → Prop}
    (h : ∀ v, (∀ part ∈ v.parts, motive part) → motive v) (v : Value) : motive v := by
  induction v using Value.induction with
  | leaf v hitems hentries =>
    refine h v ?_
    rw [parts_eq_nil hitems hentries]
    simp
  | sequence items ih => exact h _ ih
  | mapping entries ih => exact h _ (List.forall_mem_map.mpr ih)

/-- What stands in a value is the value itself or stands in one of its parts. -/
theorem partOf_iff_parts {part : Value} :
    PartOf part v ↔ part = v ∨ ∃ inner ∈ v.parts, PartOf part inner := by
  constructor
  · intro h
    cases h with
    | self => exact .inl rfl
    | item hmem h => exact .inr ⟨_, hmem, h⟩
    | entry hmem h => exact .inr ⟨_, List.mem_map_of_mem hmem, h⟩
  · rintro (rfl | ⟨inner, hmem, h⟩)
    · exact .self _
    · cases v with
      | sequence items => exact .item hmem h
      | mapping entries =>
        obtain ⟨entry, hentry, rfl⟩ := List.mem_map.mp hmem
        exact .entry hentry h
      | _ => cases hmem

/-- Distinct keys at every depth are distinct keys in every part. -/
theorem DistinctKeys.of_mem_parts {part : Value} (h : v.DistinctKeys) (hmem : part ∈ v.parts) :
    part.DistinctKeys := by
  cases v with
  | sequence items => exact distinctKeys_sequence.mp h part hmem
  | mapping entries =>
    obtain ⟨entry, hentry, rfl⟩ := List.mem_map.mp hmem
    exact (distinctKeys_mapping.mp h).2 entry hentry
  | _ => cases hmem

/-! ## Values of one shape -/

/-- The two are the same but for numbers, which are equal, and for parts, which are related. -/
inductive SameShape (r : Value → Value → Prop) : Value → Value → Prop
  | leaf {v : Value} (hnumber : v.number? = none) (hitems : v.items? = none)
      (hentries : v.entries? = none) : SameShape r v v
  | number {x y : Double} (h : x.equal y = true) : SameShape r (.number x) (.number y)
  | sequence {items others : List Value} (h : List.Forall₂ r items others) :
      SameShape r (.sequence items) (.sequence others)
  | mapping {entries others : List (String × Value)}
      (hkeys : (Entries.keys entries).Perm (Entries.keys others))
      (h : ∀ key, Option.Rel r (Entries.get? key entries) (Entries.get? key others)) :
      SameShape r (.mapping entries) (.mapping others)

namespace SameShape

variable {r s t : Value → Value → Prop}

/-- What is said of the parts may be replaced by what follows from it. -/
theorem imp (h : SameShape r v w) (hs : ∀ a ∈ v.parts, ∀ b ∈ w.parts, r a b → s a b) :
    SameShape s v w := by
  cases h with
  | leaf hnumber hitems hentries => exact .leaf hnumber hitems hentries
  | number h => exact .number h
  | sequence h => exact .sequence (forall₂_imp_mem h hs)
  | mapping hkeys h =>
    exact .mapping hkeys fun key => rel_imp (h key) fun a b ha hb =>
      hs a (mem_parts_of_get? ha) b (mem_parts_of_get? hb)

/-- The comparison of shapes favours neither side. -/
theorem symm (h : SameShape r v w) : SameShape (flip r) w v := by
  cases h with
  | leaf hnumber hitems hentries => exact .leaf hnumber hitems hentries
  | number h => exact .number (Double.equal_comm _ _ ▸ h)
  | sequence h => exact .sequence (List.Forall₂.flip (R := flip r) h)
  | mapping hkeys h => exact .mapping hkeys.symm fun key => rel_flip (h key)

/-- Comparisons of shapes are chained if those of the parts are. -/
theorem trans (h : SameShape r u v) (h' : SameShape s v w)
    (ht : ∀ a b c, r a b → s b c → t a c) : SameShape t u w := by
  cases h with
  | leaf hnumber hitems hentries =>
    cases h' with
    | leaf => exact .leaf hnumber hitems hentries
    | number => cases hnumber
    | sequence => cases hitems
    | mapping => cases hentries
  | number h =>
    cases h' with
    | leaf hnumber => cases hnumber
    | number h' => exact .number (Double.equal_trans h h')
  | sequence h =>
    cases h' with
    | leaf _ hitems => cases hitems
    | sequence h' => exact .sequence (forall₂_trans h h' ht)
  | mapping hkeys h =>
    cases h' with
    | leaf _ _ hentries => cases hentries
    | mapping hkeys' h' =>
      exact .mapping (hkeys.trans hkeys') fun key => rel_trans (h key) (h' key) ht

/-- A value is compared to itself by its number, if it is one, and then by its parts. -/
theorem self_iff (hv : v.DistinctKeys) :
    SameShape r v v ↔
      (∀ x, v = .number x → x.isNaN = false) ∧ ∀ part ∈ v.parts, r part part := by
  constructor
  · intro h
    cases h with
    | leaf hnumber hitems hentries =>
      rw [parts_eq_nil hitems hentries]
      refine ⟨?_, by simp⟩
      rintro x rfl
      cases hnumber
    | number h =>
      refine ⟨?_, by simp [parts]⟩
      rintro _ ⟨⟩
      exact Double.equal_self.mp h
    | sequence h => exact ⟨by simp, List.forall₂_same.mp h⟩
    | @mapping entries _ _ h =>
      refine ⟨by simp, List.forall_mem_map.mpr fun entry hmem => ?_⟩
      have hentry := h entry.1
      rw [Entries.get?_eq_some_of_mem (distinctKeys_mapping.mp hv).1 hmem] at hentry
      cases hentry with
      | some h => exact h
  · rintro ⟨hnumber, hparts⟩
    cases v with
    | number x => exact .number (Double.equal_self.mpr (hnumber x rfl))
    | sequence items => exact .sequence (List.forall₂_same.mpr hparts)
    | mapping entries =>
      refine .mapping (.refl _) fun key => ?_
      cases hget : Entries.get? key entries with
      | none => exact .none
      | some part => exact .some (hparts part (mem_parts_of_get? hget))
    | _ => exact .leaf rfl rfl rfl

end SameShape

/-! ## Equality -/

/-- Values are equal if their shapes are the same and the parts are equal. Only the side whose
entries are looked up has to have distinct keys. -/
theorem equal_iff_sameShape (hv : v.DistinctKeys) :
    v.equal w = true ↔ SameShape (fun a b => a.equal b = true) v w := by
  constructor
  · intro h
    cases v with
    | number x =>
      cases w with
      | number y => exact .number h
      | _ => simp [equal] at h
    | sequence items =>
      cases w with
      | sequence others => exact .sequence (equalItems_iff.mp h)
      | _ => simp [equal] at h
    | mapping entries =>
      cases w with
      | mapping others =>
        obtain ⟨hlength, hentries⟩ := equal_mapping_iff.mp h
        have hkeys := (distinctKeys_mapping.mp hv).1
        exact .mapping (Entries.perm_keys_of_found hkeys hlength hentries)
          (Entries.rel_get?_of_found hkeys hlength hentries)
      | _ => simp [equal] at h
    | _ =>
      cases w <;> simp only [equal, Bool.false_eq_true, beq_iff_eq] at h
      all_goals
        subst_vars
        exact .leaf rfl rfl rfl
  · intro h
    cases h with
    | leaf hnumber hitems hentries =>
      cases v with
      | number => cases hnumber
      | sequence => cases hitems
      | mapping => cases hentries
      | _ => simp [equal]
    | number h => exact h
    | sequence h => exact equalItems_iff.mpr h
    | mapping hkeys h =>
      exact equal_mapping_iff.mpr
        (Entries.found_of_rel_get? (distinctKeys_mapping.mp hv).1 hkeys h)

/-- Equality of values is symmetric. -/
theorem equal_symm (hv : v.DistinctKeys) (hw : w.DistinctKeys) (h : v.equal w = true) :
    w.equal v = true := by
  induction v using parts_induction generalizing w with
  | h v ih =>
    have hshape := ((equal_iff_sameShape hv).mp h).imp fun a ha b hb hab =>
      ih a ha (hv.of_mem_parts ha) (hw.of_mem_parts hb) hab
    exact (equal_iff_sameShape hw).mpr hshape.symm

/-- Equality of values is transitive. -/
theorem equal_trans (hu : u.DistinctKeys) (hv : v.DistinctKeys) (huv : u.equal v = true)
    (hvw : v.equal w = true) : u.equal w = true := by
  induction u using parts_induction generalizing v w with
  | h u ih =>
    have hleft : SameShape (fun a b => ∀ c, b.equal c = true → a.equal c = true) u v :=
      ((equal_iff_sameShape hu).mp huv).imp fun a ha b hb hab _ hbc =>
        ih a ha (hu.of_mem_parts ha) (hv.of_mem_parts hb) hab hbc
    have hright := (equal_iff_sameShape hv).mp hvw
    exact (equal_iff_sameShape hu).mpr (hleft.trans hright fun a b c hab hbc => hab c hbc)

/-- A value differs from itself exactly if a NaN stands in it. -/
theorem equal_self_iff (hv : v.DistinctKeys) :
    v.equal v = true ↔ ∀ x, PartOf (.number x) v → x.isNaN = false := by
  induction v using parts_induction with
  | h v ih =>
    rw [equal_iff_sameShape hv, SameShape.self_iff hv]
    constructor
    · rintro ⟨hnumber, hparts⟩ x hx
      rcases partOf_iff_parts.mp hx with heq | ⟨inner, hmem, hx⟩
      · exact hnumber x heq.symm
      · exact (ih inner hmem (hv.of_mem_parts hmem)).mp (hparts inner hmem) x hx
    · intro h
      refine ⟨fun x heq => h x (heq ▸ .self _), fun part hmem => ?_⟩
      refine (ih part hmem (hv.of_mem_parts hmem)).mpr fun x hx => ?_
      exact h x (partOf_iff_parts.mpr (.inr ⟨part, hmem, hx⟩))

end Conform.Value
