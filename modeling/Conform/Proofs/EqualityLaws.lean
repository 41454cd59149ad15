import Conform.Proofs.Export
import Conform.Proofs.Json.Equality
import Conform.Proofs.Reordering

/-!
# What equality can be relied on for

Values and schemas are compared with numbers as floating-point numbers and without regard to the
order of keys. Neither spoils the comparison: it is symmetric and transitive, only a NaN makes a
value or a schema differ from itself, and what differs in the order of keys only is equal to the
same values and schemas (`LawfulEquality`). Equal values also have equal JSON trees
(`Value.equal_toJson`).

* `equality_laws`: all of it, for values and for schemas.
-/

namespace Conform

section

variable {α : Type} {equal : α → α → Bool} {valid : α → Prop}
  {same : (α → α → Prop) → α → α → Prop} {holds : α → Double → Prop} {reordered : α → α → Prop}

/-- The laws of an equality that has to do with numbers and with keys. `valid` says what is
compared, `same` compares two by what is inside them, `holds` says which numbers stand in something,
at any depth, and `reordered` relates what differs in the order of keys only. -/
structure LawfulEquality (equal : α → α → Bool) (valid : α → Prop)
    (same : (α → α → Prop) → α → α → Prop) (holds : α → Double → Prop)
    (reordered : α → α → Prop) : Prop where
  iff_same : ∀ {a b}, valid a → (equal a b = true ↔ same (fun a b => equal a b = true) a b)
  comm : ∀ {a b}, valid a → valid b → equal a b = equal b a
  trans : ∀ {a b c}, valid a → valid b → valid c → equal a b = true → equal b c = true →
    equal a c = true
  self_iff : ∀ {a}, valid a → (equal a a = true ↔ ∀ x, holds a x → x.isNaN = false)
  of_reordered : ∀ {a a' b b'}, valid a → valid b → reordered a a' → reordered b b' →
    equal a b = equal a' b'

/-- Whatever is equal to something is equal to itself, so the order of keys has to be looked at only
there. -/
theorem lawfulEquality_of_laws
    (iff_same : ∀ {a b}, valid a → (equal a b = true ↔ same (fun a b => equal a b = true) a b))
    (symm : ∀ {a b}, valid a → valid b → equal a b = true → equal b a = true)
    (trans : ∀ {a b c}, valid a → valid b → equal a b = true → equal b c = true →
      equal a c = true)
    (self_iff : ∀ {a}, valid a → (equal a a = true ↔ ∀ x, holds a x → x.isNaN = false))
    (reordered_symm : ∀ {a b}, reordered a b → reordered b a)
    (valid_of_reordered : ∀ {a b}, reordered a b → valid a → valid b)
    (equal_of_self : ∀ {a b}, reordered a b → valid a → equal a a = true → equal a b = true) :
    LawfulEquality equal valid same holds reordered := by
  have comm {a b : α} (ha : valid a) (hb : valid b) : equal a b = equal b a :=
    Bool.eq_iff_iff.mpr ⟨symm ha hb, symm hb ha⟩
  have step {a a' b : α} (ha : valid a) (hb : valid b) (h : reordered a a')
      (hab : equal a b = true) : equal a' b = true := by
    have ha' := valid_of_reordered h ha
    have hself : equal a a = true := trans ha hb hab (symm ha hb hab)
    exact trans ha' ha (symm ha ha' (equal_of_self h ha hself)) hab
  have left {a a' b : α} (ha : valid a) (hb : valid b) (h : reordered a a') :
      equal a b = equal a' b :=
    Bool.eq_iff_iff.mpr
      ⟨step ha hb h, step (valid_of_reordered h ha) hb (reordered_symm h)⟩
  refine ⟨iff_same, comm, fun ha hb _ => trans ha hb, self_iff, fun {a a' b b'} ha hb h h' => ?_⟩
  have ha' := valid_of_reordered h ha
  have hb' := valid_of_reordered h' hb
  calc equal a b = equal a' b := left ha hb h
    _ = equal b a' := comm ha' hb
    _ = equal b' a' := left hb ha' h'
    _ = equal a' b' := comm hb' ha'

end

/-! ## Trees of equal values -/

/-- A big integer never becomes a double, so its tree is equal to itself. -/
theorem Json.equal_ofBigInt_self (n : BigInt) : (Json.ofBigInt n).equal (.ofBigInt n) = true := by
  unfold Json.ofBigInt
  split
  · exact equal_scalar_self _
  · split <;> exact equal_scalar_self _

namespace Value

variable {v w : Value}

/-- An absent value is equal to an absent value only. -/
theorem isAbsent_eq_of_equal (h : v.equal w = true) : v.isAbsent = w.isAbsent := by
  cases v <;> cases w <;> first | rfl | simp [equal] at h

/-- Equal values have equal trees. Entries with nothing under them are left out of both. -/
theorem equal_toJson (hv : v.DistinctKeys) (hw : w.DistinctKeys) (h : v.equal w = true) :
    v.toJson.equal w.toJson = true := by
  induction v using parts_induction generalizing w with
  | h v ih =>
    have hshape : SameShape
        (fun a b => a.isAbsent = b.isAbsent ∧ a.toJson.equal b.toJson = true) v w :=
      ((equal_iff_sameShape hv).mp h).imp fun a ha b hb hab =>
        ⟨isAbsent_eq_of_equal hab, ih a ha (hv.of_mem_parts ha) (hw.of_mem_parts hb) hab⟩
    cases hshape with
    | leaf hnumber hitems hentries =>
      cases v with
      | number => cases hnumber
      | sequence => cases hitems
      | mapping => cases hentries
      | bigInt n => exact Json.equal_ofBigInt_self n
      | _ => exact Json.equal_scalar_self _
    | number hnumbers => exact Json.equal_ofDouble hnumbers
    | sequence hitems =>
      rw [toJson, toJson, itemsToJson_eq_map, itemsToJson_eq_map]
      refine Json.equalItems_iff.mpr ?_
      rw [List.forall₂_map_left_iff, List.forall₂_map_right_iff]
      exact hitems.imp fun _ _ hab => hab.2
    | mapping _ hentries =>
      have hkeys := (distinctKeys_mapping.mp hv).1
      have hkeys' := (distinctKeys_mapping.mp hw).1
      rw [toJson, toJson]
      refine Json.equal_object_of_rel (Entries.ascending_sorted _).nodup
        (Entries.ascending_sorted _).nodup fun key => ?_
      rw [Entries.get?_sorted (nodup_keys_entriesToJson hkeys),
        Entries.get?_sorted (nodup_keys_entriesToJson hkeys'), get?_entriesToJson hkeys,
        get?_entriesToJson hkeys']
      refine rel_bind (hentries key) fun a b hab => ?_
      rw [hab.1]
      cases b.isAbsent with
      | true => exact .none
      | false => exact .some hab.2

/-- The laws for values with distinct keys. -/
theorem lawful_equal :
    LawfulEquality equal DistinctKeys SameShape (fun v x => PartOf (.number x) v) Reordered :=
  lawfulEquality_of_laws equal_iff_sameShape equal_symm equal_trans equal_self_iff Reordered.symm
    (fun h => h.distinctKeys_iff.mp) Reordered.equal_of_self

end Value

/-- The laws for well-formed schemas. -/
theorem Schema.lawful_equal :
    LawfulEquality equal WellFormed SameNode (fun schema x => Mentions x schema) Reordered :=
  lawfulEquality_of_laws equal_iff_sameNode equal_symm equal_trans equal_self_iff Reordered.symm
    (fun h => h.wellFormed_iff.mp) Reordered.equal_of_self

/-! ## The laws -/

/-- **Equality is lawful**, on values and on schemas: only with a NaN inside does one of them differ
from itself, and the order of entries and of fields does not matter. What equal values become in
JSON is equal too. -/
theorem equality_laws :
    LawfulEquality Value.equal Value.DistinctKeys Value.SameShape
      (fun v x => Value.PartOf (.number x) v) Value.Reordered ∧
    (∀ v w : Value, v.DistinctKeys → w.DistinctKeys → v.equal w = true →
      v.toJson.equal w.toJson = true) ∧
    LawfulEquality Schema.equal Schema.WellFormed Schema.SameNode
      (fun schema x => schema.Mentions x) Schema.Reordered :=
  ⟨Value.lawful_equal, fun _ _ => Value.equal_toJson, Schema.lawful_equal⟩

/-- A point without a label, at the origin. -/
def origin (negative : Bool) : Value :=
  .mapping [("x", .number (.zero negative)), ("y", .number (.zero negative)), ("label", .absent)]

/-- The same entries in another order, with zeros of one sign. -/
def originLabelFirst : Value :=
  .mapping [("label", .absent), ("x", .number (.zero false)), ("y", .number (.zero false))]

/-- The points from a corner on, to the right and upwards. -/
def quadrant (corner : Double) : Schema :=
  .object .plain [("x", .leaf .plain (.number ⟨some corner, none⟩) none),
    ("y", .leaf .plain (.number ⟨some corner, none⟩) none)]

/-- Neither the signs of the zeros nor the place of the label tell two origins apart, but a corner
that is nowhere tells a quadrant from itself. -/
theorem equality_laws_origin :
    (origin true).DistinctKeys ∧ originLabelFirst.DistinctKeys ∧ (quadrant .nan).WellFormed ∧
    (origin true).equal originLabelFirst = true ∧ originLabelFirst.equal (origin true) = true ∧
    (origin true).equal (origin true) = true ∧
    (origin true).toJson.equal originLabelFirst.toJson = true ∧
    (quadrant .nan).equal (quadrant .nan) = false := by
  obtain ⟨hvalues, htrees, hschemas⟩ := equality_laws
  have hkeys (negative : Bool) : (origin negative).DistinctKeys := by
    simp [origin, Value.distinctKeys_mapping, Entries.keys, Value.DistinctKeys]
  have hmoved : (origin false).Reordered originLabelFirst :=
    Value.reordered_mapping
      ⟨_, List.forall₂_same.mpr fun _ _ => ⟨rfl, .same _⟩, List.perm_append_singleton _ [_, _]⟩
  have hkeysMoved : originLabelFirst.DistinctKeys := hmoved.distinctKeys_iff.mp (hkeys false)
  have hequal : (origin true).equal originLabelFirst = true := by
    rw [← hvalues.of_reordered (hkeys true) (hkeys false) (.same _) hmoved]
    rfl
  have hsymm : originLabelFirst.equal (origin true) = true :=
    (hvalues.comm hkeysMoved (hkeys true)).trans hequal
  have hwell : (quadrant .nan).WellFormed := by
    simp [quadrant, Schema.wellFormed_object, Entries.keys, Schema.WellFormed]
  have hnan : (quadrant .nan).Mentions .nan :=
    .inside (List.mem_cons_self ..) (.here (List.mem_cons_self ..))
  refine ⟨hkeys true, hkeysMoved, hwell, hequal, hsymm,
    hvalues.trans (hkeys true) hkeysMoved (hkeys true) hequal hsymm,
    htrees _ _ (hkeys true) hkeysMoved hequal, ?_⟩
  rw [Bool.eq_false_iff]
  intro hself
  exact absurd ((hschemas.self_iff hwell).mp hself .nan hnan) (by decide)

end Conform
