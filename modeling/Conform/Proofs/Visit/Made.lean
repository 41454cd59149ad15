import Conform.Proofs.Lists
import Conform.Proofs.Visit.Simulation

/-!
# What an accepting visit makes

`Schema.make` forgets the misses, the rejections and the paths of a visit and keeps what it makes of
an accepted value. For each kind of node one lemma says when something is made and what: the parts
of a container are made one by one, the entries of a mapping are the `fieldParts` of an object or
the `entryParts` of a record, and a union makes what its first accepting alternative makes.

* `make_induction`: what holds of everything made of the parts, node by node, holds of everything
  that is made.
-/

namespace Conform

variable {α β γ δ : Type}

/-! ## Combined visits -/

namespace Visit

/-- What the visit makes, if it accepts. -/
def made (x : Visit α) : Option α :=
  x.outcome.toOption

@[simp]
theorem made_accept (a : α) : (Visit.accept a).made = some a :=
  rfl

@[simp]
theorem made_reject (code : Code) (path : Path) (schema : Schema) (subject : Value) :
    (Visit.reject code path schema subject : Visit α).made = none :=
  rfl

@[simp]
theorem made_map (f : α → β) (x : Visit α) : (x.map f).made = x.made.map f := by
  obtain ⟨misses, outcome⟩ := x
  cases outcome <;> rfl

@[simp]
theorem made_both (f : α → β → γ) (x : Visit α) (y : Visit β) :
    (Visit.both f x y).made = x.made.bind fun a => y.made.map (f a) := by
  obtain ⟨misses, outcome⟩ := x
  obtain ⟨misses', outcome'⟩ := y
  cases outcome <;> cases outcome' <;> rfl

@[simp]
theorem made_before (x : Visit α) (check : α → Visit β) :
    (x.before check).made = x.made.bind fun a => (check a).made := by
  obtain ⟨misses, outcome⟩ := x
  cases outcome <;> rfl

theorem made_under (q : Path) (x : Visit α) : (x.under q).made = x.made := by
  obtain ⟨misses, outcome⟩ := x
  cases outcome <;> rfl

theorem made_eq_some {x : Visit α} {a : α} : x.made = some a ↔ x.outcome = .ok a := by
  obtain ⟨misses, outcome⟩ := x
  cases outcome <;> simp [made, Except.toOption]

end Visit

namespace Schema

/-- What the policy makes of the value, if the schema accepts it. -/
def make (policy : Policy α) (schema : Schema) (v : Value) : Option α :=
  (visit policy schema v []).made

variable (policy : Policy α)

/-- What a visit makes depends neither on the path nor on the events. -/
theorem made_visit (schema : Schema) (v : Value) (path : Path) :
    (visit policy schema v path).made = make policy schema v := by
  have h := visit_under policy schema v path []
  rw [List.append_nil] at h
  rw [h, Visit.made_under, make]

variable {policy} in
/-- Only one thing is made of a value. -/
theorem of_exists_make {schema : Schema} {v : Value} {a : α} {P : α → Prop}
    (h : ∃ b, make policy schema v = some b ∧ P b) (ha : make policy schema v = some a) : P a := by
  obtain ⟨b, hb, hP⟩ := h
  obtain rfl : b = a := Option.some.inj (hb.symm.trans ha)
  exact hP

/-! ## Parts of containers -/

theorem made_visitItems {f : Value → Path → Visit α} {g : Value → Option α}
    (h : ∀ v path, (f v path).made = g v) (path : Path) (i : Nat) {items : List Value}
    {parts : List α} :
    (visitItems f path i items).made = some parts ↔
      List.Forall₂ (fun item part => g item = some part) items parts := by
  induction items generalizing i parts with
  | nil => simp [visitItems, eq_comm]
  | cons item rest ih =>
    simp only [visitItems, Visit.made_both, h, Option.bind_eq_some_iff, Option.map_eq_some_iff, ih,
      List.forall₂_cons_left_iff]
    constructor
    · rintro ⟨a, ha, as, has, rfl⟩
      exact ⟨a, as, ha, has, rfl⟩
    · rintro ⟨a, as, ha, has, rfl⟩
      exact ⟨a, ha, as, has, rfl⟩

theorem made_visitPositions {positions : List Schema} {items : List Value} (path : Path) (i : Nat)
    {parts : List α} :
    (visitPositions policy positions items path i).made = some parts ↔
      List.Forall₂ (fun pair part => make policy pair.1 pair.2 = some part) (positions.zip items)
        parts := by
  induction positions generalizing items i parts with
  | nil => simp [visitPositions, eq_comm]
  | cons position rest ih =>
    cases items with
    | nil => simp [visitPositions, eq_comm]
    | cons item items =>
      simp only [visitPositions, Visit.made_both, made_visit, Option.bind_eq_some_iff,
        Option.map_eq_some_iff, ih, List.zip_cons_cons, List.forall₂_cons_left_iff]
      constructor
      · rintro ⟨a, ha, as, has, rfl⟩
        exact ⟨a, as, ha, has, rfl⟩
      · rintro ⟨a, as, ha, has, rfl⟩
        exact ⟨a, ha, as, has, rfl⟩

/-- The entries made of the declared fields that are there, in the order of declaration. -/
def fieldParts (fields : List (String × Schema)) (entries : List (String × Value)) :
    List (String × α) :=
  fields.filterMap fun field =>
    (Entries.get? field.1 entries).bind fun v => (make policy field.2 v).map fun a => (field.1, a)

theorem made_visitFields {fields : List (String × Schema)} {entries : List (String × Value)}
    (path : Path) {parts : List (String × α)} :
    (visitFields policy fields entries path).made = some parts ↔
      (∀ field ∈ fields,
        ∃ a, make policy field.2 ((Entries.get? field.1 entries).getD .absent) = some a) ∧
      parts = fieldParts policy fields entries := by
  induction fields generalizing parts with
  | nil => simp [visitFields, fieldParts, eq_comm]
  | cons field rest ih =>
    obtain ⟨name, schema⟩ := field
    simp only [visitFields, Visit.made_both, made_visit, Option.bind_eq_some_iff,
      Option.map_eq_some_iff, ih, List.forall_mem_cons, fieldParts, List.filterMap_cons]
    cases hget : Entries.get? name entries with
    | none =>
      simp only [Option.getD_none, Option.isSome_none, Option.bind_none]
      constructor
      · rintro ⟨a, ha, as, ⟨hall, rfl⟩, rfl⟩
        exact ⟨⟨⟨a, ha⟩, hall⟩, rfl⟩
      · rintro ⟨⟨⟨a, ha⟩, hall⟩, rfl⟩
        exact ⟨a, ha, _, ⟨hall, rfl⟩, rfl⟩
    | some v =>
      simp only [Option.getD_some, Option.isSome_some, Option.bind_some]
      constructor
      · rintro ⟨a, ha, as, ⟨hall, rfl⟩, rfl⟩
        exact ⟨⟨⟨a, ha⟩, hall⟩, by rw [ha]; rfl⟩
      · rintro ⟨⟨⟨a, ha⟩, hall⟩, rfl⟩
        exact ⟨a, ha, _, ⟨hall, rfl⟩, by rw [ha]; rfl⟩

variable {policy} in
theorem mem_fieldParts {fields : List (String × Schema)} {entries : List (String × Value)}
    {name : String} {a : α} :
    (name, a) ∈ fieldParts policy fields entries ↔
      ∃ schema v, (name, schema) ∈ fields ∧ Entries.get? name entries = some v ∧
        make policy schema v = some a := by
  simp only [fieldParts, List.mem_filterMap, Option.bind_eq_some_iff, Option.map_eq_some_iff,
    Prod.exists, Prod.mk.injEq]
  constructor
  · rintro ⟨_, schema, hfield, v, hv, b, hb, rfl, rfl⟩
    exact ⟨schema, v, hfield, hv, hb⟩
  · rintro ⟨schema, v, hfield, hv, ha⟩
    exact ⟨name, schema, hfield, v, hv, a, ha, rfl, rfl⟩

/-- The key schema, if there is one, has nothing to say against the key. -/
def KeyAccepted (keySchema : Option Schema) (key : String) : Prop :=
  ∀ schema, keySchema = some schema → schema.verifyKey key = none

theorem made_visitKey {keySchema : Option Schema} (path : Path) {key : String} {u : Unit} :
    (visitKey keySchema path key).made = some u ↔ KeyAccepted keySchema key := by
  unfold visitKey KeyAccepted
  cases keySchema with
  | none => simp
  | some schema => cases h : schema.verifyKey key <;> simp [h]

/-- The entries made of the entries of a record with something under them. -/
def entryParts (schema : Schema) (entries : List (String × Value)) : List (String × α) :=
  entries.filterMap fun entry =>
    if entry.2.isAbsent then none
    else (make policy schema entry.2).bind fun a =>
      if policy.drops a then none else some (entry.1, a)

variable {policy} in
theorem mem_entryParts {schema : Schema} {entries : List (String × Value)} {key : String} {a : α} :
    (key, a) ∈ entryParts policy schema entries ↔
      ∃ v, (key, v) ∈ entries ∧ v.isAbsent = false ∧ make policy schema v = some a ∧
        policy.drops a = false := by
  simp only [entryParts, List.mem_filterMap, Prod.exists]
  constructor
  · rintro ⟨k, v, hentry, h⟩
    split at h
    · simp at h
    · rename_i hpresent
      obtain ⟨b, hb, h⟩ := Option.bind_eq_some_iff.mp h
      split at h
      · simp at h
      · rename_i hkept
        cases h
        exact ⟨v, hentry, Bool.eq_false_iff.mpr hpresent, hb, Bool.eq_false_iff.mpr hkept⟩
  · rintro ⟨v, hentry, hpresent, ha, hkept⟩
    exact ⟨key, v, hentry, by simp [hpresent, ha, hkept]⟩

theorem entryParts_cons (schema : Schema) (entry : String × Value)
    (rest : List (String × Value)) :
    entryParts policy schema (entry :: rest) =
      entryParts policy schema [entry] ++ entryParts policy schema rest :=
  List.filterMap_append (l := [entry])

theorem made_visitEntry {schema : Schema} {keySchema : Option Schema} (path : Path) {key : String}
    {v : Value} {parts : List (String × α)} :
    (visitEntry policy (fun v p => visit policy schema v p) keySchema path key v).made =
        some parts ↔
      (KeyAccepted keySchema key ∧ (v.isAbsent = false → ∃ a, make policy schema v = some a)) ∧
      parts = entryParts policy schema [(key, v)] := by
  simp only [visitEntry, Visit.made_both, Option.bind_eq_some_iff, made_visitKey, entryParts,
    List.filterMap_cons, List.filterMap_nil]
  cases hv : v.isAbsent with
  | true => simp [eq_comm]
  | false =>
    simp only [Bool.false_eq_true, if_false, Visit.made_map, made_visit, Option.map_map,
      Option.map_eq_some_iff, Function.comp]
    constructor
    · rintro ⟨-, hkey, a, ha, rfl⟩
      refine ⟨⟨hkey, fun _ => ⟨a, ha⟩⟩, ?_⟩
      rw [ha, Option.bind_some]
      split <;> rfl
    · rintro ⟨⟨hkey, hmake⟩, rfl⟩
      obtain ⟨a, ha⟩ := hmake trivial
      refine ⟨(), hkey, a, ha, ?_⟩
      rw [ha, Option.bind_some]
      split <;> rfl

theorem made_visitEntries {schema : Schema} {keySchema : Option Schema} (path : Path)
    {entries : List (String × Value)} {parts : List (String × α)} :
    (visitEntries policy (fun v p => visit policy schema v p) keySchema path entries).made =
        some parts ↔
      (∀ entry ∈ entries, KeyAccepted keySchema entry.1 ∧
        (entry.2.isAbsent = false → ∃ a, make policy schema entry.2 = some a)) ∧
      parts = entryParts policy schema entries := by
  induction entries generalizing parts with
  | nil =>
    simp only [visitEntries, Visit.made_accept, Option.some.injEq, List.not_mem_nil, false_implies,
      implies_true, true_and]
    exact eq_comm
  | cons entry rest ih =>
    rw [entryParts_cons]
    simp only [visitEntries, Visit.made_both, Option.bind_eq_some_iff, Option.map_eq_some_iff,
      made_visitEntry, ih, List.forall_mem_cons]
    constructor
    · rintro ⟨-, ⟨hentry, rfl⟩, -, ⟨hall, rfl⟩, rfl⟩
      exact ⟨⟨hentry, hall⟩, rfl⟩
    · rintro ⟨⟨hentry, hall⟩, rfl⟩
      exact ⟨_, ⟨hentry, rfl⟩, _, ⟨hall, rfl⟩, rfl⟩

theorem visitAlternatives_snd (alternatives : List Schema) (v : Value) (path : Path) (i : Nat) :
    (visitAlternatives policy alternatives v path i).2 =
      alternatives.findSome? fun alternative => make policy alternative v := by
  induction alternatives generalizing i with
  | nil => rfl
  | cons alternative rest ih =>
    rw [visitAlternatives, List.findSome?_cons, ← made_visit policy alternative v path, Visit.made]
    cases (visit policy alternative v path).outcome with
    | ok a => rfl
    | error es => exact ih (i + 1)

/-! ## Nodes -/

theorem exempts_sequence (info : Info) (items : List Value) :
    info.exempts (.sequence items) = false := by
  simp [Info.exempts, Value.isAbsent, Value.isNull]

theorem exempts_mapping (info : Info) (entries : List (String × Value)) :
    info.exempts (.mapping entries) = false := by
  simp [Info.exempts, Value.isAbsent, Value.isNull]

variable {policy}

/-- An exempted value is taken as it is. -/
theorem make_of_exempts {schema : Schema} {v : Value} (h : schema.info.exempts v = true) :
    make policy schema v = some (policy.leaf v) := by
  rw [make, visit.eq_def, if_pos h]
  rfl

theorem make_leaf {info : Info} {l : Leaf} {brand : Option Brand} {v : Value} {a : α} :
    make policy (leaf info l brand) v = some a ↔
      (info.exempts v = true ∨ l.reject? v = none) ∧ a = policy.leaf v := by
  by_cases hx : (leaf info l brand).info.exempts v = true
  · have hx' : info.exempts v = true := hx
    simp only [make_of_exempts hx, hx', true_or, true_and, Option.some.injEq]
    exact eq_comm
  · have hx' : info.exempts v = false := by simpa [Schema.info] using hx
    rw [make, visit.eq_def, if_neg hx, hx']
    dsimp only
    cases l.reject? v with
    | none => simp [eq_comm]
    | some code => simp

/-- An array makes a sequence of what its element makes, if the length is within bounds. -/
theorem make_array {info : Info} {element : Schema} {length : Bounds UInt64} {items : List Value}
    {a : α} :
    make policy (array info element length) (.sequence items) = some a ↔
      ∃ parts, List.Forall₂ (fun item part => make policy element item = some part) items parts ∧
        length.allows items.length = true ∧ a = policy.sequence (.sequence items) parts := by
  have hx : ¬ (array info element length).info.exempts (.sequence items) = true := by
    simp [exempts_sequence]
  rw [make, visit.eq_def, if_neg hx]
  simp only [Visit.made_before, Option.bind_eq_some_iff,
    made_visitItems (g := make policy element) (fun v path => made_visit policy element v path)]
  refine exists_congr fun parts => and_congr_right fun _ => ?_
  split
  · simp [*, eq_comm]
  · simp [*]

/-- A tuple makes a sequence position by position. -/
theorem make_tuple {info : Info} {positions : List Schema} {items : List Value} {a : α} :
    make policy (tuple info positions) (.sequence items) = some a ↔
      items.length = positions.length ∧
      ∃ parts, List.Forall₂ (fun pair part => make policy pair.1 pair.2 = some part)
        (positions.zip items) parts ∧ a = policy.sequence (.sequence items) parts := by
  have hx : ¬ (tuple info positions).info.exempts (.sequence items) = true := by
    simp [exempts_sequence]
  rw [make, visit.eq_def, if_neg hx]
  dsimp only
  split
  · simp only [Visit.made_map, Option.map_eq_some_iff, made_visitPositions, eq_comm (a := a), *,
      true_and]
  · simp [*]

/-- An object makes a mapping of its fields, in the order of the schema. -/
theorem make_object {info : Info} {fields : List (String × Schema)}
    {entries : List (String × Value)} {a : α} :
    make policy (object info fields) (.mapping entries) = some a ↔
      (∀ field ∈ fields,
        ∃ b, make policy field.2 ((Entries.get? field.1 entries).getD .absent) = some b) ∧
      hasUndeclared fields entries = false ∧
      a = policy.mapping (.mapping entries) (fieldParts policy fields entries) := by
  have hx : ¬ (object info fields).info.exempts (.mapping entries) = true := by
    simp [exempts_mapping]
  rw [make, visit.eq_def, if_neg hx]
  simp only [Visit.made_before, Option.bind_eq_some_iff, made_visitFields]
  constructor
  · rintro ⟨-, ⟨hall, rfl⟩, h⟩
    cases hdeclared : hasUndeclared fields entries with
    | true => simp [hdeclared] at h
    | false =>
      simp only [hdeclared, Bool.false_eq_true, if_false, Visit.made_accept,
        Option.some.injEq] at h
      exact ⟨hall, rfl, h.symm⟩
  · rintro ⟨hall, hdeclared, rfl⟩
    exact ⟨_, ⟨hall, rfl⟩, by simp [hdeclared]⟩

/-- A record makes a mapping of its present entries, in the order of the subject. -/
theorem make_record {info : Info} {value : Schema} {key : Option Schema}
    {entries : List (String × Value)} {a : α} :
    make policy (record info value key) (.mapping entries) = some a ↔
      (∀ entry ∈ entries, KeyAccepted key entry.1 ∧
        (entry.2.isAbsent = false → ∃ b, make policy value entry.2 = some b)) ∧
      a = policy.mapping (.mapping entries) (entryParts policy value entries) := by
  have hx : ¬ (record info value key).info.exempts (.mapping entries) = true := by
    simp [exempts_mapping]
  rw [make, visit.eq_def, if_neg hx]
  simp only [Visit.made_map, Option.map_eq_some_iff, made_visitEntries]
  constructor
  · rintro ⟨-, ⟨hall, rfl⟩, rfl⟩
    exact ⟨hall, rfl⟩
  · rintro ⟨hall, rfl⟩
    exact ⟨_, ⟨hall, rfl⟩, rfl⟩

/-- A union makes what its first successful alternative makes. -/
theorem make_union {info : Info} {alternatives : List Schema} {v : Value}
    (h : info.exempts v = false) :
    make policy (union info alternatives) v =
      alternatives.findSome? fun alternative => make policy alternative v := by
  have hx : ¬ (union info alternatives).info.exempts v = true := by simp [Schema.info, h]
  rw [← visitAlternatives_snd policy alternatives v [] 0, make, visit.eq_def, if_neg hx]
  dsimp only
  generalize visitAlternatives policy alternatives v [] 0 = tried
  obtain ⟨misses, found⟩ := tried
  cases found <;> rfl

/-! ## Induction over what is made -/

/-- Arrays and tuples take sequences, objects and records take mappings. -/
def Takes : Schema → Value → Prop
  | array .., v | tuple .., v => ∃ items, v = .sequence items
  | object .., v | record .., v => ∃ entries, v = .mapping entries
  | leaf .., _ | union .., _ => True

/-- Something is made only of values of the shape that the schema takes. -/
theorem takes_of_make {schema : Schema} {v : Value} {a : α}
    (h : make policy schema v = some a) (hx : schema.info.exempts v = false) :
    schema.Takes v := by
  have hneg : ¬ schema.info.exempts v = true := by simp [hx]
  rw [make, visit.eq_def, if_neg hneg] at h
  cases schema with
  | leaf | union => trivial
  | array | tuple =>
    cases v with
    | sequence items => exact ⟨items, rfl⟩
    | _ => simp at h
  | object | record =>
    cases v with
    | mapping entries => exact ⟨entries, rfl⟩
    | _ => simp at h

/-- Whatever holds of exempted values and accepted leaves, and of what a container or a union makes
of parts of which it holds, holds of everything that is made. -/
theorem make_induction {motive : Schema → Value → α → Prop}
    (exempt : ∀ schema v, schema.info.exempts v = true → motive schema v (policy.leaf v))
    (leaf : ∀ info l brand v, l.reject? v = none → motive (leaf info l brand) v (policy.leaf v))
    (array : ∀ info element length items parts,
      List.Forall₂ (fun item part => make policy element item = some part ∧
        motive element item part) items parts →
      length.allows items.length = true →
      motive (array info element length) (.sequence items)
        (policy.sequence (.sequence items) parts))
    (tuple : ∀ info positions items parts, items.length = positions.length →
      List.Forall₂ (fun pair part => make policy pair.1 pair.2 = some part ∧
        motive pair.1 pair.2 part) (positions.zip items) parts →
      motive (tuple info positions) (.sequence items) (policy.sequence (.sequence items) parts))
    (object : ∀ info fields entries,
      (∀ field ∈ fields,
        ∃ a, make policy field.2 ((Entries.get? field.1 entries).getD .absent) = some a ∧
          motive field.2 ((Entries.get? field.1 entries).getD .absent) a) →
      hasUndeclared fields entries = false →
      motive (object info fields) (.mapping entries)
        (policy.mapping (.mapping entries) (fieldParts policy fields entries)))
    (record : ∀ info value key entries, (∀ entry ∈ entries, KeyAccepted key entry.1) →
      (∀ entry ∈ entries, entry.2.isAbsent = false →
        ∃ a, make policy value entry.2 = some a ∧ motive value entry.2 a) →
      motive (record info value key) (.mapping entries)
        (policy.mapping (.mapping entries) (entryParts policy value entries)))
    (union : ∀ info before alternative after v a,
      (∀ earlier ∈ before, make policy earlier v = none) →
      make policy alternative v = some a → motive alternative v a →
      motive (union info (before ++ alternative :: after)) v a)
    {schema : Schema} {v : Value} {a : α} (h : make policy schema v = some a) :
    motive schema v a := by
  have hexempt {schema : Schema} {v : Value} {a : α} (hx : schema.info.exempts v = true)
      (h : make policy schema v = some a) : motive schema v a := by
    rw [make_of_exempts hx] at h
    cases h
    exact exempt schema v hx
  induction schema generalizing v a with
  | leaf info l brand =>
    obtain ⟨hx | hl, rfl⟩ := make_leaf.mp h
    · exact exempt _ v hx
    · exact leaf info l brand v hl
  | array info element length ih =>
    cases hx : info.exempts v with
    | true => exact hexempt hx h
    | false =>
      obtain ⟨items, rfl⟩ := takes_of_make h hx
      obtain ⟨parts, hparts, hlength, rfl⟩ := make_array.mp h
      exact array info element length items parts
        (forall₂_and_of_forall₂ hparts fun _ _ _ => ih) hlength
  | tuple info positions ih =>
    cases hx : info.exempts v with
    | true => exact hexempt hx h
    | false =>
      obtain ⟨items, rfl⟩ := takes_of_make h hx
      obtain ⟨hlength, parts, hparts, rfl⟩ := make_tuple.mp h
      refine tuple info positions items parts hlength (forall₂_and_of_forall₂ hparts ?_)
      intro pair hpair part
      exact ih pair.1 (List.of_mem_zip hpair).1
  | object info fields ih =>
    cases hx : info.exempts v with
    | true => exact hexempt hx h
    | false =>
      obtain ⟨entries, rfl⟩ := takes_of_make h hx
      obtain ⟨hall, hdeclared, rfl⟩ := make_object.mp h
      refine object info fields entries (fun field hfield => ?_) hdeclared
      obtain ⟨b, hb⟩ := hall field hfield
      exact ⟨b, hb, ih field hfield hb⟩
  | record info value key ih _ =>
    cases hx : info.exempts v with
    | true => exact hexempt hx h
    | false =>
      obtain ⟨entries, rfl⟩ := takes_of_make h hx
      obtain ⟨hall, rfl⟩ := make_record.mp h
      refine record info value key entries (fun entry hentry => (hall entry hentry).1) ?_
      intro entry hentry hpresent
      obtain ⟨b, hb⟩ := (hall entry hentry).2 hpresent
      exact ⟨b, hb, ih hb⟩
  | union info alternatives ih =>
    cases hx : info.exempts v with
    | true => exact hexempt hx h
    | false =>
      rw [make_union hx] at h
      obtain ⟨before, alternative, after, rfl, ha, hbefore⟩ := List.findSome?_eq_some_iff.mp h
      exact union info before alternative after v a hbefore ha (ih alternative (by simp) ha)

end Schema

end Conform
