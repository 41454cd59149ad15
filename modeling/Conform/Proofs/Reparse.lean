import Conform.Proofs.Double
import Conform.Proofs.Parsed

/-!
# Parsing again

Parsing leaves out the entries of records with nothing under them and nothing else, so a parsed
value is equal to its input exactly if no such entry was met (`equal_iff_not_prunes`). This settles
what parsing does to a value that was parsed before. It need not leave it alone: when entries were
left out, an earlier alternative of a union may accept what it refused before, and read as a record
what was an object with absent fields (`parse_not_idempotent`). Parsing again gives an equal value
exactly if it meets no record entry with nothing under it (`parse_parse_equal_iff`), and this is so
for all schemas without a record below a union (`parse_parse_equal_of_noRecordBelowUnion`).
-/

namespace Conform

/-! ## Lists -/

/-- A list has only one first member with a property. -/
theorem first_unique {β : Type} {P : β → Prop} {before before' after after' : List β} {x x' : β}
    (heq : before ++ x :: after = before' ++ x' :: after') (hbefore : ∀ y ∈ before, ¬ P y)
    (hx : P x) (hbefore' : ∀ y ∈ before', ¬ P y) (hx' : P x') : x = x' := by
  induction before generalizing before' with
  | nil =>
    cases before' with
    | nil => exact (List.cons.inj heq).1
    | cons y rest =>
      obtain ⟨rfl, -⟩ := List.cons.inj heq
      exact absurd hx (hbefore' x List.mem_cons_self)
  | cons y rest ih =>
    cases before' with
    | nil =>
      obtain ⟨rfl, -⟩ := List.cons.inj heq
      exact absurd hx' (hbefore y List.mem_cons_self)
    | cons y' rest' =>
      obtain ⟨-, hrest⟩ := List.cons.inj heq
      exact ih hrest (fun z hz => hbefore z (List.mem_cons_of_mem _ hz))
        fun z hz => hbefore' z (List.mem_cons_of_mem _ hz)

theorem forall₂_flip_iff {β γ : Type} {r : β → γ → Prop} {s : γ → β → Prop} {P : β → Prop}
    {xs : List β} {ys : List γ} (h : List.Forall₂ r xs ys)
    (hs : ∀ x ∈ xs, ∀ y, r x y → (s y x ↔ P x)) :
    List.Forall₂ s ys xs ↔ ∀ x ∈ xs, P x := by
  induction h with
  | nil => simp
  | cons hr _ ih =>
    have hrest := ih fun x hx => hs x (List.mem_cons_of_mem _ hx)
    rw [List.forall₂_cons, hs _ List.mem_cons_self _ hr, hrest, List.forall_mem_cons]

/-! ## Entries that are left out -/

/-- Parsing the value by the schema leaves out an entry somewhere: on the way through the parts of
containers and the first conforming alternatives of unions there is a record with an entry that has
nothing under it. -/
inductive Prunes : Schema → Value → Prop
  | item {info : Info} {element : Schema} {length : Bounds UInt64} {items : List Value} {v : Value}
      (hmem : v ∈ items) (h : Prunes element v) :
      Prunes (.array info element length) (.sequence items)
  | position {info : Info} {positions : List Schema} {items : List Value} {pair : Schema × Value}
      (hmem : pair ∈ positions.zip items) (h : Prunes pair.1 pair.2) :
      Prunes (.tuple info positions) (.sequence items)
  | field {info : Info} {fields : List (String × Schema)} {entries : List (String × Value)}
      {field : String × Schema} {v : Value} (hmem : field ∈ fields)
      (hget : Entries.get? field.1 entries = some v) (h : Prunes field.2 v) :
      Prunes (.object info fields) (.mapping entries)
  | absent {info : Info} {value : Schema} {key : Option Schema} {entries : List (String × Value)}
      {name : String} (hmem : (name, .absent) ∈ entries) :
      Prunes (.record info value key) (.mapping entries)
  | entry {info : Info} {value : Schema} {key : Option Schema} {entries : List (String × Value)}
      {entry : String × Value} (hmem : entry ∈ entries) (h : Prunes value entry.2) :
      Prunes (.record info value key) (.mapping entries)
  | alternative {info : Info} {before after : List Schema} {alternative : Schema} {v : Value}
      (hbefore : ∀ earlier ∈ before, ¬ Conforms earlier v) (ha : Conforms alternative v)
      (h : Prunes alternative v) : Prunes (.union info (before ++ alternative :: after)) v

namespace Prunes

variable {info : Info}

theorem ne_absent_and_ne_null {schema : Schema} {v : Value} (h : Prunes schema v) :
    v ≠ .absent ∧ v ≠ .null := by
  induction h with
  | alternative _ _ _ ih => exact ih
  | _ => simp

theorem not_of_exempts {schema : Schema} {v : Value} (hx : info.exempts v = true) :
    ¬ Prunes schema v := by
  intro h
  obtain ⟨habsent, hnull⟩ := h.ne_absent_and_ne_null
  rcases Info.exempts_iff.mp hx with ⟨-, hv⟩ | ⟨-, hv⟩
  · exact habsent hv
  · exact hnull hv

theorem not_leaf {l : Leaf} {brand : Option Brand} {v : Value} :
    ¬ Prunes (.leaf info l brand) v := by
  intro h
  cases h

theorem array_iff {element : Schema} {length : Bounds UInt64} {items : List Value} :
    Prunes (.array info element length) (.sequence items) ↔ ∃ v ∈ items, Prunes element v := by
  constructor
  · intro h
    cases h with
    | item hmem h => exact ⟨_, hmem, h⟩
  · rintro ⟨v, hmem, h⟩
    exact .item hmem h

theorem tuple_iff {positions : List Schema} {items : List Value} :
    Prunes (.tuple info positions) (.sequence items) ↔
      ∃ pair ∈ positions.zip items, Prunes pair.1 pair.2 := by
  constructor
  · intro h
    cases h with
    | position hmem h => exact ⟨_, hmem, h⟩
  · rintro ⟨pair, hmem, h⟩
    exact .position hmem h

theorem object_iff {fields : List (String × Schema)} {entries : List (String × Value)} :
    Prunes (.object info fields) (.mapping entries) ↔
      ∃ field ∈ fields, ∃ v, Entries.get? field.1 entries = some v ∧ Prunes field.2 v := by
  constructor
  · intro h
    cases h with
    | field hmem hget h => exact ⟨_, hmem, _, hget, h⟩
  · rintro ⟨field, hmem, v, hget, h⟩
    exact .field hmem hget h

theorem record_iff {value : Schema} {key : Option Schema} {entries : List (String × Value)} :
    Prunes (.record info value key) (.mapping entries) ↔
      ∃ entry ∈ entries, entry.2 = .absent ∨ Prunes value entry.2 := by
  constructor
  · intro h
    cases h with
    | absent hmem => exact ⟨_, hmem, .inl rfl⟩
    | entry hmem h => exact ⟨_, hmem, .inr h⟩
  · rintro ⟨⟨name, v⟩, hmem, rfl | h⟩
    · exact .absent hmem
    · exact .entry hmem h

/-- Under a union, the first alternative that describes the value decides. -/
theorem union_iff {before after : List Schema} {alternative : Schema} {v : Value}
    (hbefore : ∀ earlier ∈ before, ¬ Conforms earlier v) (ha : Conforms alternative v) :
    Prunes (.union info (before ++ alternative :: after)) v ↔ Prunes alternative v := by
  constructor
  · intro h
    generalize hs : Schema.union info (before ++ alternative :: after) = schema at h
    cases h with
    | alternative hbefore' ha' h =>
      have heq := (Schema.union.inj hs).2
      rwa [first_unique heq hbefore ha hbefore' ha']
    | _ => cases hs
  · exact .alternative hbefore ha

end Prunes

/-! ## Values that stay as they are -/

theorem Leaf.equal_self_of_reject?_eq_none {l : Leaf} {v : Value} (h : l.reject? v = none) :
    v.equal v = true := by
  have hconforms : Conforms (.leaf .plain l none) v := Leaf.conforms_of_reject?_eq_none h
  cases hconforms with
  | number hfinite _ =>
    rw [Value.equal, Double.equal_self]
    exact Double.isNaN_of_isFinite hfinite
  | literalNumber hequal =>
    rw [Value.equal, Double.equal_self]
    exact (Double.equal_iff.mp hequal).2.1
  | _ => simp [Value.equal]

namespace Schema

theorem length_fieldParts (policy : Policy Value) {fields : List (String × Schema)}
    {entries : List (String × Value)} (hnames : (Entries.keys fields).Nodup)
    (hkeys : (Entries.keys entries).Nodup)
    (hall : ∀ field ∈ fields,
      ∃ a, make policy field.2 ((Entries.get? field.1 entries).getD .absent) = some a)
    (hdeclared : ∀ entry ∈ entries, entry.1 ∈ Entries.keys fields) :
    (fieldParts policy fields entries).length = entries.length := by
  have hperm : (Entries.keys (fieldParts policy fields entries)).Perm (Entries.keys entries) := by
    rw [List.perm_ext_iff_of_nodup (nodup_keys_fieldParts hnames) hkeys]
    intro name
    constructor
    · intro hname
      obtain ⟨⟨_, a⟩, hpart, rfl⟩ := List.mem_map.mp hname
      obtain ⟨schema, v, -, hv, -⟩ := mem_fieldParts.mp hpart
      exact Entries.mem_keys_of_mem (Entries.mem_of_get? hv)
    · intro hname
      obtain ⟨⟨_, v⟩, hentry, rfl⟩ := List.mem_map.mp hname
      obtain ⟨⟨name, schema⟩, hfield, rfl⟩ := List.mem_map.mp (hdeclared _ hentry)
      have hv := Entries.get?_eq_some_of_mem hkeys hentry
      obtain ⟨a, ha⟩ := hall _ hfield
      simp only [hv, Option.getD_some] at ha
      exact Entries.mem_keys_of_mem (mem_fieldParts.mpr ⟨schema, v, hfield, hv, ha⟩)
  simpa [Entries.keys] using hperm.length_eq

theorem length_entryParts_iff {schema : Schema} {entries : List (String × Value)}
    (hall : ∀ entry ∈ entries, entry.2.isAbsent = false →
      ∃ a, make .rebuild schema entry.2 = some a) :
    (entryParts .rebuild schema entries).length = entries.length ↔
      ∀ entry ∈ entries, entry.2.isAbsent = false := by
  rw [entryParts, List.filterMap_length_eq_length]
  refine forall₂_congr fun entry hentry => ?_
  cases hpresent : entry.2.isAbsent with
  | true => simp
  | false =>
    obtain ⟨a, ha⟩ := hall entry hentry hpresent
    have hkept : Policy.rebuild.drops a = false := (isAbsent_of_make_rebuild ha).trans hpresent
    simp [ha, hkept]

/-- The parsed value equals the subject unless an entry was left out. -/
theorem equal_iff_not_prunes {schema : Schema} {v p : Value}
    (h : make .rebuild schema v = some p) :
    schema.WellFormed → v.DistinctKeys → (p.equal v = true ↔ ¬ Prunes schema v) := by
  apply make_induction (h := h)
    (motive := fun schema v p =>
      schema.WellFormed → v.DistinctKeys → (p.equal v = true ↔ ¬ Prunes schema v))
  case exempt =>
    intro schema v hx hs hv
    have hequal : v.equal v = true := by
      rcases Info.exempts_iff.mp hx with ⟨-, rfl⟩ | ⟨-, rfl⟩ <;> rfl
    exact iff_of_true hequal (Prunes.not_of_exempts hx)
  case leaf =>
    intro info l brand v hl hs hv
    exact iff_of_true (Leaf.equal_self_of_reject?_eq_none hl) Prunes.not_leaf
  case array =>
    intro info element length items parts hparts hlength hs hv
    have hequal : (Value.sequence parts).equal (.sequence items) = true ↔
        List.Forall₂ (fun v w => v.equal w = true) parts items := Value.equalItems_iff
    rw [Prunes.array_iff, not_exists]
    simp only [not_and]
    refine hequal.trans (forall₂_flip_iff hparts fun item hitem part hpart => ?_)
    exact hpart.2 hs (Value.distinctKeys_sequence.mp hv item hitem)
  case tuple =>
    intro info positions items parts hlength hparts hs hv
    have hitems : (positions.zip items).map Prod.snd = items :=
      List.map_snd_zip (Nat.le_of_eq hlength)
    have hequal : (Value.sequence parts).equal (.sequence items) = true ↔
        List.Forall₂ (fun v pair => v.equal pair.2 = true) parts (positions.zip items) := by
      conv_lhs => rw [← hitems]
      exact Value.equalItems_iff.trans List.forall₂_map_right_iff
    rw [Prunes.tuple_iff, not_exists]
    simp only [not_and]
    refine hequal.trans (forall₂_flip_iff hparts fun pair hpair part hpart => ?_)
    obtain ⟨hposition, hitem⟩ := List.of_mem_zip hpair
    exact hpart.2 (wellFormed_tuple.mp hs _ hposition) (Value.distinctKeys_sequence.mp hv _ hitem)
  case object =>
    intro info fields entries hall hdeclared hs hv
    obtain ⟨hnames, hs⟩ := wellFormed_object.mp hs
    obtain ⟨hkeys, hv⟩ := Value.distinctKeys_mapping.mp hv
    have hlength := length_fieldParts .rebuild hnames hkeys
      (fun field hfield => (hall field hfield).imp fun _ h => h.1)
      (hasUndeclared_eq_false.mp hdeclared)
    have hfield {field : String × Schema} {v a : Value} (hmem : field ∈ fields)
        (hget : Entries.get? field.1 entries = some v) (ha : make .rebuild field.2 v = some a) :
        a.equal v = true ↔ ¬ Prunes field.2 v := by
      have ih := hall field hmem
      simp only [hget, Option.getD_some] at ih
      exact of_exists_make ih ha (hs field hmem) (hv _ (Entries.mem_of_get? hget))
    rw [Prunes.object_iff]
    simp only [not_exists, not_and]
    refine Value.equal_mapping_iff.trans ⟨?_, ?_⟩
    · rintro ⟨-, hequal⟩ field hmem v hget
      obtain ⟨a, ha, -⟩ := hall field hmem
      simp only [hget, Option.getD_some] at ha
      obtain ⟨other, hother, h⟩ := hequal (field.1, a)
        (mem_fieldParts.mpr ⟨field.2, v, hmem, hget, ha⟩)
      obtain rfl : other = v := Option.some.inj (hother.symm.trans hget)
      exact (hfield hmem hget ha).mp h
    · intro h
      refine ⟨hlength, ?_⟩
      rintro ⟨name, a⟩ hpart
      obtain ⟨schema, v, hmem, hget, ha⟩ := mem_fieldParts.mp hpart
      exact ⟨v, hget, (hfield hmem hget ha).mpr (h _ hmem v hget)⟩
  case record =>
    intro info value key entries hkeys hall hs hv
    obtain ⟨hdistinct, hv⟩ := Value.distinctKeys_mapping.mp hv
    have hmade : ∀ entry ∈ entries, entry.2.isAbsent = false →
        ∃ a, make .rebuild value entry.2 = some a :=
      fun entry hmem hpresent => (hall entry hmem hpresent).imp fun _ h => h.1
    have hentry {entry : String × Value} {a : Value} (hmem : entry ∈ entries)
        (hpresent : entry.2.isAbsent = false) (ha : make .rebuild value entry.2 = some a) :
        a.equal entry.2 = true ↔ ¬ Prunes value entry.2 := by
      have ih := of_exists_make (hall entry hmem hpresent) ha
      exact ih (wellFormed_of_record hs) (hv entry hmem)
    rw [Prunes.record_iff]
    simp only [not_exists, not_and, not_or]
    refine (Value.equal_mapping_iff.trans (and_congr_left' (length_entryParts_iff hmade))).trans
      ⟨?_, ?_⟩
    · rintro ⟨hpresent, hequal⟩ ⟨name, v⟩ hmem
      obtain ⟨a, ha, -⟩ := hall _ hmem (hpresent _ hmem)
      obtain ⟨other, hother, h⟩ := hequal (name, a)
        (mem_entryParts_rebuild.mpr ⟨v, hmem, hpresent _ hmem, ha⟩)
      have hget := Entries.get?_eq_some_of_mem hdistinct hmem
      obtain rfl : other = v := Option.some.inj (hother.symm.trans hget)
      exact ⟨Value.isAbsent_eq_false.mp (hpresent _ hmem), (hentry hmem (hpresent _ hmem) ha).mp h⟩
    · intro h
      refine ⟨fun entry hmem => Value.isAbsent_eq_false.mpr (h entry hmem).1, ?_⟩
      rintro ⟨name, a⟩ hpart
      obtain ⟨v, hmem, hpresent, ha⟩ := mem_entryParts_rebuild.mp hpart
      exact ⟨v, Entries.get?_eq_some_of_mem hdistinct hmem,
        (hentry hmem hpresent ha).mpr (h _ hmem).2⟩
  case union =>
    intro info before alternative after v p hbefore hp ih hs hv
    rw [Prunes.union_iff _ (conforms_of_make hp)]
    · exact ih (wellFormed_of_mem_union hs) hv
    · intro earlier hmem hconforms
      obtain ⟨a, ha⟩ := exists_make_of_conforms .rebuild hconforms
      simp [hbefore earlier hmem] at ha

/-! ## Parsing a parsed value -/

/-- **When parsing again changes nothing.** Parsing a parsed value gives an equal value, with the
same keys at every depth, exactly if no entry is left out on the way. -/
theorem parse_parse_equal_iff {schema : Schema} {v p q : Value} (hs : schema.WellFormed)
    (hv : v.DistinctKeys) (hp : parse schema v = .ok p) (hq : parse schema p = .ok q) :
    q.equal p = true ↔ ¬ Prunes schema p :=
  equal_iff_not_prunes (make_rebuild_eq_some.mpr hq) hs (distinctKeys_of_parse hs hv hp)

theorem distinctKeys_unsetPair :
    (Value.sequence [unsetEntry "x", unsetEntry "y"]).DistinctKeys := by
  simp [unsetEntry, Value.DistinctKeys, Value.DistinctKeysItems, Value.DistinctKeysEntries,
    Entries.keys]

theorem parse_unsetPair :
    parse pairOfFlags (.sequence [unsetEntry "x", unsetEntry "y"]) =
      .ok (.sequence [unsetEntry "x", .mapping []]) :=
  rfl

theorem parse_parse_unsetPair :
    parse pairOfFlags (.sequence [unsetEntry "x", .mapping []]) =
      .ok (.sequence [.mapping [], .mapping []]) :=
  rfl

/-- The second time the first alternative is taken, and its record leaves out the field `x`. -/
theorem parse_parse_equal_iff_unsetPair :
    pairOfFlags.WellFormed ∧ (Value.sequence [unsetEntry "x", unsetEntry "y"]).DistinctKeys ∧
      ((Value.sequence [.mapping [], .mapping []]).equal
          (.sequence [unsetEntry "x", .mapping []]) = true ↔
        ¬ Prunes pairOfFlags (.sequence [unsetEntry "x", .mapping []])) :=
  ⟨wellFormed_pairOfFlags, distinctKeys_unsetPair,
    parse_parse_equal_iff wellFormed_pairOfFlags distinctKeys_unsetPair parse_unsetPair
      parse_parse_unsetPair⟩

/-- Parsing a parsed value can leave out entries that were kept the first time. -/
theorem parse_not_idempotent :
    ¬ ∀ (schema : Schema) (v p q : Value), schema.WellFormed → v.DistinctKeys →
      parse schema v = .ok p → parse schema p = .ok q → q.equal p = true := by
  intro h
  have hequal := h _ _ _ _ wellFormed_pairOfFlags distinctKeys_unsetPair parse_unsetPair
    parse_parse_unsetPair
  exact absurd hequal (by decide)

/-! ## Schemas that parse once and for all -/

/-- The first schema is the second one or a schema inside it. -/
inductive PartOf : Schema → Schema → Prop
  | self (schema : Schema) : PartOf schema schema
  | element {part : Schema} {info : Info} {element : Schema} {length : Bounds UInt64}
      (h : PartOf part element) : PartOf part (.array info element length)
  | position {part : Schema} {info : Info} {positions : List Schema} {position : Schema}
      (hmem : position ∈ positions) (h : PartOf part position) : PartOf part (.tuple info positions)
  | field {part : Schema} {info : Info} {fields : List (String × Schema)}
      {field : String × Schema} (hmem : field ∈ fields) (h : PartOf part field.2) :
      PartOf part (.object info fields)
  | value {part : Schema} {info : Info} {value : Schema} {key : Option Schema}
      (h : PartOf part value) : PartOf part (.record info value key)
  | alternative {part : Schema} {info : Info} {alternatives : List Schema} {alternative : Schema}
      (hmem : alternative ∈ alternatives) (h : PartOf part alternative) :
      PartOf part (.union info alternatives)

/-- Only a record leaves out entries. -/
theorem exists_record_of_prunes {schema : Schema} {v : Value} (h : Prunes schema v) :
    ∃ info value key, PartOf (.record info value key) schema := by
  induction h with
  | item _ _ ih =>
    obtain ⟨info, value, key, hpart⟩ := ih
    exact ⟨info, value, key, .element hpart⟩
  | position hmem _ ih =>
    obtain ⟨info, value, key, hpart⟩ := ih
    exact ⟨info, value, key, .position (List.of_mem_zip hmem).1 hpart⟩
  | field hmem _ _ ih =>
    obtain ⟨info, value, key, hpart⟩ := ih
    exact ⟨info, value, key, .field hmem hpart⟩
  | absent _ => exact ⟨_, _, _, .self _⟩
  | entry _ _ _ => exact ⟨_, _, _, .self _⟩
  | alternative _ _ _ ih =>
    obtain ⟨info, value, key, hpart⟩ := ih
    exact ⟨info, value, key, .alternative (by simp) hpart⟩

/-- No union in the schema has a record in one of its alternatives. -/
def NoRecordBelowUnion (schema : Schema) : Prop :=
  ∀ info alternatives, PartOf (.union info alternatives) schema →
    ∀ info' value key, ¬ PartOf (.record info' value key) (.union info alternatives)

theorem NoRecordBelowUnion.of_parts {schema part : Schema} (h : NoRecordBelowUnion schema)
    (hparts : ∀ inner, PartOf inner part → PartOf inner schema) : NoRecordBelowUnion part := by
  intro info alternatives hunion
  exact h info alternatives (hparts _ hunion)

/-- With no record below a union, a parsed value loses nothing more. -/
theorem not_prunes_of_make_rebuild {schema : Schema} {v p : Value}
    (h : make .rebuild schema v = some p) :
    schema.WellFormed → NoRecordBelowUnion schema → ¬ Prunes schema p := by
  apply make_induction (h := h)
    (motive := fun schema _ p => schema.WellFormed → NoRecordBelowUnion schema → ¬ Prunes schema p)
  case exempt =>
    intro schema v hx hs hno
    exact Prunes.not_of_exempts hx
  case leaf =>
    intro info l brand v hl hs hno
    exact Prunes.not_leaf
  case array =>
    intro info element length items parts hparts hlength hs hno hprunes
    obtain ⟨part, hmem, hprunes⟩ := Prunes.array_iff.mp hprunes
    obtain ⟨item, -, -, ih⟩ := exists_of_mem_forall₂ hparts.flip hmem
    exact ih hs (hno.of_parts fun _ => .element) hprunes
  case tuple =>
    intro info positions items parts hlength hparts hs hno hprunes
    obtain ⟨pair, hmem, hprunes⟩ := Prunes.tuple_iff.mp hprunes
    obtain ⟨item, -, -, ih⟩ := List.forall₂_zip (forall₂_left_of_zip hlength hparts) hmem
    have hposition := (List.of_mem_zip hmem).1
    exact ih (wellFormed_tuple.mp hs _ hposition) (hno.of_parts fun _ => .position hposition)
      hprunes
  case object =>
    intro info fields entries hall hdeclared hs hno hprunes
    obtain ⟨hnames, hs⟩ := wellFormed_object.mp hs
    obtain ⟨field, hmem, part, hget, hprunes⟩ := Prunes.object_iff.mp hprunes
    rw [get?_fieldParts hnames hmem] at hget
    obtain ⟨v, hv, hpart⟩ := Option.bind_eq_some_iff.mp hget
    have ih := hall field hmem
    simp only [hv, Option.getD_some] at ih
    exact of_exists_make ih hpart (hs field hmem) (hno.of_parts fun _ => .field hmem) hprunes
  case record =>
    intro info value key entries hkeys hall hs hno hprunes
    obtain ⟨⟨name, part⟩, hmem, hcase⟩ := Prunes.record_iff.mp hprunes
    obtain ⟨v, hentry, hpresent, hpart⟩ := mem_entryParts_rebuild.mp hmem
    rcases hcase with rfl | hprunes
    · have habsent : Value.isAbsent .absent = false :=
        (isAbsent_of_make_rebuild hpart).trans hpresent
      simp [Value.isAbsent] at habsent
    · have ih := of_exists_make (hall _ hentry hpresent) hpart
      exact ih (wellFormed_of_record hs) (hno.of_parts fun _ => .value) hprunes
  case union =>
    intro info before alternative after v p hbefore hp ih hs hno hprunes
    obtain ⟨info', value, key, hpart⟩ := exists_record_of_prunes hprunes
    exact hno info _ (.self _) info' value key hpart

/-- Below unions without records, parsing a parsed value gives an equal value. -/
theorem parse_parse_equal_of_noRecordBelowUnion {schema : Schema} {v p q : Value}
    (hs : schema.WellFormed) (hv : v.DistinctKeys) (hno : NoRecordBelowUnion schema)
    (hp : parse schema v = .ok p) (hq : parse schema p = .ok q) : q.equal p = true :=
  (equal_iff_not_prunes (make_rebuild_eq_some.mpr hq) hs (distinctKeys_of_parse hs hv hp)).mpr
    (not_prunes_of_make_rebuild (make_rebuild_eq_some.mpr hp) hs hno)

end Schema

end Conform
