import Conform.Proofs.Reordering
import Conform.Proofs.Trimmed

/-!
# Where the parts of a parsed value come from

Parsing puts containers together anew. Everything else in the parsed value was taken as it is, by a
node of the schema that exempts it or by a leaf that accepts it: `accounts_of_make_rebuild`. What no
node of the schema takes therefore cannot be in a parsed value, at whatever place a value like it
stood before: a missing field, an item, an entry of a record, or an alternative of a union.

* Only an optional node takes what is absent, and only a nullable one takes null; a number is taken
  by a number leaf, which asks that it is finite, or by a constant that it is equal to.
* A value without absent parts, without big integers and with finite numbers comes back from JSON
  with its entries sorted (`Value.reordered_ofJson_toJson`).
* Both together: `parsed_is_clean`.
-/

namespace Conform

/-! ## Values that JSON keeps -/

namespace Value

theorem perm_readBack {entries : List (String × Value)} (hkeys : (Entries.keys entries).Nodup)
    (hpresent : ∀ entry ∈ entries, entry.2 ≠ .absent) :
    (entries.map fun entry => (entry.1, ofJson entry.2.toJson)).Perm (readBack entries) := by
  have hsorted := (Entries.perm_sorted (nodup_keys_entriesToJson hkeys)).symm
  rw [readBack, entriesOfJson_eq_map]
  simpa only [entriesToJson_eq_map hpresent, List.map_map, Function.comp_def] using
    hsorted.map fun member => (member.1, ofJson member.2)

/-- Without big integers, absent parts and numbers that are not finite, JSON loses nothing but the
order of entries. -/
theorem reordered_ofJson_toJson {v : Value} :
    v.DistinctKeys → v.Expressible → ¬ PartOf .absent v → v.Reordered (.ofJson v.toJson) := by
  induction v using Value.induction with
  | leaf v hitems hentries =>
    intro _ hv hpresent
    cases v with
    | absent => exact absurd (.self _) hpresent
    | null => exact .same _
    | bool b => exact .same _
    | number x =>
      rw [hv.ofJson_toJson_number]
      exact .same _
    | bigInt n => exact absurd (.self _) (hv.noBigInt n)
    | string text => exact .same _
    | sequence items => simp [items?] at hitems
    | mapping entries => simp [entries?] at hentries
  | sequence items ih =>
    intro hkeys hv hpresent
    rw [distinctKeys_sequence] at hkeys
    rw [ofJson_toJson_sequence]
    refine reordered_sequence (List.forall₂_map_right_iff.mpr (List.forall₂_same.mpr ?_))
    intro item hmem
    exact ih item hmem (hkeys item hmem) (hv.item hmem) fun h => hpresent (.item hmem h)
  | mapping entries ih =>
    intro hkeys hv hpresent
    obtain ⟨hdistinct, hkeys⟩ := distinctKeys_mapping.mp hkeys
    have hentries : ∀ entry ∈ entries, entry.2 ≠ .absent := by
      intro entry hmem habsent
      exact hpresent (.entry hmem (habsent ▸ .self _))
    rw [ofJson_toJson_mapping]
    refine reordered_mapping ⟨_, ?_, perm_readBack hdistinct hentries⟩
    refine List.forall₂_map_right_iff.mpr (List.forall₂_same.mpr fun entry hmem => ⟨rfl, ?_⟩)
    exact ih entry hmem (hkeys entry hmem) (hv.entry hmem (hentries entry hmem))
      fun h => hpresent (.entry hmem h)

end Value

namespace Schema

/-! ## Nodes that account for a value -/

/-- The value is a container, or some node of the schema takes it as it is. -/
inductive Accounts (schema : Schema) : Value → Prop
  | exempt {node : Schema} {v : Value} (hnode : PartOf node schema)
      (h : node.info.exempts v = true) : Accounts schema v
  | leaf {info : Info} {l : Leaf} {brand : Option Brand} {v : Value}
      (hnode : PartOf (.leaf info l brand) schema) (h : l.reject? v = none) : Accounts schema v
  | sequence (items : List Value) : Accounts schema (.sequence items)
  | mapping (entries : List (String × Value)) : Accounts schema (.mapping entries)

/-- What a schema accounts for is accounted for by any schema it is a part of. -/
theorem Accounts.of_parts {schema inner : Schema} {v : Value} (h : Accounts inner v)
    (hparts : ∀ node, PartOf node inner → PartOf node schema) : Accounts schema v := by
  cases h with
  | exempt hnode h => exact .exempt (hparts _ hnode) h
  | leaf hnode h => exact .leaf (hparts _ hnode) h
  | sequence items => exact .sequence items
  | mapping entries => exact .mapping entries

/-- Nothing stands in a value that a node exempts or a leaf accepts. -/
theorem eq_of_partOf_exempt {info : Info} {v part : Value} (h : info.exempts v = true)
    (hpart : Value.PartOf part v) : part = v := by
  cases hpart with
  | self => rfl
  | item => simp [exempts_sequence] at h
  | entry => simp [exempts_mapping] at h

theorem eq_of_partOf_leaf {l : Leaf} {v part : Value} (h : l.reject? v = none)
    (hpart : Value.PartOf part v) : part = v := by
  cases hpart with
  | self => rfl
  | item => simp [Leaf.reject?_sequence] at h
  | entry => simp [Leaf.reject?_mapping] at h

/-- Every part of a parsed value is a container or was taken as it is. -/
theorem accounts_of_make_rebuild {schema : Schema} {v p : Value}
    (h : make .rebuild schema v = some p) : ∀ part, Value.PartOf part p → Accounts schema part := by
  apply make_induction (h := h)
    (motive := fun schema _ p => ∀ part, Value.PartOf part p → Accounts schema part)
  case exempt =>
    intro schema v hx part hpart
    obtain rfl := eq_of_partOf_exempt hx hpart
    exact .exempt (.self _) hx
  case leaf =>
    intro info l brand v hl part hpart
    obtain rfl := eq_of_partOf_leaf hl hpart
    exact .leaf (.self _) hl
  case array =>
    intro info element length items parts hparts hlength part hpart
    rcases Value.partOf_sequence_iff.mp hpart with rfl | ⟨p, hp, hpart⟩
    · exact .sequence parts
    · obtain ⟨item, -, -, ih⟩ := exists_of_mem_forall₂ hparts.flip hp
      exact (ih part hpart).of_parts fun _ => .element
  case tuple =>
    intro info positions items parts hlength hparts part hpart
    rcases Value.partOf_sequence_iff.mp hpart with rfl | ⟨p, hp, hpart⟩
    · exact .sequence parts
    · obtain ⟨pair, hpair, -, ih⟩ := exists_of_mem_forall₂ hparts.flip hp
      exact (ih part hpart).of_parts fun _ => .position (List.of_mem_zip hpair).1
  case object =>
    intro info fields entries hall hdeclared part hpart
    rcases Value.partOf_mapping_iff.mp hpart with rfl | ⟨⟨name, p⟩, hp, hpart⟩
    · exact .mapping _
    · obtain ⟨field, w, hfield, hw, hmake⟩ := mem_fieldParts.mp hp
      have ih := hall _ hfield
      simp only [hw, Option.getD_some] at ih
      exact (of_exists_make ih hmake part hpart).of_parts fun _ => .field hfield
  case record =>
    intro info value key entries hkeys hall part hpart
    rcases Value.partOf_mapping_iff.mp hpart with rfl | ⟨⟨name, p⟩, hp, hpart⟩
    · exact .mapping _
    · obtain ⟨w, hentry, hpresent, hmake⟩ := mem_entryParts_rebuild.mp hp
      have ih := of_exists_make (hall _ hentry hpresent) hmake
      exact (ih part hpart).of_parts fun _ => .value
  case union =>
    intro info before alternative after v p hbefore hp ih part hpart
    exact (ih part hpart).of_parts fun _ => .alternative (by simp)

/-! ## What a schema cannot take -/

/-- No node is optional. A key schema is no node that a value is put to. -/
def NoOptional (schema : Schema) : Prop :=
  ∀ node, PartOf node schema → node.info.optional = false

/-- No node of the schema accepts null beside its kind. -/
def NoNullable (schema : Schema) : Prop :=
  ∀ node, PartOf node schema → node.info.nullable = false

/-- No node of the schema asks for a big integer. -/
def NoBigInt (schema : Schema) : Prop :=
  ∀ node, PartOf node schema → node.kind ≠ .bigint

/-- Every number that is a constant of the schema is finite. Bounds may be infinite or NaN. -/
def FiniteConstants (schema : Schema) : Prop :=
  ∀ info x brand, PartOf (.leaf info (.literal (.number x)) brand) schema → x.isFinite = true

theorem Accounts.not_absent {schema : Schema} (hno : schema.NoOptional) :
    ¬ Accounts schema .absent := by
  intro h
  cases h with
  | exempt hnode h => simp [Info.exempts, Value.isAbsent, Value.isNull, hno _ hnode] at h
  | @leaf _ l _ _ hnode h =>
    cases l <;> simp [Leaf.reject?, Constant.accepts] at h

theorem Accounts.not_null {schema : Schema} (hno : schema.NoNullable) :
    ¬ Accounts schema .null := by
  intro h
  cases h with
  | exempt hnode h => simp [Info.exempts, Value.isAbsent, Value.isNull, hno _ hnode] at h
  | @leaf _ l _ _ hnode h =>
    cases l <;> simp [Leaf.reject?, Constant.accepts] at h

theorem Accounts.not_bigInt {schema : Schema} (hno : schema.NoBigInt) (n : BigInt) :
    ¬ Accounts schema (.bigInt n) := by
  intro h
  cases h with
  | exempt hnode h => simp [Info.exempts, Value.isAbsent, Value.isNull] at h
  | @leaf _ l _ _ hnode h =>
    cases l with
    | bigint => exact hno _ hnode rfl
    | _ => simp [Leaf.reject?, Constant.accepts] at h

/-- Numbers that a schema with finite constants accounts for are finite. -/
theorem Accounts.isFinite {schema : Schema} (hfinite : schema.FiniteConstants) {x : Double}
    (h : Accounts schema (.number x)) : x.isFinite = true := by
  cases h with
  | exempt hnode h => simp [Info.exempts, Value.isAbsent, Value.isNull] at h
  | @leaf info l brand _ hnode h =>
    cases l with
    | number range =>
      by_contra hx
      simp [Leaf.reject?, hx] at h
    | literal value =>
      cases value with
      | string text => simp [Leaf.reject?, Constant.accepts] at h
      | number y =>
        have hequal : y.equal x = true := by
          by_contra hne
          simp [Leaf.reject?, Constant.accepts, hne] at h
        rw [← Double.isFinite_of_equal hequal]
        exact hfinite info y brand hnode
    | _ => simp [Leaf.reject?] at h

/-! ## Parsed values -/

/-- **What parsing hands out is clean.** Nothing absent, no null and no number that is not finite
stands in a parsed value, at any depth, unless the schema says so somewhere; and where it has
nothing that JSON cannot express the parsed value is read back from its JSON tree, with its entries
in another order. -/
theorem parsed_is_clean {schema : Schema} {v p : Value} (hs : schema.DistinctNames)
    (hv : v.DistinctKeys) (hp : parse schema v = .ok p) :
    (schema.NoOptional → ¬ Value.PartOf .absent p) ∧
    (schema.NoNullable → ¬ Value.PartOf .null p) ∧
    (schema.FiniteConstants → ∀ x, Value.PartOf (.number x) p → x.isFinite = true) ∧
    (schema.NoOptional → schema.NoBigInt → schema.FiniteConstants →
      p.Reordered (.ofJson p.toJson)) := by
  have hmake := make_rebuild_eq_some.mpr hp
  have haccounts := accounts_of_make_rebuild hmake
  have habsent (hno : schema.NoOptional) : ¬ Value.PartOf .absent p :=
    fun hpart => Accounts.not_absent hno (haccounts _ hpart)
  have hfinite (h : schema.FiniteConstants) (x : Double) (hpart : Value.PartOf (.number x) p) :
      x.isFinite = true :=
    (haccounts _ hpart).isFinite h
  refine ⟨habsent, fun hno hpart => Accounts.not_null hno (haccounts _ hpart), hfinite, ?_⟩
  intro hoptional hbig hconstants
  have hexpressible : p.Expressible :=
    { noBigInt := fun n hpart => Accounts.not_bigInt hbig n (haccounts _ hpart)
      finite := hfinite hconstants
      present := fun heq => habsent hoptional (heq ▸ .self _)
      itemsPresent := fun items hpart hmem =>
        habsent hoptional (.trans (.item hmem (.self _)) hpart) }
  exact Value.reordered_ofJson_toJson ((trimmed_of_make_rebuild hmake hs hv).distinctKeys hv)
    hexpressible (habsent hoptional)

/-- The double 1. -/
def unity : Double :=
  .ofMagnitude false 0x3ff0000000000000

/-- A unit, which is the constant 1, and levels under any names. -/
def measurement : Schema :=
  .object .plain
    [("unit", .leaf .plain (.literal (.number unity)) none),
      ("levels", .record .plain (.leaf .plain (.number .unset) none) none)]

/-- Levels before the unit, with one level that has nothing under its name. -/
def measured : Value :=
  .mapping
    [("levels", .mapping [("low", .number unity), ("high", .absent)]),
      ("unit", .number unity)]

theorem parse_measured :
    parse measurement measured =
      .ok (.mapping
        [("unit", .number unity), ("levels", .mapping [("low", .number unity)])]) :=
  rfl

theorem distinctKeys_measured : measured.DistinctKeys := by
  simp [measured, Value.DistinctKeys, Value.DistinctKeysEntries, Entries.keys]

theorem wellFormed_measurement : measurement.WellFormed := by
  simp [measurement, WellFormed, WellFormedFields, Entries.keys]

theorem partOf_measurement {node : Schema} (h : PartOf node measurement) :
    node = measurement ∨ node = .leaf .plain (.literal (.number unity)) none ∨
      node = .record .plain (.leaf .plain (.number .unset) none) none ∨
      node = .leaf .plain (.number .unset) none := by
  cases h with
  | self => exact .inl rfl
  | field hmem h =>
    simp only [List.mem_cons, List.not_mem_nil, or_false] at hmem
    rcases hmem with rfl | rfl
    · cases h
      exact .inr (.inl rfl)
    · cases h with
      | self => exact .inr (.inr (.inl rfl))
      | value h =>
        cases h
        exact .inr (.inr (.inr rfl))

/-- The entry with nothing under it is gone, and the rest is what JSON holds, with its keys
sorted. -/
theorem parsed_is_clean_measurement :
    (measurement.DistinctNames ∧ measured.DistinctKeys) ∧
    (measurement.NoOptional ∧ measurement.NoNullable ∧ measurement.NoBigInt ∧
      measurement.FiniteConstants) ∧
    ∃ p, parse measurement measured = .ok p ∧ ¬ Value.PartOf .absent p ∧ ¬ Value.PartOf .null p ∧
      (∀ x, Value.PartOf (.number x) p → x.isFinite = true) ∧ p.Reordered (.ofJson p.toJson) := by
  have hnames := wellFormed_measurement.distinctNames
  have hoptional : measurement.NoOptional := by
    intro node h
    rcases partOf_measurement h with rfl | rfl | rfl | rfl <;> rfl
  have hnullable : measurement.NoNullable := by
    intro node h
    rcases partOf_measurement h with rfl | rfl | rfl | rfl <;> rfl
  have hbig : measurement.NoBigInt := by
    intro node h
    rcases partOf_measurement h with rfl | rfl | rfl | rfl <;> decide
  have hconstants : measurement.FiniteConstants := by
    intro info x brand h
    obtain ⟨-, rfl, -⟩ : info = .plain ∧ x = unity ∧ brand = none := by
      simpa [measurement] using partOf_measurement h
    rfl
  obtain ⟨habsent, hnull, hfinite, hback⟩ :=
    parsed_is_clean hnames distinctKeys_measured parse_measured
  exact ⟨⟨hnames, distinctKeys_measured⟩, ⟨hoptional, hnullable, hbig, hconstants⟩, _,
    parse_measured, habsent hoptional, hnull hnullable, hfinite hconstants,
    hback hoptional hbig hconstants⟩

end Schema

end Conform
