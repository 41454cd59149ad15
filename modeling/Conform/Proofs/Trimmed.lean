import Conform.Proofs.Export

/-!
# What parsing leaves out

`Value.Trimmed v p` says that `p` is `v` without some of the entries that have nothing under them,
at any depth, and with the entries of its mappings in any order. Items, keys and leaves are those of
`v`.

* `trimmed_of_make_rebuild`: so is every parsed value.
* `Value.Trimmed.toJson_eq`: a trimmed value has the same JSON tree, which has no place for such
  entries anyway.
* `Value.equal_of_trimmed`: a value with something under every entry is equal to what it is trimmed
  to.
-/

namespace Conform

/-! ## Trimmed values -/

/-- The second value is the first one with some of the entries left out, at any depth, that have
nothing under them. -/
inductive Value.Trimmed : Value → Value → Prop
  | same (v : Value) : Trimmed v v
  | sequence {items parts : List Value} (hlength : items.length = parts.length)
      (h : ∀ pair ∈ items.zip parts, Trimmed pair.1 pair.2) :
      Trimmed (.sequence items) (.sequence parts)
  | mapping {entries kept dropped parts : List (String × Value)}
      (hperm : entries.Perm (kept ++ dropped)) (hdropped : ∀ entry ∈ dropped, entry.2 = .absent)
      (hkeys : Entries.keys parts = Entries.keys kept)
      (h : ∀ pair ∈ kept.zip parts, Trimmed pair.1.2 pair.2.2) :
      Trimmed (.mapping entries) (.mapping parts)

/-- Every entry, at every depth, has something under it. -/
def Value.EntriesPresent (v : Value) : Prop :=
  ∀ entries, PartOf (.mapping entries) v → ∀ entry ∈ entries, entry.2 ≠ .absent

/-- No object in the schema declares a field twice. -/
def Schema.DistinctNames (schema : Schema) : Prop :=
  ∀ info fields, PartOf (.object info fields) schema → (Entries.keys fields).Nodup

/-! ## What is kept of a value -/

namespace Value

variable {v p : Value} {entries kept dropped parts : List (String × Value)}

theorem Trimmed.of_forall₂ (hperm : entries.Perm (kept ++ dropped))
    (hdropped : ∀ entry ∈ dropped, entry.2 = .absent)
    (h : List.Forall₂ (fun entry part => part.1 = entry.1 ∧ Trimmed entry.2 part.2) kept parts) :
    Trimmed (.mapping entries) (.mapping parts) := by
  obtain ⟨hkeys, hparts⟩ := Entries.forall₂_iff.mp h
  exact .mapping hperm hdropped hkeys hparts

theorem Trimmed.isAbsent_eq (h : Trimmed v p) : p.isAbsent = v.isAbsent := by
  cases h <;> rfl

theorem Trimmed.distinctKeys (h : Trimmed v p) : v.DistinctKeys → p.DistinctKeys := by
  induction h with
  | same v => exact id
  | @sequence items parts hlength _ ih =>
    intro hv
    rw [distinctKeys_sequence] at hv ⊢
    intro part hpart
    rw [← List.map_snd_zip (Nat.le_of_eq hlength.symm)] at hpart
    obtain ⟨pair, hpair, rfl⟩ := List.mem_map.mp hpart
    exact ih pair hpair (hv _ (List.of_mem_zip hpair).1)
  | @mapping entries kept dropped parts hperm hdropped hkeys _ ih =>
    intro hv
    obtain ⟨hdistinct, hv⟩ := distinctKeys_mapping.mp hv
    have hlength : parts.length = kept.length := by
      simpa [Entries.keys] using congrArg List.length hkeys
    refine distinctKeys_mapping.mpr ⟨?_, fun part hpart => ?_⟩
    · have hnodup := (hperm.map Prod.fst).nodup_iff.mp hdistinct
      rw [List.map_append] at hnodup
      rw [hkeys]
      exact hnodup.of_append_left
    · rw [← List.map_snd_zip (Nat.le_of_eq hlength)] at hpart
      obtain ⟨pair, hpair, rfl⟩ := List.mem_map.mp hpart
      have hmem := hperm.mem_iff.mpr (List.mem_append_left _ (List.of_mem_zip hpair).1)
      exact ih pair hpair (hv _ hmem)

/-- Trees of entries that are alike, one by one, are equal. -/
theorem entriesToJson_eq_of_forall₂
    (h : List.Forall₂ (fun entry part => part.1 = entry.1 ∧
      part.2.isAbsent = entry.2.isAbsent ∧ part.2.toJson = entry.2.toJson) kept parts) :
    entriesToJson parts = entriesToJson kept := by
  induction h with
  | nil => rfl
  | @cons entry part _ _ hpart _ ih =>
    obtain ⟨k, v⟩ := entry
    obtain ⟨_, p⟩ := part
    obtain ⟨rfl, habsent, hjson⟩ := hpart
    simp only [entriesToJson, habsent, hjson, ih]

theorem entriesToJson_eq_nil (h : ∀ entry ∈ dropped, entry.2 = .absent) :
    entriesToJson dropped = [] := by
  rw [entriesToJson_eq_filterMap, List.filterMap_eq_nil_iff]
  intro entry hentry
  simp [h entry hentry, isAbsent]

/-- What is left out does not show in the JSON tree, and neither does the order of entries. -/
theorem Trimmed.toJson_eq (h : Trimmed v p) : v.DistinctKeys → p.toJson = v.toJson := by
  induction h with
  | same v => exact fun _ => rfl
  | @sequence items parts hlength _ ih =>
    intro hv
    rw [distinctKeys_sequence] at hv
    have hparts : List.Forall₂ (fun item part => toJson part = toJson item) items parts :=
      List.forall₂_iff_zip.mpr ⟨hlength, fun hpair => ih _ hpair (hv _ (List.of_mem_zip hpair).1)⟩
    have hmap : List.Forall₂ (· = ·) (parts.map toJson) (items.map toJson) := by
      simpa only [List.forall₂_map_left_iff, List.forall₂_map_right_iff] using hparts.flip
    rw [List.forall₂_eq_eq_eq] at hmap
    rw [toJson, toJson, itemsToJson_eq_map, itemsToJson_eq_map, hmap]
  | @mapping entries kept dropped parts hperm hdropped hkeys h ih =>
    intro hv
    obtain ⟨hdistinct, hv⟩ := distinctKeys_mapping.mp hv
    have hkept : entriesToJson parts = entriesToJson kept := by
      apply entriesToJson_eq_of_forall₂
      refine (Entries.forall₂_iff
        (r := fun v p => p.isAbsent = v.isAbsent ∧ p.toJson = v.toJson)).mpr ⟨hkeys, ?_⟩
      intro pair hpair
      have hmem : pair.1 ∈ entries :=
        hperm.mem_iff.mpr (List.mem_append_left _ (List.of_mem_zip hpair).1)
      exact ⟨(h pair hpair).isAbsent_eq, ih pair hpair (hv _ hmem)⟩
    have hperm' : (entriesToJson entries).Perm (entriesToJson parts) := by
      have hfilter := hperm.filterMap fun entry : String × Value =>
        if entry.2.isAbsent then none else some (entry.1, entry.2.toJson)
      rw [List.filterMap_append] at hfilter
      simpa only [← entriesToJson_eq_filterMap, entriesToJson_eq_nil hdropped, List.append_nil,
        ← hkept] using hfilter
    rw [toJson, toJson,
      Entries.sorted_eq_of_perm (nodup_keys_entriesToJson hdistinct) hperm']

theorem EntriesPresent.item {items : List Value} {item : Value}
    (h : EntriesPresent (.sequence items)) (hmem : item ∈ items) : EntriesPresent item :=
  fun entries hpart => h entries (.item hmem hpart)

theorem EntriesPresent.entry {entry : String × Value} (h : EntriesPresent (.mapping entries))
    (hmem : entry ∈ entries) : EntriesPresent entry.2 :=
  fun entries hpart => h entries (.entry hmem hpart)

/-- Where every entry has something under it nothing is left out. -/
theorem equal_of_trimmed (h : Trimmed v p) :
    v.DistinctKeys → v.EntriesPresent → v.equal v = true → p.equal v = true := by
  induction h with
  | same v => exact fun _ _ hself => hself
  | @sequence items parts hlength _ ih =>
    intro hv hpresent hself
    rw [distinctKeys_sequence] at hv
    have hitems : ∀ item ∈ items, item.equal item = true :=
      List.forall₂_same.mp (equalItems_iff.mp hself)
    have hparts : List.Forall₂ (fun item part => equal part item = true) items parts := by
      refine List.forall₂_iff_zip.mpr ⟨hlength, fun {item part} hpair => ?_⟩
      have hmem := (List.of_mem_zip hpair).1
      exact ih _ hpair (hv item hmem) (hpresent.item hmem) (hitems item hmem)
    exact equalItems_iff.mpr hparts.flip
  | @mapping entries kept dropped parts hperm hdropped hkeys h ih =>
    intro hv hpresent hself
    obtain ⟨hdistinct, hv⟩ := distinctKeys_mapping.mp hv
    have hnone : dropped = [] := by
      refine List.eq_nil_iff_forall_not_mem.mpr fun entry hentry => ?_
      have hmem := hperm.mem_iff.mpr (List.mem_append_right kept hentry)
      exact hpresent entries (.self _) entry hmem (hdropped entry hentry)
    rw [hnone, List.append_nil] at hperm
    have hselves : ∀ entry ∈ entries, entry.2.equal entry.2 = true := by
      intro entry hmem
      obtain ⟨other, hget, hequal⟩ := (equal_mapping_iff.mp hself).2 entry hmem
      obtain rfl : other = entry.2 :=
        Option.some.inj (hget.symm.trans (Entries.get?_eq_some_of_mem hdistinct hmem))
      exact hequal
    have hparts : List.Forall₂ (fun entry part => part.1 = entry.1 ∧ equal part.2 entry.2 = true)
        kept parts := by
      refine (Entries.forall₂_iff (r := fun v p => p.equal v = true)).mpr ⟨hkeys, ?_⟩
      intro pair hpair
      have hmem := hperm.mem_iff.mpr (List.of_mem_zip hpair).1
      exact ih pair hpair (hv _ hmem) (hpresent.entry hmem) (hselves _ hmem)
    refine equal_mapping_iff.mpr ⟨?_, fun part hpart => ?_⟩
    · rw [hperm.length_eq, hparts.length_eq]
    · obtain ⟨entry, hentry, hkey, hequal⟩ := exists_of_mem_forall₂ hparts.flip hpart
      have hget := Entries.get?_eq_some_of_mem hdistinct (hperm.mem_iff.mpr hentry)
      exact ⟨entry.2, hkey ▸ hget, hequal⟩

end Value

/-! ## Parsed values -/

namespace Schema

theorem PartOf.wellFormed {part schema : Schema} (h : PartOf part schema) :
    schema.WellFormed → part.WellFormed := by
  induction h with
  | self => exact id
  | element _ ih => exact ih
  | position hmem _ ih => exact fun hs => ih (wellFormed_tuple.mp hs _ hmem)
  | field hmem _ ih => exact fun hs => ih ((wellFormed_object.mp hs).2 _ hmem)
  | value _ ih => exact fun hs => ih (wellFormed_of_record hs)
  | alternative hmem _ ih => exact fun hs => ih ((wellFormed_union.mp hs).2 _ hmem)

theorem WellFormed.distinctNames {schema : Schema} (hs : schema.WellFormed) :
    schema.DistinctNames :=
  fun _ _ hpart => (wellFormed_object.mp (hpart.wellFormed hs)).1

theorem DistinctNames.of_parts {schema part : Schema} (h : schema.DistinctNames)
    (hparts : ∀ inner, PartOf inner part → PartOf inner schema) : part.DistinctNames :=
  fun info fields hpart => h info fields (hparts _ hpart)

/-- The entries of a mapping in the order in which their keys are declared. -/
def declaredEntries (fields : List (String × Schema)) (entries : List (String × Value)) :
    List (String × Value) :=
  fields.filterMap fun field => (Entries.get? field.1 entries).map fun v => (field.1, v)

/-- The entries that fields declare are all entries, if none is undeclared. -/
theorem perm_declaredEntries {fields : List (String × Schema)} {entries : List (String × Value)}
    (hnames : (Entries.keys fields).Nodup) (hkeys : (Entries.keys entries).Nodup)
    (hdeclared : ∀ entry ∈ entries, entry.1 ∈ Entries.keys fields) :
    entries.Perm (declaredEntries fields entries) := by
  have hkeys' : (Entries.keys (declaredEntries fields entries)).Nodup := by
    refine Entries.nodup_keys_filterMap ?_ hnames
    intro field entry hentry
    obtain ⟨v, -, rfl⟩ := Option.map_eq_some_iff.mp hentry
    rfl
  refine (List.perm_ext_iff_of_nodup (List.Nodup.of_map _ hkeys) (List.Nodup.of_map _ hkeys')).mpr
    fun ⟨name, v⟩ => ?_
  simp only [declaredEntries, List.mem_filterMap, Option.map_eq_some_iff, Prod.mk.injEq]
  constructor
  · intro hentry
    obtain ⟨field, hfield, hname⟩ := List.mem_map.mp (hdeclared _ hentry)
    exact ⟨field, hfield, v, hname ▸ Entries.get?_eq_some_of_mem hkeys hentry, hname, rfl⟩
  · rintro ⟨field, -, w, hget, rfl, rfl⟩
    exact Entries.mem_of_get? hget

/-- Parsing does no more than leave out `Absent` entries and rearrange fields. -/
theorem trimmed_of_make_rebuild {schema : Schema} {v p : Value}
    (h : make .rebuild schema v = some p) :
    schema.DistinctNames → v.DistinctKeys → Value.Trimmed v p := by
  apply make_induction (h := h)
    (motive := fun schema v p => schema.DistinctNames → v.DistinctKeys → Value.Trimmed v p)
  case exempt =>
    intro schema v hx hs hv
    exact .same v
  case leaf =>
    intro info l brand v hl hs hv
    exact .same v
  case array =>
    intro info element length items parts hparts hlength hs hv
    rw [Value.distinctKeys_sequence] at hv
    refine .sequence hparts.length_eq fun pair hpair => ?_
    exact (List.forall₂_zip hparts hpair).2 (hs.of_parts fun _ => .element)
      (hv _ (List.of_mem_zip hpair).1)
  case tuple =>
    intro info positions items parts hlength hparts hs hv
    rw [Value.distinctKeys_sequence] at hv
    have hitems := forall₂_right_of_zip hlength hparts
    refine .sequence hitems.length_eq fun pair hpair => ?_
    obtain ⟨position, hposition, -, ih⟩ := List.forall₂_zip hitems hpair
    exact ih (hs.of_parts fun _ => .position hposition) (hv _ (List.of_mem_zip hpair).1)
  case object =>
    intro info fields entries hall hdeclared hs hv
    obtain ⟨hkeys, hv⟩ := Value.distinctKeys_mapping.mp hv
    have hperm := perm_declaredEntries (hs info fields (.self _)) hkeys
      (hasUndeclared_eq_false.mp hdeclared)
    rw [← List.append_nil (declaredEntries fields entries)] at hperm
    refine .of_forall₂ hperm (by simp) (forall₂_filterMap fun field hfield => ?_)
    obtain ⟨a, ha, ih⟩ := hall field hfield
    cases hget : Entries.get? field.1 entries with
    | none => exact .none
    | some w =>
      simp only [hget, Option.getD_some] at ha ih
      simp only [Option.map_some, Option.bind_some, ha]
      exact .some ⟨rfl, ih (hs.of_parts fun _ => .field hfield) (hv _ (Entries.mem_of_get? hget))⟩
  case record =>
    intro info value key entries hkeys hall hs hv
    obtain ⟨hdistinct, hv⟩ := Value.distinctKeys_mapping.mp hv
    have hperm := (List.filter_append_perm (fun entry => !entry.2.isAbsent) entries).symm
    refine .of_forall₂ hperm ?_ ?_
    · intro entry hentry
      have habsent : entry.2.isAbsent = true := by simpa using (List.mem_filter.mp hentry).2
      exact Value.isAbsent_eq_true.mp habsent
    · rw [← List.filterMap_eq_filter]
      refine forall₂_filterMap fun entry hentry => ?_
      cases hpresent : entry.2.isAbsent with
      | true => simp [Option.guard, hpresent]
      | false =>
        obtain ⟨a, ha, ih⟩ := hall entry hentry hpresent
        have hkept : Policy.rebuild.drops a = false := (isAbsent_of_make_rebuild ha).trans hpresent
        simp only [Option.guard, hpresent, ha, hkept, Bool.not_false, if_true, Bool.false_eq_true,
          if_false, Option.bind_some]
        exact .some ⟨rfl, ih (hs.of_parts fun _ => .value) (hv _ hentry)⟩
  case union =>
    intro info before alternative after v p hbefore hp ih hs hv
    exact ih (hs.of_parts fun _ => .alternative (by simp)) hv

/-- No number in an accepted value is a NaN, so the value is equal to itself. -/
theorem equal_self_of_conforms {schema : Schema} {v : Value} (h : Conforms schema v) :
    v.DistinctKeys → v.equal v = true := by
  induction h with
  | number hfinite _ =>
    intro _
    rw [Value.equal, Double.equal_self]
    exact Double.isNaN_of_isFinite hfinite
  | literalNumber hequal =>
    intro _
    rw [Value.equal, Double.equal_self]
    exact (Double.equal_iff.mp hequal).2.1
  | array _ _ ih =>
    intro hv
    rw [Value.distinctKeys_sequence] at hv
    refine Value.equalItems_iff.mpr (List.forall₂_same.mpr fun item hitem => ?_)
    exact ih item hitem (hv _ hitem)
  | @tuple info positions items hlength _ ih =>
    intro hv
    rw [Value.distinctKeys_sequence] at hv
    refine Value.equalItems_iff.mpr (List.forall₂_same.mpr fun item hitem => ?_)
    have hsnd : (positions.zip items).map Prod.snd = items :=
      List.map_snd_zip (Nat.le_of_eq hlength)
    obtain ⟨pair, hpair, rfl⟩ := List.mem_map.mp (hsnd ▸ hitem)
    exact ih pair hpair (hv _ hitem)
  | @object info fields entries hdeclared _ ih =>
    intro hv
    obtain ⟨hkeys, hv⟩ := Value.distinctKeys_mapping.mp hv
    refine Value.equal_mapping_iff.mpr ⟨rfl, ?_⟩
    rintro ⟨name, v⟩ hentry
    have hget := Entries.get?_eq_some_of_mem hkeys hentry
    obtain ⟨field, hfield, rfl⟩ := List.mem_map.mp (hdeclared _ hentry)
    have ih := ih field hfield
    simp only [hget, Option.getD_some] at ih
    exact ⟨v, hget, ih (hv _ hentry)⟩
  | @record info value key entries _ _ ih =>
    intro hv
    obtain ⟨hkeys, hv⟩ := Value.distinctKeys_mapping.mp hv
    refine Value.equal_mapping_iff.mpr ⟨rfl, fun entry hentry => ?_⟩
    refine ⟨entry.2, Entries.get?_eq_some_of_mem hkeys hentry, ?_⟩
    by_cases habsent : entry.2 = .absent
    · rw [habsent]
      rfl
    · exact ih entry hentry habsent (hv _ hentry)
  | union _ _ ih => exact ih
  | _ => simp [Value.equal]

/-- **Parsing removes nothing but entries with nothing under them.** The parsed value is the given
one without some of these, with entries in any order; it has the same JSON tree, and it is equal to
the given value if every entry of that has something under it. -/
theorem trimmed_of_parse {schema : Schema} {v p : Value} (hs : schema.DistinctNames)
    (hv : v.DistinctKeys) (hp : parse schema v = .ok p) :
    Value.Trimmed v p ∧ p.toJson = v.toJson ∧ (v.EntriesPresent → p.equal v = true) := by
  have hmake := make_rebuild_eq_some.mpr hp
  have htrimmed := trimmed_of_make_rebuild hmake hs hv
  refine ⟨htrimmed, htrimmed.toJson_eq hv, fun hpresent => ?_⟩
  exact Value.equal_of_trimmed htrimmed hv hpresent
    (equal_self_of_conforms (conforms_of_make hmake) hv)

/-- Two flags under a name each. -/
def twoFlags : Schema :=
  .object .plain [("x", flag true), ("y", flag false)]

/-- The value of both flags, in the other order. -/
def swappedFlags : Value :=
  .mapping [("y", .bool false), ("x", .bool true)]

theorem wellFormed_twoFlags : twoFlags.WellFormed := by
  simp [twoFlags, flag, WellFormed, WellFormedFields, Entries.keys]

theorem distinctKeys_swappedFlags : swappedFlags.DistinctKeys := by
  simp [swappedFlags, Value.DistinctKeys, Value.DistinctKeysEntries, Entries.keys]

theorem parse_swappedFlags :
    parse twoFlags swappedFlags = .ok (.mapping [("x", .bool true), ("y", .bool false)]) :=
  rfl

theorem entriesPresent_swappedFlags : swappedFlags.EntriesPresent := by
  intro entries hpart
  rcases Value.partOf_mapping_iff.mp hpart with heq | ⟨entry, hmem, hpart⟩
  · cases heq
    simp
  · simp only [List.mem_cons, List.not_mem_nil, or_false] at hmem
    rcases hmem with rfl | rfl <;> cases hpart

/-- An entry of a record is left out while one of an object stays, and entries change places. -/
theorem trimmed_of_parse_flags :
    (pairOfFlags.DistinctNames ∧ (Value.sequence [unsetEntry "x", unsetEntry "y"]).DistinctKeys ∧
      parse pairOfFlags (.sequence [unsetEntry "x", unsetEntry "y"]) =
        .ok (.sequence [unsetEntry "x", .mapping []]) ∧
      Value.Trimmed (.sequence [unsetEntry "x", unsetEntry "y"])
        (.sequence [unsetEntry "x", .mapping []])) ∧
    (twoFlags.DistinctNames ∧ swappedFlags.DistinctKeys ∧ swappedFlags.EntriesPresent ∧
      (Value.mapping [("x", .bool true), ("y", .bool false)]).equal swappedFlags = true) := by
  have hpairs := wellFormed_pairOfFlags.distinctNames
  have hflags := wellFormed_twoFlags.distinctNames
  have hdropped := trimmed_of_parse hpairs distinctKeys_unsetPair parse_unsetPair
  have hswapped := trimmed_of_parse hflags distinctKeys_swappedFlags parse_swappedFlags
  exact ⟨⟨hpairs, distinctKeys_unsetPair, parse_unsetPair, hdropped.1⟩,
    hflags, distinctKeys_swappedFlags, entriesPresent_swappedFlags,
    hswapped.2.2 entriesPresent_swappedFlags⟩

end Schema

end Conform
