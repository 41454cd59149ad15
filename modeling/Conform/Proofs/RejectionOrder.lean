import Conform.Proofs.Rejections

/-!
# The order of rejections

The rejections of a value come in the order in which a reader of the schema meets their places: the
parts of a sequence by index, the fields of an object as they are declared, the entries of a record
as the value has them, and the rejection of a key before those of what stands under it.

A rejection does not say by itself whether it is about a key. Where a text stands under a key that
is the same text, and the key schema is also the value schema, the two rejections of the entry are
equal. `Report` therefore adds to each rejection its origin.

* `exists_reported`: the rejections of a value with their origins, in the order of `Precedes`.
* `rejections_in_order`: these are what validation ends with, there is one at least, and a node that
  is rejected has no rejection below it and no second one at its own path.
-/

namespace Conform

open Schema

/-! ## Paths in order -/

/-- The first segment comes before the second one in the container. -/
inductive SegmentBefore : Schema → Value → Segment → Segment → Prop
  | element {info : Info} {element : Schema} {length : Bounds UInt64} {items : List Value}
      {i j : Nat} (h : i < j) :
      SegmentBefore (.array info element length) (.sequence items) (.index i) (.index j)
  | position {info : Info} {positions : List Schema} {items : List Value} {i j : Nat} (h : i < j) :
      SegmentBefore (.tuple info positions) (.sequence items) (.index i) (.index j)
  | field {info : Info} {fields : List (String × Schema)} {entries : List (String × Value)}
      {name other : String} (h : List.Sublist [name, other] (Entries.keys fields)) :
      SegmentBefore (.object info fields) (.mapping entries) (.key name) (.key other)
  | entry {info : Info} {value : Schema} {key : Option Schema} {entries : List (String × Value)}
      {name other : String} (h : List.Sublist [name, other] (Entries.keys entries)) :
      SegmentBefore (.record info value key) (.mapping entries) (.key name) (.key other)

/-- Where the paths part, the first one takes the segment that comes before. -/
def PathBefore (schema : Schema) (v : Value) (p q : Path) : Prop :=
  ∃ common a b schema' v', schema.walk v common = some (schema', v') ∧
    SegmentBefore schema' v' a b ∧ a ≠ b ∧ common ++ [a] <+: p ∧ common ++ [b] <+: q

section

variable {schema schema' : Schema} {v v' : Value} {p q : Path} {segment : Segment}

theorem PathBefore.under (h : PathBefore schema' v' p q) (hstep : Step schema v segment schema' v')
    (hs : schema.WellFormed) (hv : v.DistinctKeys) :
    PathBefore schema v (segment :: p) (segment :: q) := by
  obtain ⟨common, a, b, inner, w, hwalk, hbefore, hne, hp, hq⟩ := h
  refine ⟨segment :: common, a, b, inner, w, ?_, hbefore, hne, ?_, ?_⟩
  · rw [walk_of_step hstep hs hv, hwalk]
  · exact (List.prefix_cons_inj segment).mpr hp
  · exact (List.prefix_cons_inj segment).mpr hq

/-- Paths that part are no prefixes of one another. -/
theorem PathBefore.incomparable (h : PathBefore schema v p q) : ¬ p <+: q ∧ ¬ q <+: p := by
  obtain ⟨common, a, b, -, -, -, -, hne, hp, hq⟩ := h
  -- two prefixes of one length are the same
  have hsame {path : Path} (ha : common ++ [a] <+: path) (hb : common ++ [b] <+: path) :
      False := by
    have hlength : (common ++ [a]).length ≤ (common ++ [b]).length := by simp
    have heq := (List.prefix_of_prefix_length_le ha hb hlength).eq_of_length (by simp)
    exact hne (by simpa using heq)
  exact ⟨fun hpq => hsame (hp.trans hpq) hq, fun hqp => hsame hp (hq.trans hqp)⟩

end

/-! ## Reports -/

/-- What a rejection is about: the value at a node, or the key of a record entry. -/
inductive Origin where
  | node
  | key

/-- A rejection with what was looked at. -/
structure Report extends Rejection where
  origin : Origin

namespace Report

/-- The rejection is where its origin says that it is. -/
def Sound (schema : Schema) (v : Value) (report : Report) : Prop :=
  match report.origin with
  | .node => schema.walk v report.path = some (report.schema, report.subject)
  | .key => KeyRejected schema v report.toRejection

/-- The paths part, and the first one takes the earlier segment; or the first report is about a key,
and the second one is about what stands under it. -/
def Precedes (schema : Schema) (v : Value) (report other : Report) : Prop :=
  PathBefore schema v report.path other.path ∨
    report.origin = .key ∧ report.path <+: other.path ∧
      ¬ (other.origin = .key ∧ other.path = report.path)

/-- The report as it is told further out, with a path in front. -/
def under (q : Path) (report : Report) : Report :=
  { report with toRejection := report.toRejection.under q }

variable {schema schema' : Schema} {v v' : Value} {report other : Report} {segment : Segment}

theorem Sound.under (h : report.Sound schema' v') (hstep : Step schema v segment schema' v')
    (hs : schema.WellFormed) (hv : v.DistinctKeys) : (report.under [segment]).Sound schema v := by
  obtain ⟨r, origin⟩ := report
  cases origin with
  | node => exact (walk_of_step hstep hs hv r.path).trans h
  | key => exact KeyRejected.under h hstep hs hv

/-- A key is never at the root. -/
theorem Sound.path_ne_nil (h : report.Sound schema v) (hkey : report.origin = .key) :
    report.path ≠ [] := by
  obtain ⟨r, origin⟩ := report
  cases hkey
  obtain ⟨path, name, info, value, key, entries, -, -, heq⟩ := h
  cases heq
  exact List.append_ne_nil_of_right_ne_nil _ (List.cons_ne_nil _ _)

theorem Precedes.under (h : Precedes schema' v' report other)
    (hstep : Step schema v segment schema' v') (hs : schema.WellFormed) (hv : v.DistinctKeys) :
    Precedes schema v (report.under [segment]) (other.under [segment]) := by
  rcases h with hbefore | ⟨hkey, hbelow, hother⟩
  · exact .inl (hbefore.under hstep hs hv)
  · refine .inr ⟨hkey, (List.prefix_cons_inj segment).mpr hbelow, ?_⟩
    rintro ⟨hkey', hpath⟩
    exact hother ⟨hkey', List.tail_eq_of_cons_eq hpath⟩

/-- After a rejected node nothing below it is reported, and nothing else at its path. -/
theorem Precedes.not_above_of_node (h : Precedes schema v report other)
    (hnode : report.origin = .node) : ¬ report.path <+: other.path := by
  rcases h with hbefore | ⟨hkey, -, -⟩
  · exact hbefore.incomparable.1
  · rw [hnode] at hkey
    cases hkey

/-- Before a rejected node nothing below it is reported, but its key may be. -/
theorem Precedes.path_eq_of_above (h : Precedes schema v report other)
    (hbelow : other.path <+: report.path) : report.path = other.path := by
  rcases h with hbefore | ⟨-, hbelow', -⟩
  · exact absurd hbelow hbefore.incomparable.2
  · exact hbelow'.eq_of_length_le hbelow.length_le

end Report

/-- The reports are those of the rejections, each with an origin that is right, in order. -/
structure Reported (schema : Schema) (v : Value) (es : List Rejection) (reports : List Report) :
    Prop where
  rejections : reports.map Report.toRejection = es
  sound : ∀ report ∈ reports, report.Sound schema v
  ordered : reports.Pairwise (Report.Precedes schema v)

/-- Nothing is reported below a rejected node, and no two rejected nodes have one path. -/
structure NoOverlap (reports : List Report) : Prop where
  below : ∀ report ∈ reports, report.origin = .node →
    ∀ other ∈ reports, report.path <+: other.path → other.path = report.path
  apart : reports.Pairwise fun report other =>
    report.origin = .node → other.origin = .node → report.path ≠ other.path

/-! ## The reports of a demand -/

/-- The step from the container to what the demand is about. -/
def Demand.segment : Demand → Segment
  | part segment _ _ => segment
  | key name _ => .key name

/-- The report is one that the demand can lead to: about the key itself, or about what stands under
the segment, where no report is about the key. -/
def Demand.Covers (demand : Demand) (report : Report) : Prop :=
  match demand with
  | part segment _ _ =>
    [segment] <+: report.path ∧ ¬ (report.origin = .key ∧ report.path = [segment])
  | key name _ => report.origin = .key ∧ report.path = [.key name]

/-- What a node demands first: the demand on the earlier part, or the one on the key of the same
entry. -/
def Demand.Before (schema : Schema) (v : Value) (demand other : Demand) : Prop :=
  SegmentBefore schema v demand.segment other.segment ∧ demand.segment ≠ other.segment ∨
    ∃ name key schema' v', demand = .key name key ∧ other = .part (.key name) schema' v'

section

variable {schema : Schema} {v : Value}

theorem Demand.Covers.starts {demand : Demand} {report : Report} (h : demand.Covers report) :
    [demand.segment] <+: report.path := by
  cases demand with
  | part => exact h.1
  | key name key =>
    rw [h.2]
    exact List.prefix_rfl

theorem Demand.Before.precedes {demand other : Demand} {report report' : Report}
    (h : demand.Before schema v other) (hreport : demand.Covers report)
    (hreport' : other.Covers report') : report.Precedes schema v report' := by
  rcases h with ⟨hbefore, hne⟩ | ⟨name, key, schema', v', rfl, rfl⟩
  · exact .inl ⟨[], _, _, schema, v, rfl, hbefore, hne, hreport.starts, hreport'.starts⟩
  · obtain ⟨hkey, hpath⟩ := hreport
    obtain ⟨hbelow, hother⟩ := hreport'
    rw [← hpath] at hbelow hother
    exact .inr ⟨hkey, hbelow, hother⟩

theorem exists_reported_key {name : String} {key : Schema} (hs : schema.WellFormed)
    (hmem : .key name key ∈ demands schema v) :
    ∃ reports, Reported schema v (Demand.key name key).rejections reports ∧
      ∀ report ∈ reports, (Demand.key name key).Covers report := by
  obtain ⟨info, value, entries, rfl, rfl, hname⟩ := key_mem_demands.mp hmem
  rw [Demand.rejections]
  cases hcode : key.verifyKey name with
  | none => exact ⟨[], ⟨rfl, by simp, .nil⟩, by simp⟩
  | some code =>
    obtain ⟨rfl, -⟩ := rejections_of_verifyKey hs.2 hcode
    refine ⟨[⟨⟨.invalidRange, [.key name], key, .string name⟩, .key⟩], ⟨rfl, ?_, ?_⟩, ?_⟩
    · rintro report hreport
      obtain rfl := List.mem_singleton.mp hreport
      exact ⟨[], name, info, value, key, entries, rfl, hname, rfl⟩
    · exact List.pairwise_singleton _ _
    · intro report hreport
      obtain rfl := List.mem_singleton.mp hreport
      exact ⟨rfl, rfl⟩

theorem exists_reported_part {segment : Segment} {schema' : Schema} {v' : Value}
    (hs : schema.WellFormed) (hv : v.DistinctKeys) (hstep : Step schema v segment schema' v')
    (ih : ∃ reports, Reported schema' v' (rejections schema' v') reports) :
    ∃ reports, Reported schema v (Demand.part segment schema' v').rejections reports ∧
      ∀ report ∈ reports, (Demand.part segment schema' v').Covers report := by
  obtain ⟨reports, hrejections, hsound, hordered⟩ := ih
  refine ⟨reports.map (Report.under [segment]), ⟨?_, ?_, ?_⟩, ?_⟩
  · rw [Demand.rejections, ← hrejections, List.map_map, List.map_map]
    rfl
  · intro report hreport
    obtain ⟨inner, hinner, rfl⟩ := List.mem_map.mp hreport
    exact (hsound inner hinner).under hstep hs hv
  · rw [List.pairwise_map]
    exact hordered.imp fun h => h.under hstep hs hv
  · intro report hreport
    obtain ⟨inner, hinner, rfl⟩ := List.mem_map.mp hreport
    refine ⟨List.prefix_append _ _, ?_⟩
    rintro ⟨hkey, hpath⟩
    exact (hsound inner hinner).path_ne_nil hkey (List.tail_eq_of_cons_eq hpath)

/-! ## The order of demands -/

theorem Entries.pairwise_keys {α : Type} {entries : List (String × α)}
    (h : (Entries.keys entries).Nodup) :
    entries.Pairwise fun entry other =>
      List.Sublist [entry.1, other.1] (Entries.keys entries) ∧ entry.1 ≠ other.1 := by
  rw [List.pairwise_iff_forall_sublist]
  intro entry other hsub
  have hkeys : List.Sublist [entry.1, other.1] (Entries.keys entries) := hsub.map Prod.fst
  have hnodup := hkeys.nodup h
  exact ⟨hkeys, by simpa using hnodup⟩

theorem segment_of_mem_entryDemands {value : Schema} {key : Option Schema} {entry : String × Value}
    {demand : Demand} (h : demand ∈ entryDemands value key entry) :
    demand.segment = .key entry.1 := by
  rcases List.mem_append.mp h with h | h
  · obtain ⟨key, -, rfl⟩ := Option.map_eq_some_iff.mp (Option.mem_toList.mp h)
    rfl
  · split at h
    · simp at h
    · obtain rfl := List.mem_singleton.mp h
      rfl

theorem pairwise_entryDemands (value : Schema) (key : Option Schema) (entry : String × Value) :
    (entryDemands value key entry).Pairwise (Demand.Before schema v) := by
  rw [entryDemands, List.pairwise_append]
  refine ⟨?_, ?_, ?_⟩
  · cases key with
    | none => exact .nil
    | some key => exact List.pairwise_singleton _ _
  · split
    · exact .nil
    · exact List.pairwise_singleton _ _
  · intro demand hdemand other hother
    obtain ⟨key, -, rfl⟩ := Option.map_eq_some_iff.mp (Option.mem_toList.mp hdemand)
    split at hother
    · simp at hother
    · obtain rfl := List.mem_singleton.mp hother
      exact .inr ⟨_, _, _, _, rfl, rfl⟩

/-- The demands of a node stand in the order of the visit. -/
theorem pairwise_demands (hs : schema.WellFormed) (hv : v.DistinctKeys) :
    (demands schema v).Pairwise (Demand.Before schema v) := by
  unfold demands
  split
  · rw [List.pairwise_map]
    refine (pairwise_zipIdx _).imp fun hlt => .inl ⟨.element hlt, ?_⟩
    simpa [Demand.segment] using Nat.ne_of_lt hlt
  · split
    · rw [List.pairwise_map]
      refine (pairwise_zipIdx _).imp fun hlt => .inl ⟨.position hlt, ?_⟩
      simpa [Demand.segment] using Nat.ne_of_lt hlt
    · exact .nil
  · rw [List.pairwise_map]
    refine (Entries.pairwise_keys (wellFormed_object.mp hs).1).imp ?_
    rintro field other ⟨hkeys, hne⟩
    exact .inl ⟨.field hkeys, by simpa [Demand.segment] using hne⟩
  · rw [List.pairwise_flatMap]
    refine ⟨fun entry _ => pairwise_entryDemands _ _ entry, ?_⟩
    refine (Entries.pairwise_keys (Value.distinctKeys_mapping.mp hv).1).imp ?_
    rintro entry entry' ⟨hkeys, hne⟩ demand hdemand other hother
    left
    rw [segment_of_mem_entryDemands hdemand, segment_of_mem_entryDemands hother]
    exact ⟨.entry hkeys, by simpa using hne⟩
  · exact .nil

/-! ## The order of rejections -/

/-- The errors of a visit are reported in order and without overlap. -/
theorem exists_reported (schema : Schema) {v : Value} (hs : schema.WellFormed)
    (hv : v.DistinctKeys) : ∃ reports, Reported schema v (rejections schema v) reports := by
  induction schema using step_induction generalizing v with
  | h schema ih =>
    rcases rejections_eq_or schema v with heq | ⟨code, -, heq⟩
    · -- each demand has reports of its own, and these follow one another as the demands do
      have hdemand : ∀ demand ∈ demands schema v, ∃ reports,
          Reported schema v demand.rejections reports ∧
            ∀ report ∈ reports, demand.Covers report := by
        intro demand hmem
        cases demand with
        | key name key => exact exists_reported_key hs hmem
        | part segment schema' v' =>
          have hstep := step_of_mem_demands hmem
          exact exists_reported_part hs hv hstep
            (ih _ _ _ _ hstep (hstep.wellFormed hs) (hstep.distinctKeys hv))
      choose! reportsOf hreported hcovers using hdemand
      refine ⟨(demands schema v).flatMap reportsOf, ⟨?_, ?_, ?_⟩⟩
      · rw [heq, List.map_flatMap]
        exact List.flatMap_congr fun demand hmem => (hreported demand hmem).rejections
      · intro report hreport
        obtain ⟨demand, hmem, hreport⟩ := List.mem_flatMap.mp hreport
        exact (hreported demand hmem).sound report hreport
      · rw [List.pairwise_flatMap]
        refine ⟨fun demand hmem => (hreported demand hmem).ordered, ?_⟩
        refine (pairwise_demands hs hv).imp_of_mem ?_
        intro demand other hmem hmem' hbefore report hreport report' hreport'
        exact hbefore.precedes (hcovers demand hmem report hreport)
          (hcovers other hmem' report' hreport')
    · rw [heq]
      refine ⟨[⟨⟨code, [], schema, v⟩, .node⟩], ⟨rfl, ?_, List.pairwise_singleton _ _⟩⟩
      intro report hreport
      obtain rfl := List.mem_singleton.mp hreport
      exact rfl

theorem Reported.noOverlap {es : List Rejection} {reports : List Report}
    (h : Reported schema v es reports) : NoOverlap reports where
  below := by
    intro report hreport hnode other hother
    revert hnode
    refine List.Pairwise.forall_of_forall_of_flip (R := fun report other : Report =>
      report.origin = .node → report.path <+: other.path → other.path = report.path)
      (fun _ _ _ _ => rfl) (h.ordered.imp ?_) (h.ordered.imp ?_) hreport hother
    · intro report other hprecedes hnode hbelow
      exact absurd hbelow (hprecedes.not_above_of_node hnode)
    · intro report other hprecedes _ hbelow
      exact hprecedes.path_eq_of_above hbelow
  apart := by
    refine h.ordered.imp fun hprecedes hnode _ hpath => ?_
    exact hprecedes.not_above_of_node hnode (hpath ▸ List.prefix_rfl)

/-- **Rejections come in order and do not overlap.** There is at least one; of two, the first is at
a path that parts to the earlier side, or about a key and the second about what stands under it. -/
theorem rejections_in_order {es : List Rejection} (hs : schema.WellFormed) (hv : v.DistinctKeys)
    (h : validate schema v = .error es) :
    es ≠ [] ∧ ∃ reports, Reported schema v es reports ∧ NoOverlap reports := by
  obtain ⟨rfl, hne⟩ := validate_eq_error_iff.mp h
  obtain ⟨reports, hreported⟩ := exists_reported schema hs hv
  exact ⟨hne, reports, hreported, hreported.noOverlap⟩

theorem rejections_in_order_namelessContact :
    contacts.WellFormed ∧ namelessContact.DistinctKeys ∧
      validate contacts namelessContact = .error [missingName, longLabel, fewDigits] ∧
      [missingName, longLabel, fewDigits] ≠ [] ∧
      ∃ reports, Reported contacts namelessContact [missingName, longLabel, fewDigits] reports ∧
        NoOverlap reports :=
  ⟨wellFormed_contacts, distinctKeys_namelessContact, validate_namelessContact,
    rejections_in_order wellFormed_contacts distinctKeys_namelessContact validate_namelessContact⟩

/-- Two equal rejections of one entry, of which only the first is about the key. -/
example :
    validate (.record .plain (shortText (some 3) none) (some (shortText (some 3) none)))
        (.mapping [("ab", .string "ab")]) =
      .error (List.replicate 2
        ⟨.invalidRange, [.key "ab"], shortText (some 3) none, .string "ab"⟩) :=
  rfl

end

end Conform
