import Conform.Proofs.Conformance
import Conform.Proofs.Site

/-!
# What a visit rejects

`Schema.rejections` lists what validation has to say against a value, nothing if it accepts the
value. A node first makes its `demands`, on the parts of the value and on the keys of record
entries, and collects what is said there; only if nothing is said it speaks for itself
(`ownCode?`). The demands on parts are the steps of `Step`.

* `rejections_eq`: this equation, for every kind of node.
* `rejection_induction`: what holds of a node's own rejection and of that of a key, and is passed on
  from a part to the whole, holds of every rejection.
-/

namespace Conform

theorem Rejection.under_under (q q' : Path) (r : Rejection) :
    under q (under q' r) = under (q ++ q') r := by
  simp [under, List.append_assoc]

/-- The rejections of the parts, or else those of the whole. -/
def Rejection.foremost (parts whole : List Rejection) : List Rejection :=
  match parts with
  | [] => whole
  | _ :: _ => parts

@[simp]
theorem Rejection.foremost_nil (parts : List Rejection) : foremost parts [] = parts := by
  cases parts <;> rfl

/-! ## The rejections of a visit -/

namespace Visit

variable {α β γ : Type}

/-- The visit ends with these rejections; without any it accepts. -/
inductive Rejects : Visit α → List Rejection → Prop
  | accepted (misses : List Miss) (a : α) : Rejects ⟨misses, .ok a⟩ []
  | rejected (misses : List Miss) {es : List Rejection} (h : es ≠ []) :
      Rejects ⟨misses, .error es⟩ es

namespace Rejects

variable {x : Visit α} {y : Visit β} {es es' : List Rejection}

theorem accept (a : α) : Rejects (Visit.accept a) [] :=
  .accepted [] a

theorem reject (code : Code) (path : Path) (schema : Schema) (subject : Value) :
    Rejects (Visit.reject code path schema subject : Visit α) [⟨code, path, schema, subject⟩] :=
  .rejected [] (List.cons_ne_nil _ _)

theorem map (f : α → β) (hx : Rejects x es) : Rejects (x.map f) es := by
  cases hx with
  | accepted misses a => exact .accepted misses (f a)
  | rejected misses h => exact .rejected misses h

theorem both (f : α → β → γ) (hx : Rejects x es) (hy : Rejects y es') :
    Rejects (Visit.both f x y) (es ++ es') := by
  cases hx with
  | accepted misses a =>
    cases hy with
    | accepted misses' b => exact .accepted _ _
    | rejected misses' h' => exact .rejected _ h'
  | rejected misses h =>
    cases hy with
    | accepted misses' b =>
      rw [List.append_nil]
      exact .rejected _ h
    | rejected misses' h' => exact .rejected _ (List.append_ne_nil_of_left_ne_nil h _)

theorem before {check : α → Visit β} (hx : Rejects x es) (h : ∀ a, Rejects (check a) es') :
    Rejects (x.before check) (Rejection.foremost es es') := by
  cases hx with
  | accepted misses a =>
    have hcheck := h a
    simp only [Visit.before]
    generalize check a = z at hcheck ⊢
    cases hcheck with
    | accepted misses' b => exact .accepted _ b
    | rejected misses' h' => exact .rejected _ h'
  | rejected misses hne =>
    obtain ⟨r, rest, rfl⟩ := List.exists_cons_of_ne_nil hne
    exact .rejected misses hne

theorem under (q : Path) (hx : Rejects x es) :
    Rejects (x.under q) (es.map (Rejection.under q)) := by
  cases hx with
  | accepted misses a => exact .accepted _ a
  | rejected misses h => exact .rejected _ (List.map_eq_nil_iff.not.mpr h)

end Rejects

end Visit

namespace Schema

/-- What validation has to say against the value. -/
def rejections (schema : Schema) (v : Value) : List Rejection :=
  match validate schema v with
  | .ok _ => []
  | .error es => es

theorem rejections_of_rejects {schema : Schema} {v : Value} {es : List Rejection}
    (h : (visit .share schema v []).Rejects es) : rejections schema v = es := by
  rw [rejections, validate, validateAt, concluded]
  generalize visit .share schema v [] = x at h ⊢
  cases h <;> rfl

end Schema

/-! ## Demands -/

/-- What a node asks of a part of the value: that it be accepted by a schema, or that the key of an
entry be accepted by a key schema. -/
inductive Demand where
  | part (segment : Segment) (schema : Schema) (subject : Value)
  | key (name : String) (schema : Schema)

/-- What is objected to if the demand is not met. -/
def Demand.rejections : Demand → List Rejection
  | part segment schema subject => (schema.rejections subject).map (Rejection.under [segment])
  | key name schema =>
    (schema.verifyKey name).toList.map fun code => ⟨code, [.key name], schema, .string name⟩

namespace Schema

/-- An entry of a record is looked at for its key, and then for what stands under it. -/
def entryDemands (value : Schema) (key : Option Schema) (entry : String × Value) : List Demand :=
  (key.map (Demand.key entry.1)).toList ++
    if entry.2.isAbsent then [] else [.part (.key entry.1) value entry.2]

/-- The demands of a node on a value, in order. -/
def demands : Schema → Value → List Demand
  | array _ element _, .sequence items =>
    items.zipIdx.map fun item => .part (.index item.2) element item.1
  | tuple _ positions, .sequence items =>
    if items.length = positions.length then
      (positions.zip items).zipIdx.map fun pair => .part (.index pair.2) pair.1.1 pair.1.2
    else []
  | object _ fields, .mapping entries =>
    fields.map fun field =>
      .part (.key field.1) field.2 ((Entries.get? field.1 entries).getD .absent)
  | record _ value key, .mapping entries => entries.flatMap (entryDemands value key)
  | _, _ => []

/-- The code for which the node itself rejects a value that it does not exempt and whose parts and
keys it has nothing against. -/
def ownCode? : Schema → Value → Option Code
  | leaf _ l _, v => l.reject? v
  | array _ _ length, .sequence items =>
    if length.allows items.length then none else some .invalidRange
  | tuple _ positions, .sequence items =>
    if items.length = positions.length then none else some .invalidType
  | object _ fields, .mapping entries =>
    if hasUndeclared fields entries then some .invalidType else none
  | record .., .mapping _ => none
  | union _ alternatives, v =>
    if alternatives.any fun alternative => guard alternative v then none else some .invalidType
  | _, _ => some .invalidType

/-! ## Parts of containers -/

theorem rejects_part {schema : Schema} {v : Value}
    (h : (visit .share schema v []).Rejects (rejections schema v)) (segment : Segment) :
    (visit .share schema v ([] ++ [segment])).Rejects
      (Demand.part segment schema v).rejections := by
  have hunder := h.under [segment]
  rw [← visit_under, List.append_nil] at hunder
  exact hunder

theorem visitItems_rejects {element : Schema}
    (h : ∀ v, (visit .share element v []).Rejects (rejections element v)) (i : Nat)
    (items : List Value) :
    (visitItems (fun v p => visit .share element v p) [] i items).Rejects
      ((items.zipIdx i).flatMap fun item =>
        (Demand.part (.index item.2) element item.1).rejections) := by
  induction items generalizing i with
  | nil => exact .accept []
  | cons item rest ih => exact (rejects_part (h item) (.index i)).both List.cons (ih (i + 1))

theorem visitPositions_rejects {positions : List Schema}
    (h : ∀ position ∈ positions, ∀ v,
      (visit .share position v []).Rejects (rejections position v)) (i : Nat)
    (items : List Value) :
    (visitPositions .share positions items [] i).Rejects
      (((positions.zip items).zipIdx i).flatMap fun pair =>
        (Demand.part (.index pair.2) pair.1.1 pair.1.2).rejections) := by
  induction positions generalizing items i with
  | nil => exact .accept []
  | cons position rest ih =>
    cases items with
    | nil => exact .accept []
    | cons item items =>
      have hpart := rejects_part (h position List.mem_cons_self item) (.index i)
      have hrest := ih (fun p hp => h p (List.mem_cons_of_mem _ hp)) (i + 1) items
      exact hpart.both List.cons hrest

theorem visitFields_rejects {fields : List (String × Schema)}
    (h : ∀ field ∈ fields, ∀ v, (visit .share field.2 v []).Rejects (rejections field.2 v))
    (entries : List (String × Value)) :
    (visitFields .share fields entries []).Rejects
      (fields.flatMap fun field =>
        (Demand.part (.key field.1) field.2
          ((Entries.get? field.1 entries).getD .absent)).rejections) := by
  induction fields with
  | nil => exact .accept []
  | cons field rest ih =>
    obtain ⟨name, schema⟩ := field
    have hpart := rejects_part
      (h (name, schema) List.mem_cons_self ((Entries.get? name entries).getD .absent)) (.key name)
    exact hpart.both _ (ih fun field hfield => h field (List.mem_cons_of_mem _ hfield))

theorem visitKey_rejects (keySchema : Option Schema) (name : String) :
    (visitKey keySchema [.key name] name).Rejects
      ((keySchema.map (Demand.key name)).toList.flatMap Demand.rejections) := by
  cases keySchema with
  | none => exact .accept ()
  | some schema =>
    simp only [visitKey, Option.map_some, Option.toList_some, List.flatMap_singleton,
      Demand.rejections]
    cases schema.verifyKey name with
    | none => exact .accept ()
    | some code => exact .reject code _ _ _

theorem visitEntry_rejects {value : Schema}
    (h : ∀ v, (visit .share value v []).Rejects (rejections value v)) (keySchema : Option Schema)
    (name : String) (v : Value) :
    (visitEntry .share (fun v p => visit .share value v p) keySchema [.key name] name v).Rejects
      ((entryDemands value keySchema (name, v)).flatMap Demand.rejections) := by
  rw [entryDemands, List.flatMap_append]
  refine (visitKey_rejects keySchema name).both _ ?_
  cases v.isAbsent with
  | true => exact .accept []
  | false =>
    simp only [Bool.false_eq_true, if_false, List.flatMap_singleton]
    exact (rejects_part (h v) (.key name)).map _

theorem visitEntries_rejects {value : Schema}
    (h : ∀ v, (visit .share value v []).Rejects (rejections value v)) (keySchema : Option Schema)
    (entries : List (String × Value)) :
    (visitEntries .share (fun v p => visit .share value v p) keySchema [] entries).Rejects
      ((entries.flatMap (entryDemands value keySchema)).flatMap Demand.rejections) := by
  induction entries with
  | nil => exact .accept []
  | cons entry rest ih =>
    rw [List.flatMap_cons, List.flatMap_append]
    exact (visitEntry_rejects h keySchema entry.1 entry.2).both _ ih

/-! ## Nodes -/

theorem any_guard (alternatives : List Schema) (v : Value) :
    (alternatives.any fun alternative => guard alternative v) =
      (alternatives.findSome? fun alternative => make .share alternative v).isSome := by
  have hguard (schema : Schema) : guard schema v = true ↔ (make .share schema v).isSome = true := by
    rw [guard_eq_true, Option.isSome_iff_exists]
    exact exists_congr fun a => make_share_eq_some.symm
  rw [Bool.eq_iff_iff, List.any_eq_true, List.findSome?_isSome_iff]
  exact exists_congr fun alternative => and_congr_right fun _ => hguard alternative

/-- What a node and its parts have to say against the value. -/
def nodeRejections (schema : Schema) (v : Value) : List Rejection :=
  if schema.info.exempts v then []
  else
    Rejection.foremost ((demands schema v).flatMap Demand.rejections)
      ((ownCode? schema v).toList.map fun code => ⟨code, [], schema, v⟩)

/-- The errors of a visit are those of the node, with those of its demands in their place. -/
theorem visit_rejects_nodeRejections (schema : Schema) (v : Value) :
    (visit .share schema v []).Rejects (nodeRejections schema v) := by
  -- a part ends with its `nodeRejections` by induction, and so with the `rejections` demanded of it
  have hself {schema : Schema} {v : Value}
      (h : (visit .share schema v []).Rejects (nodeRejections schema v)) :
      (visit .share schema v []).Rejects (rejections schema v) := by
    rw [rejections_of_rejects h]
    exact h
  induction schema generalizing v with
  | leaf info l brand =>
    unfold visit nodeRejections
    split
    · exact .accept v
    · simp only [demands, ownCode?, List.flatMap_nil, Rejection.foremost]
      cases l.reject? v with
      | none => exact .accept v
      | some code => exact .reject code _ _ _
  | array info element length ih =>
    unfold visit nodeRejections
    split
    · exact .accept v
    · cases v with
      | sequence items =>
        simp only [demands, ownCode?, List.flatMap_map]
        refine (visitItems_rejects (fun w => hself (ih w)) 0 items).before fun parts => ?_
        split
        · exact .accept _
        · exact .reject _ _ _ _
      | _ => exact .reject _ _ _ _
  | tuple info positions ih =>
    unfold visit nodeRejections
    split
    · exact .accept v
    · cases v with
      | sequence items =>
        simp only [demands, ownCode?]
        split
        · simp only [List.flatMap_map, Option.toList_none, List.map_nil, Rejection.foremost_nil]
          exact (visitPositions_rejects (fun p hp w => hself (ih p hp w)) 0 items).map _
        · exact .reject _ _ _ _
      | _ => exact .reject _ _ _ _
  | object info fields ih =>
    unfold visit nodeRejections
    split
    · exact .accept v
    · cases v with
      | mapping entries =>
        simp only [demands, ownCode?, List.flatMap_map]
        refine (visitFields_rejects (fun f hf w => hself (ih f hf w)) entries).before
          fun parts => ?_
        split
        · exact .reject _ _ _ _
        · exact .accept _
      | _ => exact .reject _ _ _ _
  | record info value key ih _ =>
    unfold visit nodeRejections
    split
    · exact .accept v
    · cases v with
      | mapping entries =>
        simp only [demands, ownCode?, Option.toList_none, List.map_nil, Rejection.foremost_nil]
        exact (visitEntries_rejects (fun w => hself (ih w)) key entries).map _
      | _ => exact .reject _ _ _ _
  | union info alternatives ih =>
    unfold visit nodeRejections
    split
    · exact .accept v
    · simp only [demands, ownCode?, List.flatMap_nil, Rejection.foremost, any_guard,
        ← visitAlternatives_snd .share alternatives v [] 0]
      generalize visitAlternatives .share alternatives v [] 0 = tried
      obtain ⟨misses, found⟩ := tried
      cases found with
      | none => exact .rejected misses (List.cons_ne_nil _ _)
      | some a => exact .accepted misses a

theorem rejections_eq (schema : Schema) (v : Value) :
    rejections schema v = nodeRejections schema v :=
  rejections_of_rejects (visit_rejects_nodeRejections schema v)

/-- Visited at a path, a value has the same errors under this path. -/
theorem rejects_at (schema : Schema) (v : Value) (q : Path) :
    (visit .share schema v q).Rejects ((rejections schema v).map (Rejection.under q)) := by
  have h := (visit_rejects_nodeRejections schema v).under q
  rw [← visit_under, List.append_nil, ← rejections_eq] at h
  exact h

/-- Validation fails with the errors, when there are any. -/
theorem validate_eq_error_iff {schema : Schema} {v : Value} {es : List Rejection} :
    validate schema v = .error es ↔ rejections schema v = es ∧ es ≠ [] := by
  have h := visit_rejects_nodeRejections schema v
  rw [rejections_eq, validate, validateAt, concluded]
  generalize visit .share schema v [] = x at h ⊢
  generalize nodeRejections schema v = rejected at h ⊢
  cases h with
  | accepted misses a =>
    simp only [reduceCtorEq, false_iff, not_and, not_not]
    exact Eq.symm
  | rejected misses hne =>
    simp only [Except.error.injEq]
    constructor
    · rintro rfl
      exact ⟨rfl, hne⟩
    · exact And.left

/-! ## Demands and steps -/

section

variable {schema : Schema} {v : Value}

theorem exempts_of_demands_ne_nil (h : demands schema v ≠ []) : schema.info.exempts v = false := by
  cases v with
  | sequence items => exact exempts_sequence _ _
  | mapping entries => exact exempts_mapping _ _
  | _ => cases schema <;> exact absurd rfl h

/-- Either all that is said comes from the parts and the keys, or the node speaks alone. -/
theorem rejections_eq_or (schema : Schema) (v : Value) :
    rejections schema v = (demands schema v).flatMap Demand.rejections ∨
      ∃ code, ownCode? schema v = some code ∧ rejections schema v = [⟨code, [], schema, v⟩] := by
  cases hparts : (demands schema v).flatMap Demand.rejections with
  | cons r rest =>
    left
    have hne : demands schema v ≠ [] := by
      intro hnil
      simp [hnil] at hparts
    rw [rejections_eq, nodeRejections, exempts_of_demands_ne_nil hne, hparts]
    rfl
  | nil =>
    rw [rejections_eq, nodeRejections, hparts]
    split
    · exact .inl rfl
    · cases ownCode? schema v with
      | none => exact .inl rfl
      | some code => exact .inr ⟨code, rfl, rfl⟩

/-- What is said of a part or of a key is never lost. -/
theorem rejections_eq_of_mem_demands {demand : Demand} (hmem : demand ∈ demands schema v)
    (h : demand.rejections ≠ []) :
    rejections schema v = (demands schema v).flatMap Demand.rejections := by
  rw [rejections_eq, nodeRejections, exempts_of_demands_ne_nil (List.ne_nil_of_mem hmem)]
  cases hparts : (demands schema v).flatMap Demand.rejections with
  | cons r rest => rfl
  | nil => exact absurd (List.flatMap_eq_nil_iff.mp hparts demand hmem) h

/-- A part that is demanded is reached by a step. -/
theorem step_of_mem_demands {segment : Segment} {schema' : Schema} {v' : Value}
    (h : .part segment schema' v' ∈ demands schema v) : Step schema v segment schema' v' := by
  unfold demands at h
  split at h
  · obtain ⟨⟨item, i⟩, hitem, heq⟩ := List.mem_map.mp h
    cases heq
    exact .element (List.mem_zipIdx_iff_getElem?.mp hitem)
  · split at h
    · rename_i hlength
      obtain ⟨⟨⟨position, item⟩, i⟩, hpair, heq⟩ := List.mem_map.mp h
      cases heq
      obtain ⟨hposition, hitem⟩ :=
        List.getElem?_zip_eq_some.mp (List.mem_zipIdx_iff_getElem?.mp hpair)
      exact .position hlength hposition hitem
    · simp at h
  · obtain ⟨⟨name, field⟩, hmem, heq⟩ := List.mem_map.mp h
    cases heq
    exact .field hmem
  · obtain ⟨⟨name, w⟩, hmem, h⟩ := List.mem_flatMap.mp h
    rcases List.mem_append.mp h with h | h
    · simp at h
    · split at h
      · simp at h
      · rename_i hpresent
        cases List.mem_singleton.mp h
        exact .entry hmem (Value.isAbsent_eq_false.mp (Bool.eq_false_iff.mpr hpresent))
  · simp at h

/-- A part that is reached by a step is demanded. -/
theorem mem_demands_of_step {segment : Segment} {schema' : Schema} {v' : Value}
    (h : Step schema v segment schema' v') : .part segment schema' v' ∈ demands schema v := by
  cases h with
  | element hitem =>
    exact List.mem_map.mpr ⟨(_, _), List.mem_zipIdx_iff_getElem?.mpr hitem, rfl⟩
  | @position _ positions items i _ _ hlength hposition hitem =>
    rw [demands, if_pos hlength]
    have hpair : (positions.zip items)[i]? = some (schema', v') :=
      List.getElem?_zip_eq_some.mpr ⟨hposition, hitem⟩
    exact List.mem_map.mpr ⟨((_, _), _), List.mem_zipIdx_iff_getElem?.mpr hpair, rfl⟩
  | field hmem => exact List.mem_map.mpr ⟨_, hmem, rfl⟩
  | entry hmem hpresent =>
    refine List.mem_flatMap.mpr ⟨_, hmem, List.mem_append_right _ ?_⟩
    simp [Value.isAbsent_eq_false.mpr hpresent]

theorem key_mem_demands {name : String} {key : Schema} :
    .key name key ∈ demands schema v ↔
      ∃ info value entries, schema = .record info value (some key) ∧ v = .mapping entries ∧
        name ∈ Entries.keys entries := by
  constructor
  · intro h
    unfold demands at h
    split at h
    · simp at h
    · split at h <;> simp at h
    · simp at h
    · obtain ⟨entry, hmem, h⟩ := List.mem_flatMap.mp h
      rcases List.mem_append.mp h with h | h
      · obtain ⟨key', hkey, heq⟩ := Option.map_eq_some_iff.mp (Option.mem_toList.mp h)
        cases heq
        subst hkey
        exact ⟨_, _, _, rfl, rfl, List.mem_map.mpr ⟨entry, hmem, rfl⟩⟩
      · split at h <;> simp at h
    · simp at h
  · rintro ⟨info, value, entries, rfl, rfl, hname⟩
    obtain ⟨entry, hmem, rfl⟩ := List.mem_map.mp hname
    exact List.mem_flatMap.mpr ⟨entry, hmem, List.mem_append_left _ (by simp)⟩

end

/-- What holds of a node's own rejection and of the rejection of a key, and is passed on from a part
to the whole, holds of every rejection. -/
theorem rejection_induction {motive : Schema → Value → Rejection → Prop}
    (own : ∀ schema v code, rejections schema v = [⟨code, [], schema, v⟩] →
      motive schema v ⟨code, [], schema, v⟩)
    (key : ∀ info value keySchema entries name code, name ∈ Entries.keys entries →
      keySchema.verifyKey name = some code →
      motive (record info value (some keySchema)) (.mapping entries)
        ⟨code, [.key name], keySchema, .string name⟩)
    (part : ∀ schema v segment schema' v' r, Step schema v segment schema' v' →
      r ∈ rejections schema' v' → motive schema' v' r → motive schema v (r.under [segment]))
    {schema : Schema} {v : Value} {r : Rejection} (h : r ∈ rejections schema v) :
    motive schema v r := by
  induction schema using step_induction generalizing v r with
  | h schema ih =>
    rcases rejections_eq_or schema v with heq | ⟨code, -, heq⟩
    · rw [heq] at h
      obtain ⟨demand, hmem, hr⟩ := List.mem_flatMap.mp h
      cases demand with
      | part segment schema' v' =>
        obtain ⟨r', hr', rfl⟩ := List.mem_map.mp hr
        have hstep := step_of_mem_demands hmem
        exact part _ _ _ _ _ _ hstep hr' (ih _ _ _ _ hstep hr')
      | key name keySchema =>
        obtain ⟨info, value, entries, rfl, rfl, hname⟩ := key_mem_demands.mp hmem
        obtain ⟨code, hcode, rfl⟩ := List.mem_map.mp hr
        exact key _ _ _ _ _ _ hname (Option.mem_toList.mp hcode)
    · rw [heq] at h
      obtain rfl := List.mem_singleton.mp h
      exact own _ _ _ heq

end Schema

end Conform
