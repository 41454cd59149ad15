import Conform.Proofs.Visit.Comparison

/-!
# The stops of a check

A check stops at a node with a value, and then at those to which the node sends it: the demands of a
container on the parts of the value, or the alternatives of a union up to the first that accepts. A
node that exempts the value sends it nowhere.

* `Stop.misses_eq`: a stop tells what its inner stops tell, one after the other, and a union says
  behind each that rejected the value how many rejections there were.
* `Stop.induction`: inner stops are at smaller schemas.
-/

namespace Conform

/-- A visit of a node with a value at a path. -/
structure Stop where
  path : Path
  schema : Schema
  subject : Value

open Schema

/-- The stop for what is asked of a part. Keys are looked at without a stop. -/
def Demand.stop? (path : Path) : Demand → Option Stop
  | part segment schema subject => some ⟨path ++ [segment], schema, subject⟩
  | key _ _ => none

/-- The alternatives up to the first that accepts, which is the last one tried. -/
def Schema.tried (alternatives : List Schema) (v : Value) : List Schema :=
  alternatives.take (alternatives.findIdx (fun alternative => guard alternative v) + 1)

namespace Stop

/-- The next stops, in order. -/
def inner (s : Stop) : List Stop :=
  if s.schema.info.exempts s.subject then []
  else
    match s.schema with
    | .union _ alternatives =>
      (tried alternatives s.subject).map fun alternative => ⟨s.path, alternative, s.subject⟩
    | schema => (demands schema s.subject).filterMap (Demand.stop? s.path)

/-- What is told on the way from this stop on. -/
def misses (s : Stop) : List Miss :=
  (visit .share s.schema s.subject s.path).misses

/-- The number of rejections of the value by itself. -/
def errors (s : Stop) : Nat :=
  (rejections s.schema s.subject).length

/-- What the stop itself tells of its inner stop of the given number. -/
def own (s : Stop) (i : Nat) (next : Stop) : List Miss :=
  match s.schema with
  | .union .. => if next.errors = 0 then [] else [⟨s.path, i, next.errors⟩]
  | _ => []

end Stop

theorem Step.sizeOf_lt {schema schema' : Schema} {v v' : Value} {segment : Segment}
    (h : Step schema v segment schema' v') : sizeOf schema' < sizeOf schema := by
  cases h with
  | element =>
    simp
    omega
  | position _ hposition =>
    have hlt := List.sizeOf_lt_of_mem (List.mem_of_getElem? hposition)
    simp
    omega
  | field hmem =>
    have hlt := List.sizeOf_lt_of_mem hmem
    simp at hlt ⊢
    omega
  | entry =>
    simp
    omega

/-! ## Misses of visits -/

namespace Visit

variable {α β γ : Type}

@[simp]
theorem misses_accept (a : α) : (Visit.accept a).misses = [] :=
  rfl

@[simp]
theorem misses_reject (code : Code) (path : Path) (schema : Schema) (subject : Value) :
    (Visit.reject code path schema subject : Visit α).misses = [] :=
  rfl

@[simp]
theorem misses_map (f : α → β) (x : Visit α) : (x.map f).misses = x.misses :=
  rfl

@[simp]
theorem misses_both (f : α → β → γ) (x : Visit α) (y : Visit β) :
    (Visit.both f x y).misses = x.misses ++ y.misses :=
  rfl

theorem misses_before {x : Visit α} {check : α → Visit β} (h : ∀ a, (check a).misses = []) :
    (x.before check).misses = x.misses := by
  unfold Visit.before
  split
  · rw [h, List.append_nil]
  · rfl

end Visit

namespace Schema

/-- The misses among what a demand lets a visit stop at. -/
def demandMisses (path : Path) (demand : Demand) : List Miss :=
  (demand.stop? path).toList.flatMap Stop.misses

theorem misses_visitItems (element : Schema) (path : Path) (i : Nat) (items : List Value) :
    (visitItems (fun v p => visit .share element v p) path i items).misses =
      (items.zipIdx i).flatMap fun item =>
        (Stop.mk (path ++ [.index item.2]) element item.1).misses := by
  induction items generalizing i with
  | nil => rfl
  | cons item rest ih =>
    rw [visitItems, Visit.misses_both, ih, List.zipIdx_cons, List.flatMap_cons]
    rfl

theorem misses_visitPositions (positions : List Schema) (items : List Value) (path : Path)
    (i : Nat) :
    (visitPositions .share positions items path i).misses =
      ((positions.zip items).zipIdx i).flatMap fun pair =>
        (Stop.mk (path ++ [.index pair.2]) pair.1.1 pair.1.2).misses := by
  induction positions generalizing items i with
  | nil => rfl
  | cons position rest ih =>
    cases items with
    | nil => rfl
    | cons item items =>
      rw [visitPositions, Visit.misses_both, ih, List.zip_cons_cons, List.zipIdx_cons,
        List.flatMap_cons]
      rfl

theorem misses_visitFields (fields : List (String × Schema)) (entries : List (String × Value))
    (path : Path) :
    (visitFields .share fields entries path).misses =
      fields.flatMap fun field =>
        (Stop.mk (path ++ [.key field.1]) field.2
          ((Entries.get? field.1 entries).getD .absent)).misses := by
  induction fields with
  | nil => rfl
  | cons field rest ih =>
    rw [visitFields, Visit.misses_both, ih, List.flatMap_cons]
    rfl

theorem misses_visitKey (keySchema : Option Schema) (path : Path) (name : String) :
    (visitKey keySchema path name).misses = [] := by
  unfold visitKey
  split
  · rfl
  · split <;> rfl

theorem misses_visitEntries (value : Schema) (keySchema : Option Schema) (path : Path)
    (entries : List (String × Value)) :
    (visitEntries .share (fun v p => visit .share value v p) keySchema path entries).misses =
      (entries.flatMap (entryDemands value keySchema)).flatMap (demandMisses path) := by
  induction entries with
  | nil => rfl
  | cons entry rest ih =>
    obtain ⟨name, v⟩ := entry
    have hkey : ((keySchema.map (Demand.key name)).toList).flatMap (demandMisses path) = [] := by
      cases keySchema <;> rfl
    rw [visitEntries, Visit.misses_both, ih, List.flatMap_cons, List.flatMap_append, visitEntry,
      Visit.misses_both, misses_visitKey, entryDemands, List.flatMap_append, hkey]
    congr 2
    cases v.isAbsent with
    | true => rfl
    | false => simp [demandMisses, Demand.stop?, Stop.misses]

/-! ## Alternatives -/

theorem tried_cons (alternative : Schema) (rest : List Schema) (v : Value) :
    tried (alternative :: rest) v =
      alternative :: if guard alternative v then [] else tried rest v := by
  unfold tried
  rw [List.findIdx_cons]
  cases guard alternative v <;> rfl

/-- Behind the misses of an alternative comes its own, unless it accepts. -/
theorem misses_visitAlternatives (alternatives : List Schema) (v : Value) (path : Path) (i : Nat) :
    (visitAlternatives .share alternatives v path i).1 =
      ((tried alternatives v).zipIdx i).flatMap fun alternative =>
        (visit .share alternative.1 v path).misses ++
          if (rejections alternative.1 v).length = 0 then []
          else [⟨path, alternative.2, (rejections alternative.1 v).length⟩] := by
  induction alternatives generalizing i with
  | nil => rfl
  | cons alternative rest ih =>
    have hends := rejects_at alternative v path
    rw [visitAlternatives, tried_cons, List.zipIdx_cons, List.flatMap_cons]
    cases hnone : rejections alternative v with
    | nil =>
      have hguard : guard alternative v = true := guard_eq_true_iff_rejections.mpr hnone
      rw [hnone, List.map_nil] at hends
      generalize visit .share alternative v path = x at hends ⊢
      cases hends with
      | accepted misses a => simp [hguard]
      | rejected misses hne => exact absurd rfl hne
    | cons r others =>
      have hguard : ¬ guard alternative v = true := by
        rw [guard_eq_true_iff_rejections, hnone]
        exact List.cons_ne_nil _ _
      rw [hnone] at hends
      generalize visit .share alternative v path = x at hends ⊢
      cases hends with
      | rejected misses hne => simp [hguard, ih]

end Schema

/-! ## Misses of stops -/

namespace Schema

variable {schema : Schema} {v : Value}

/-- An exempted value is not looked into, so there are no misses. -/
theorem misses_of_exempts (h : schema.info.exempts v = true) (path : Path) :
    (visit .share schema v path).misses = [] := by
  unfold visit
  rw [if_pos h]
  rfl

/-- But for unions, the misses of a node are those of its demands. -/
theorem misses_of_demands (h : schema.info.exempts v = false) (path : Path)
    (hunion : schema.kind ≠ .union) :
    (visit .share schema v path).misses = (demands schema v).flatMap (demandMisses path) := by
  have hnot : ¬ schema.info.exempts v = true := by simp [h]
  unfold visit
  rw [if_neg hnot]
  cases schema with
  | leaf info l brand =>
    dsimp only
    cases l.reject? v <;> rfl
  | array info element length =>
    cases v with
    | sequence items =>
      dsimp only
      rw [Visit.misses_before, misses_visitItems, demands, List.flatMap_map]
      · simp [demandMisses, Demand.stop?]
      · intro parts
        split <;> rfl
    | _ => rfl
  | tuple info positions =>
    cases v with
    | sequence items =>
      dsimp only
      rw [demands]
      split
      · rw [Visit.misses_map, misses_visitPositions, List.flatMap_map]
        simp [demandMisses, Demand.stop?]
      · rfl
    | _ => rfl
  | object info fields =>
    cases v with
    | mapping entries =>
      dsimp only
      rw [Visit.misses_before, misses_visitFields, demands, List.flatMap_map]
      · simp [demandMisses, Demand.stop?]
      · intro parts
        split <;> rfl
    | _ => rfl
  | record info value key =>
    cases v with
    | mapping entries => exact misses_visitEntries value key path entries
    | _ => rfl
  | union info alternatives => exact absurd rfl hunion

theorem misses_union {info : Info} {alternatives : List Schema} (h : info.exempts v = false)
    (path : Path) :
    (visit .share (union info alternatives) v path).misses =
      (visitAlternatives .share alternatives v path 0).1 := by
  have hnot : ¬ (union info alternatives).info.exempts v = true := by simp [Schema.info, h]
  unfold visit
  rw [if_neg hnot]
  dsimp only
  cases (visitAlternatives .share alternatives v path 0).2 <;> rfl

end Schema

namespace Stop

theorem inner_of_exempts {s : Stop} (h : s.schema.info.exempts s.subject = true) :
    s.inner = [] := by
  rw [inner, if_pos h]

theorem inner_union {path : Path} {info : Info} {alternatives : List Schema} {v : Value}
    (h : info.exempts v = false) :
    inner ⟨path, .union info alternatives, v⟩ =
      (tried alternatives v).map fun alternative => ⟨path, alternative, v⟩ := by
  simp [inner, Schema.info, h]

theorem inner_of_demands {s : Stop} (h : s.schema.info.exempts s.subject = false)
    (hunion : s.schema.kind ≠ .union) :
    s.inner = (demands s.schema s.subject).filterMap (Demand.stop? s.path) := by
  have hnot : ¬ s.schema.info.exempts s.subject = true := by simp [h]
  rw [inner, if_neg hnot]
  split
  · rename_i info alternatives heq
    rw [heq] at hunion
    exact absurd rfl hunion
  · rfl

theorem own_of_ne_union {s : Stop} (hunion : s.schema.kind ≠ .union) (i : Nat) (next : Stop) :
    s.own i next = [] := by
  unfold own
  split
  · rename_i info alternatives heq
    rw [heq] at hunion
    exact absurd rfl hunion
  · rfl

/-- Every stop tells what its inner stops tell, and its own after each of them. -/
theorem misses_eq (s : Stop) :
    s.misses = s.inner.zipIdx.flatMap fun next => next.1.misses ++ s.own next.2 next.1 := by
  obtain ⟨path, schema, v⟩ := s
  by_cases hexempts : schema.info.exempts v = true
  · rw [inner_of_exempts hexempts]
    exact misses_of_exempts hexempts path
  · rw [Bool.not_eq_true] at hexempts
    by_cases hunion : schema.kind = .union
    · cases schema with
      | union info alternatives =>
        have hexempts : info.exempts v = false := hexempts
        rw [inner_union hexempts, List.zipIdx_map, List.flatMap_map]
        calc (visit .share (union info alternatives) v path).misses
            = (visitAlternatives .share alternatives v path 0).1 := misses_union hexempts path
          _ = _ := misses_visitAlternatives alternatives v path 0
      | leaf info l brand => cases l <;> cases hunion
      | _ => cases hunion
    · simp only [own_of_ne_union (s := ⟨path, schema, v⟩) hunion, List.append_nil]
      calc (visit .share schema v path).misses
          = (demands schema v).flatMap (demandMisses path) :=
            misses_of_demands hexempts path hunion
        _ = (inner ⟨path, schema, v⟩).flatMap misses := by
            rw [inner_of_demands hexempts hunion, List.filterMap_eq_flatMap_toList,
              List.flatMap_assoc]
            rfl
        _ = _ := by
            rw [← List.flatMap_map Prod.fst misses, List.zipIdx_map_fst]

theorem of_mem_inner {s next : Stop} (h : next ∈ s.inner) :
    (∃ info alternatives, s.schema = .union info alternatives ∧ next.schema ∈ alternatives) ∨
      ∃ segment, Step s.schema s.subject segment next.schema next.subject := by
  unfold inner at h
  split at h
  · simp at h
  · split at h
    · rename_i info alternatives heq
      obtain ⟨alternative, hmem, rfl⟩ := List.mem_map.mp h
      exact .inl ⟨info, alternatives, heq, List.mem_of_mem_take hmem⟩
    · obtain ⟨demand, hmem, hstop⟩ := List.mem_filterMap.mp h
      cases demand with
      | part segment schema v =>
        cases hstop
        exact .inr ⟨segment, step_of_mem_demands hmem⟩
      | key name schema => cases hstop

/-- Stops inside a stop have smaller schemas. -/
theorem sizeOf_inner_lt {s next : Stop} (h : next ∈ s.inner) :
    sizeOf next.schema < sizeOf s.schema := by
  rcases of_mem_inner h with ⟨info, alternatives, heq, hmem⟩ | ⟨segment, hstep⟩
  · have hlt := List.sizeOf_lt_of_mem hmem
    rw [heq]
    simp
    omega
  · exact hstep.sizeOf_lt

/-- What holds of a stop if it holds of its inner stops holds of all stops. -/
@[elab_as_elim]
theorem induction {motive : Stop → Prop}
    (h : ∀ s : Stop, (∀ next ∈ s.inner, motive next) → motive s) (s : Stop) : motive s :=
  h s fun next _ => induction h next
termination_by sizeOf s.schema
decreasing_by exact sizeOf_inner_lt ‹_›

end Stop

end Conform
