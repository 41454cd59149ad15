import Conform.Check
import Conform.Proofs.Visit.Simulation

/-!
# One path for the whole walk

`visit` is told the path of every value it looks at. A walk can also keep one path, which all nodes
share: a container adds a segment before it visits a part and takes it off when the part is done,
and whoever has something to reject looks up where the walk is. `tour` is the visit in this form.

* `Follows.tour`: the tour makes the visit at the path at which it is begun, and leaves this path
  as it was, whether the value is accepted or not.
* `visited_at_path`: the path given for a value is put in front of the paths of its rejections and
  has no other effect, and every node gives the shared path back.
-/

namespace Conform

variable {α β : Type}

/-! ## Walks that share a path -/

/-- A computation with the path of the walk as its state. -/
abbrev Walk (β : Type) := StateM Path β

namespace Walk

/-- One step further in. -/
def push (segment : Segment) : Walk Unit :=
  modify fun path : Path => path ++ [segment]

/-- One step back. -/
def pop : Walk Unit :=
  modify fun path : Path => path.dropLast

@[simp]
theorem run_push (segment : Segment) (path : Path) :
    (push segment).run path = pure ((), path ++ [segment]) :=
  rfl

@[simp]
theorem run_pop (path : Path) : pop.run path = pure ((), path.dropLast) :=
  rfl

/-- What the walk results in depends on the path as `f` says, and the path is left as it was. -/
def Follows (walk : Walk β) (f : Path → β) : Prop :=
  ∀ path, walk.run path = pure (f path, path)

end Walk

open Walk

/-! ## The tour of a value -/

namespace Schema

/-- The node rejects the value at the path of the walk. -/
def rejectHere (code : Code) (schema : Schema) (subject : Value) : Walk (Visit α) := do
  return .reject code (← get) schema subject

/-- The items from index `i` on, each with its index on the path while it is visited. -/
def tourItems (tour : Value → Walk (Visit α)) (i : Nat) : List Value → Walk (Visit (List α))
  | [] => return .accept []
  | item :: rest => do
    push (.index i)
    let part ← tour item
    pop
    let parts ← tourItems tour (i + 1) rest
    return .both List.cons part parts

/-- A key is looked at where its entry stands. -/
def tourKey (keySchema : Option Schema) (key : String) : Walk (Visit Unit) :=
  match keySchema with
  | none => return .accept ()
  | some schema =>
    match schema.verifyKey key with
    | none => return .accept ()
    | some code => rejectHere code schema (.string key)

/-- An entry with nothing under it is left as soon as its key has been looked at. -/
def tourEntries (policy : Policy α) (tour : Value → Walk (Visit α)) (keySchema : Option Schema) :
    List (String × Value) → Walk (Visit (List (String × α)))
  | [] => return .accept []
  | (key, value) :: rest => do
    push (.key key)
    let said ← tourKey keySchema key
    if value.isAbsent then
      pop
      let parts ← tourEntries policy tour keySchema rest
      return .both List.append (said.both (fun _ none => none) (.accept [])) parts
    else
      let part ← tour value
      pop
      let kept := part.map fun a => if policy.drops a then [] else [(key, a)]
      let parts ← tourEntries policy tour keySchema rest
      return .both List.append (said.both (fun _ entry => entry) kept) parts

mutual

/-- The visit with one path that is lengthened and shortened on the way. -/
def tour (policy : Policy α) (schema : Schema) (subject : Value) : Walk (Visit α) :=
  if schema.info.exempts subject then return .accept (policy.leaf subject)
  else
    match schema with
    | leaf info l brand =>
      match l.reject? subject with
      | none => return .accept (policy.leaf subject)
      | some code => rejectHere code (leaf info l brand) subject
    | array info element length =>
      match subject with
      | .sequence items => do
        let parts ← tourItems (fun v => tour policy element v) 0 items
        let here ← get
        return parts.before fun parts =>
          if length.allows items.length then .accept (policy.sequence subject parts)
          else .reject .invalidRange here (array info element length) subject
      | _ => rejectHere .invalidType (array info element length) subject
    | tuple info positions =>
      match subject with
      | .sequence items =>
        if items.length = positions.length then do
          let parts ← tourPositions policy positions items 0
          return parts.map (policy.sequence subject)
        else rejectHere .invalidType (tuple info positions) subject
      | _ => rejectHere .invalidType (tuple info positions) subject
    | object info fields =>
      match subject with
      | .mapping entries => do
        let parts ← tourFields policy fields entries
        let here ← get
        return parts.before fun parts =>
          if hasUndeclared fields entries then
            .reject .invalidType here (object info fields) subject
          else .accept (policy.mapping subject parts)
      | _ => rejectHere .invalidType (object info fields) subject
    | record info value key =>
      match subject with
      | .mapping entries => do
        let parts ← tourEntries policy (fun v => tour policy value v) key entries
        return parts.map (policy.mapping subject)
      | _ => rejectHere .invalidType (record info value key) subject
    | union info alternatives => do
      let tried ← tourAlternatives policy alternatives subject 0
      match tried.2 with
      | some a => return ⟨tried.1, .ok a⟩
      | none =>
        let here ← get
        return ⟨tried.1, .error [⟨.invalidType, here, union info alternatives, subject⟩]⟩

/-- The items by position, from index `i` on. -/
def tourPositions (policy : Policy α) (positions : List Schema) (items : List Value) (i : Nat) :
    Walk (Visit (List α)) :=
  match positions, items with
  | position :: positions, item :: items => do
    push (.index i)
    let part ← tour policy position item
    pop
    let parts ← tourPositions policy positions items (i + 1)
    return .both List.cons part parts
  | _, _ => return .accept []

/-- The fields, each with its name on the path while it is visited. -/
def tourFields (policy : Policy α) (fields : List (String × Schema))
    (entries : List (String × Value)) : Walk (Visit (List (String × α))) :=
  match fields with
  | [] => return .accept []
  | (name, field) :: rest => do
    let present := Entries.get? name entries
    push (.key name)
    let part ← tour policy field (present.getD .absent)
    pop
    let parts ← tourFields policy rest entries
    return .both (fun a parts => if present.isSome then (name, a) :: parts else parts) part parts

/-- The alternatives are toured at the path of the union. A miss is told where the walk is after
the alternative has failed. -/
def tourAlternatives (policy : Policy α) (alternatives : List Schema) (subject : Value)
    (i : Nat) : Walk (List Miss × Option α) :=
  match alternatives with
  | [] => return ([], none)
  | alternative :: rest => do
    let visited ← tour policy alternative subject
    match visited.outcome with
    | .ok a => return (visited.misses, some a)
    | .error es =>
      let here ← get
      let later ← tourAlternatives policy rest subject (i + 1)
      return (visited.misses ++ ⟨here, i, es.length⟩ :: later.1, later.2)

end

end Schema

/-! ## The tour is the visit -/

namespace Walk.Follows

open Schema

theorem rejectHere (code : Code) (schema : Schema) (subject : Value) :
    Follows (rejectHere code schema subject : Walk (Visit α))
      fun path => .reject code path schema subject := by
  intro path
  rfl

theorem tourItems {tour : Value → Walk (Visit α)} {visit : Value → Path → Visit α}
    (h : ∀ v, Follows (tour v) (visit v)) (items : List Value) (i : Nat) :
    Follows (tourItems tour i items) fun path => visitItems visit path i items := by
  induction items generalizing i with
  | nil =>
    intro path
    rfl
  | cons item rest ih =>
    intro path
    have hitem := h item (path ++ [.index i])
    have hrest := ih (i + 1) path
    simp [Schema.tourItems, visitItems, hitem, hrest]

theorem tourKey (keySchema : Option Schema) (key : String) :
    Follows (tourKey keySchema key) fun path => visitKey keySchema path key := by
  intro path
  cases keySchema with
  | none => rfl
  | some schema =>
    simp only [Schema.tourKey, visitKey]
    cases schema.verifyKey key with
    | none => rfl
    | some code => exact Follows.rejectHere _ _ _ path

theorem tourEntries (policy : Policy α) {tour : Value → Walk (Visit α)}
    {visit : Value → Path → Visit α} (h : ∀ v, Follows (tour v) (visit v))
    (keySchema : Option Schema) (entries : List (String × Value)) :
    Follows (tourEntries policy tour keySchema entries)
      fun path => visitEntries policy visit keySchema path entries := by
  induction entries with
  | nil =>
    intro path
    rfl
  | cons entry rest ih =>
    obtain ⟨key, value⟩ := entry
    intro path
    have hkey := Follows.tourKey keySchema key (path ++ [.key key])
    have hvalue := h value (path ++ [.key key])
    have hrest := ih path
    by_cases habsent : value.isAbsent = true
    · simp [Schema.tourEntries, visitEntries, visitEntry, hkey, hrest, habsent]
    · simp [Schema.tourEntries, visitEntries, visitEntry, hkey, hvalue, hrest, habsent]

theorem tourPositions {policy : Policy α} {positions : List Schema}
    (h : ∀ position ∈ positions, ∀ v, Follows (tour policy position v) (visit policy position v))
    (items : List Value) (i : Nat) :
    Follows (tourPositions policy positions items i)
      fun path => visitPositions policy positions items path i := by
  induction positions generalizing items i with
  | nil =>
    intro path
    rfl
  | cons position rest ih =>
    intro path
    cases items with
    | nil => rfl
    | cons item items =>
      have hitem := h position List.mem_cons_self item (path ++ [.index i])
      have hrest := ih (fun p hp => h p (List.mem_cons_of_mem _ hp)) items (i + 1) path
      simp [Schema.tourPositions, visitPositions, hitem, hrest]

theorem tourFields {policy : Policy α} {fields : List (String × Schema)}
    (h : ∀ field ∈ fields, ∀ v, Follows (tour policy field.2 v) (visit policy field.2 v))
    (entries : List (String × Value)) :
    Follows (tourFields policy fields entries)
      fun path => visitFields policy fields entries path := by
  induction fields with
  | nil =>
    intro path
    rfl
  | cons field rest ih =>
    obtain ⟨name, schema⟩ := field
    intro path
    have hfield := h _ List.mem_cons_self ((Entries.get? name entries).getD .absent)
      (path ++ [.key name])
    have hrest := ih (fun f hf => h f (List.mem_cons_of_mem _ hf)) path
    simp [Schema.tourFields, visitFields, hfield, hrest]

theorem tourAlternatives {policy : Policy α} {alternatives : List Schema}
    (h : ∀ alternative ∈ alternatives, ∀ v,
      Follows (tour policy alternative v) (visit policy alternative v))
    (subject : Value) (i : Nat) :
    Follows (tourAlternatives policy alternatives subject i)
      fun path => visitAlternatives policy alternatives subject path i := by
  induction alternatives generalizing i with
  | nil =>
    intro path
    rfl
  | cons alternative rest ih =>
    intro path
    have hfirst := h alternative List.mem_cons_self subject path
    have hrest := ih (fun a ha => h a (List.mem_cons_of_mem _ ha)) (i + 1) path
    simp only [Schema.tourAlternatives, visitAlternatives, StateT.run_bind, hfirst, pure_bind]
    -- what the alternative left of the path is what the next one begins with
    cases (visit policy alternative subject path).outcome with
    | ok a => rfl
    | error es => simp [hrest]

theorem tour (policy : Policy α) (schema : Schema) (subject : Value) :
    Follows (tour policy schema subject) (visit policy schema subject) := by
  induction schema generalizing subject with
  | leaf info l brand =>
    intro path
    unfold Schema.tour visit
    split
    · rfl
    · dsimp only
      cases l.reject? subject with
      | none => rfl
      | some code => exact Follows.rejectHere _ _ _ path
  | array info element length ih =>
    intro path
    unfold Schema.tour visit
    split
    · rfl
    · cases subject with
      | sequence items => simp [Follows.tourItems ih items 0 path]
      | _ => exact Follows.rejectHere _ _ _ path
  | tuple info positions ih =>
    intro path
    unfold Schema.tour visit
    split
    · rfl
    · cases subject with
      | sequence items =>
        by_cases hlength : items.length = positions.length
        · simp [hlength, Follows.tourPositions ih items 0 path]
        · simp only [hlength, if_false]
          exact Follows.rejectHere _ _ _ path
      | _ => exact Follows.rejectHere _ _ _ path
  | object info fields ih =>
    intro path
    unfold Schema.tour visit
    split
    · rfl
    · cases subject with
      | mapping entries => simp [Follows.tourFields ih entries path]
      | _ => exact Follows.rejectHere _ _ _ path
  | record info value key ih _ =>
    intro path
    unfold Schema.tour visit
    split
    · rfl
    · cases subject with
      | mapping entries => simp [Follows.tourEntries policy ih key entries path]
      | _ => exact Follows.rejectHere _ _ _ path
  | union info alternatives ih =>
    intro path
    unfold Schema.tour visit
    split
    · rfl
    · simp only [StateT.run_bind, Follows.tourAlternatives ih subject 0 path, pure_bind]
      cases (visitAlternatives policy alternatives subject path 0).2 with
      | some a => rfl
      | none => rfl

end Walk.Follows

/-! ## The path given for the value -/

namespace Schema

/-- The outcome at a path is the outcome at the root, with its errors under the path. -/
theorem outcome_visit_at (policy : Policy α) (schema : Schema) (v : Value) (q : Path) :
    (visit policy schema v q).outcome =
      (visit policy schema v []).outcome.mapError (List.map (Rejection.under q)) := by
  have h := visit_under policy schema v q []
  rw [List.append_nil] at h
  rw [h]
  rfl

end Schema

open Schema

/-- Checking and parsing at `q` end as they do without a path, with `q` in front of the paths of
the rejections. The tour of a value, and so of each of its parts, makes this visit and gives the
shared path back as it got it. -/
theorem visited_at_path (schema : Schema) (v : Value) (q : Path) :
    (match validate schema v with
      | .ok a =>
        (validateAt schema v q).result = .ok a ∧
          ∃ made, parse schema v = .ok made ∧ (parseAt schema v q).result = .ok made
      | .error es =>
        (validateAt schema v q).result = .error (es.map (Rejection.under q)) ∧
          (parseAt schema v q).result = .error (es.map (Rejection.under q))) ∧
      ∀ {β : Type} (policy : Policy β),
        (tour policy schema v).run q = (visit policy schema v q, q) := by
  constructor
  · have hvalidate : (validateAt schema v q).result =
        (validate schema v).mapError (List.map (Rejection.under q)) :=
      outcome_visit_at .share schema v q
    have hparse : (parseAt schema v q).result =
        (parse schema v).mapError (List.map (Rejection.under q)) :=
      outcome_visit_at .rebuild schema v q
    rw [hvalidate, hparse]
    have halike : Visit.Alike (fun _ _ => True) [] (visit .share schema v [])
        (visit .rebuild schema v []) := visit_alike_any .share .rebuild schema v []
    have hv : validate schema v = (visit .share schema v []).outcome := rfl
    have hp : parse schema v = (visit .rebuild schema v []).outcome := rfl
    rw [hv, hp]
    generalize visit .share schema v [] = x at halike ⊢
    generalize visit .rebuild schema v [] = y at halike ⊢
    cases halike with
    | accepted misses h => exact ⟨rfl, _, rfl, rfl⟩
    | rejected misses es =>
      refine ⟨rfl, ?_⟩
      rw [Rejection.under_nil, List.map_id]
      rfl
  · intro β policy
    exact Walk.Follows.tour policy schema v q

end Conform
