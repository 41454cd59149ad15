import Conform.Check.Leaf

/-!
# Walking a value along a schema

`visit` takes a schema and a value and goes through both. What it makes of an accepted value is
left to a policy: `share` hands back the value, `rebuild` puts it together anew from the accepted
parts, where an object keeps the fields that are there and a record drops entries with nothing
under them.

The parts of a container are all visited, and their rejections collected in order; the node itself
has its say only if no part was rejected. An alternative of a union that does not match leaves no
rejection but a miss, and the node rejects when no alternative is left.
-/

namespace Conform

/-- An alternative that did not match, and how many rejections it had. -/
structure Miss where
  path : Path
  alternative : Nat
  errors : Nat
deriving DecidableEq

/-- The misses of a visit, in the order in which they came, and how it ended. -/
structure Visit (α : Type) where
  misses : List Miss
  outcome : Except (List Rejection) α

namespace Visit

variable {α β γ : Type}

/-- Nothing to object to, and nothing missed. -/
def accept (a : α) : Visit α :=
  ⟨[], .ok a⟩

/-- A single rejection. -/
def reject (code : Code) (path : Path) (schema : Schema) (subject : Value) : Visit α :=
  ⟨[], .error [⟨code, path, schema, subject⟩]⟩

/-- What is made of the accepted value is turned into something else. -/
def map (f : α → β) (x : Visit α) : Visit β :=
  ⟨x.misses, x.outcome.map f⟩

/-- Both visits are made; the rejections of both are kept. -/
def both (f : α → β → γ) (x : Visit α) (y : Visit β) : Visit γ where
  misses := x.misses ++ y.misses
  outcome :=
    match x.outcome, y.outcome with
    | .ok a, .ok b => .ok (f a b)
    | .ok _, .error es => .error es
    | .error es, .ok _ => .error es
    | .error es, .error es' => .error (es ++ es')

/-- The visit of the parts, then a check of the whole. -/
def before (x : Visit α) (check : α → Visit β) : Visit β :=
  match x.outcome with
  | .ok a => ⟨x.misses ++ (check a).misses, (check a).outcome⟩
  | .error es => ⟨x.misses, .error es⟩

end Visit

/-- What is made of accepted values. -/
structure Policy (α : Type) where
  leaf : Value → α
  sequence : Value → List α → α
  mapping : Value → List (String × α) → α
  /-- whether a record leaves out an entry with this under it -/
  drops : α → Bool

namespace Policy

/-- Every accepted value is handed back as it is. -/
def share : Policy Value where
  leaf := id
  sequence subject _ := subject
  mapping subject _ := subject
  drops _ := false

/-- Containers are put together from what is made of their parts. -/
def rebuild : Policy Value where
  leaf := id
  sequence _ items := .sequence items
  mapping _ entries := .mapping entries
  drops := Value.isAbsent

end Policy

/-- The node accepts the value without looking at it. -/
def Info.exempts (info : Info) (subject : Value) : Bool :=
  info.optional && subject.isAbsent || info.nullable && subject.isNull

namespace Schema

variable {α : Type}

/-! ## The parts of containers -/

/-- Visits items from index `i` on. -/
def visitItems (visit : Value → Path → Visit α) (path : Path) (i : Nat) :
    List Value → Visit (List α)
  | [] => .accept []
  | item :: rest =>
    .both List.cons (visit item (path ++ [.index i])) (visitItems visit path (i + 1) rest)

/-- What a key schema, if there is one, says to the key of an entry at `path`. -/
def visitKey (keySchema : Option Schema) (path : Path) (key : String) : Visit Unit :=
  match keySchema with
  | none => .accept ()
  | some schema =>
    match schema.verifyKey key with
    | none => .accept ()
    | some code => .reject code path schema (.string key)

/-- An entry with nothing under it has only its key looked at, and is left out. -/
def visitEntry (policy : Policy α) (visit : Value → Path → Visit α) (keySchema : Option Schema)
    (path : Path) (key : String) (value : Value) : Visit (List (String × α)) :=
  let kept : Visit (List (String × α)) :=
    if value.isAbsent then .accept []
    else (visit value path).map fun a => if policy.drops a then [] else [(key, a)]
  .both (fun _ entries => entries) (visitKey keySchema path key) kept

/-- The entries of a record in their order, each with its key in the path. -/
def visitEntries (policy : Policy α) (visit : Value → Path → Visit α) (keySchema : Option Schema)
    (path : Path) : List (String × Value) → Visit (List (String × α))
  | [] => .accept []
  | (key, value) :: rest =>
    .both List.append (visitEntry policy visit keySchema (path ++ [.key key]) key value)
      (visitEntries policy visit keySchema path rest)

/-- Some key of the mapping is not declared. -/
def hasUndeclared (fields : List (String × Schema)) (entries : List (String × Value)) : Bool :=
  entries.any fun entry => !Entries.has entry.1 fields

/-! ## Nodes -/

mutual

/-- Visits the value at the path; an exempt one is accepted before its kind is looked at. -/
def visit (policy : Policy α) (schema : Schema) (subject : Value) (path : Path) : Visit α :=
  if schema.info.exempts subject then .accept (policy.leaf subject)
  else
    match schema with
    | leaf info l brand =>
      match l.reject? subject with
      | none => .accept (policy.leaf subject)
      | some code => .reject code path (leaf info l brand) subject
    | array info element length =>
      match subject with
      | .sequence items =>
        (visitItems (fun v p => visit policy element v p) path 0 items).before fun parts =>
          if length.allows items.length then .accept (policy.sequence subject parts)
          else .reject .invalidRange path (array info element length) subject
      | _ => .reject .invalidType path (array info element length) subject
    | tuple info positions =>
      match subject with
      | .sequence items =>
        if items.length = positions.length then
          (visitPositions policy positions items path 0).map (policy.sequence subject)
        else .reject .invalidType path (tuple info positions) subject
      | _ => .reject .invalidType path (tuple info positions) subject
    | object info fields =>
      match subject with
      | .mapping entries =>
        (visitFields policy fields entries path).before fun parts =>
          if hasUndeclared fields entries then
            .reject .invalidType path (object info fields) subject
          else .accept (policy.mapping subject parts)
      | _ => .reject .invalidType path (object info fields) subject
    | record info value key =>
      match subject with
      | .mapping entries =>
        (visitEntries policy (fun v p => visit policy value v p) key path entries).map
          (policy.mapping subject)
      | _ => .reject .invalidType path (record info value key) subject
    | union info alternatives =>
      let tried := visitAlternatives policy alternatives subject path 0
      match tried.2 with
      | some a => ⟨tried.1, .ok a⟩
      | none =>
        ⟨tried.1, .error [⟨.invalidType, path, union info alternatives, subject⟩]⟩

/-- Visits items by position, from index `i` on. -/
def visitPositions (policy : Policy α) (positions : List Schema) (items : List Value) (path : Path)
    (i : Nat) : Visit (List α) :=
  match positions, items with
  | position :: positions, item :: items =>
    .both List.cons (visit policy position item (path ++ [.index i]))
      (visitPositions policy positions items path (i + 1))
  | _, _ => .accept []

/-- A field whose key is missing is visited as absent, and left out. -/
def visitFields (policy : Policy α) (fields : List (String × Schema))
    (entries : List (String × Value)) (path : Path) : Visit (List (String × α)) :=
  match fields with
  | [] => .accept []
  | (name, field) :: rest =>
    let present := Entries.get? name entries
    let part := visit policy field (present.getD .absent) (path ++ [.key name])
    .both (fun a parts => if present.isSome then (name, a) :: parts else parts) part
      (visitFields policy rest entries path)

/-- The misses up to the first alternative that accepts, and what it makes of the value. -/
def visitAlternatives (policy : Policy α) (alternatives : List Schema) (subject : Value)
    (path : Path) (i : Nat) : List Miss × Option α :=
  match alternatives with
  | [] => ([], none)
  | alternative :: rest =>
    let visited := visit policy alternative subject path
    match visited.outcome with
    | .ok a => (visited.misses, some a)
    | .error es =>
      let later := visitAlternatives policy rest subject path (i + 1)
      (visited.misses ++ ⟨path, i, es.length⟩ :: later.1, later.2)

end

end Schema

end Conform
