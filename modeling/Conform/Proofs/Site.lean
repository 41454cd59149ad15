import Conform.Check.Path
import Conform.Proofs.Entries
import Conform.Proofs.Schema
import Conform.Proofs.Value

/-!
# Sites

A site is a schema over a value, and a step leads from a container schema over a container to a part
of it. `Step` is the step that a check takes: a tuple is entered only if it has the declared length,
and a record not where an entry has nothing under it. A union is never entered. `Reaches` strings
steps together along a path, and `walk` follows a path as far as it leads, asking only for a schema
and a value in the place.

* `step_induction`: what holds of a schema if it holds of all schemas one step away holds of all.
* `walk_of_reaches`: where keys are distinct, a walk ends at the one site that its path reaches.
-/

namespace Conform

/-- From a schema over a value to the schema over one of the parts. -/
inductive Step : Schema → Value → Segment → Schema → Value → Prop
  | element {info : Info} {element : Schema} {length : Bounds UInt64} {items : List Value} {i : Nat}
      {item : Value} (h : items[i]? = some item) :
      Step (.array info element length) (.sequence items) (.index i) element item
  | position {info : Info} {positions : List Schema} {items : List Value} {i : Nat}
      {position : Schema} {item : Value} (hlength : items.length = positions.length)
      (hposition : positions[i]? = some position) (hitem : items[i]? = some item) :
      Step (.tuple info positions) (.sequence items) (.index i) position item
  | field {info : Info} {fields : List (String × Schema)} {entries : List (String × Value)}
      {name : String} {field : Schema} (hmem : (name, field) ∈ fields) :
      Step (.object info fields) (.mapping entries) (.key name) field
        ((Entries.get? name entries).getD .absent)
  | entry {info : Info} {value : Schema} {key : Option Schema} {entries : List (String × Value)}
      {name : String} {v : Value} (hmem : (name, v) ∈ entries) (hpresent : v ≠ .absent) :
      Step (.record info value key) (.mapping entries) (.key name) value v

/-- Steps along a path. -/
inductive Reaches : Schema → Value → Path → Schema → Value → Prop
  | here {schema : Schema} {v : Value} : Reaches schema v [] schema v
  | step {schema schema₁ schema' : Schema} {v v₁ v' : Value} {segment : Segment} {rest : Path}
      (h : Step schema v segment schema₁ v₁) (hrest : Reaches schema₁ v₁ rest schema' v') :
      Reaches schema v (segment :: rest) schema' v'

namespace Schema

/-- The schema and the value in the place that the segment names. A declared field may be missing
from the value. -/
def descend : Schema → Value → Segment → Option (Schema × Value)
  | array _ element _, .sequence items, .index i => items[i]?.map fun item => (element, item)
  | tuple _ positions, .sequence items, .index i =>
    positions[i]?.bind fun position => items[i]?.map fun item => (position, item)
  | object _ fields, .mapping entries, .key name =>
    (Entries.get? name fields).map fun field =>
      (field, (Entries.get? name entries).getD .absent)
  | record _ value _, .mapping entries, .key name =>
    (Entries.get? name entries).map fun v => (value, v)
  | _, _, _ => none

/-- The schema and the value at the end of a path, if it can be followed in both. -/
def walk (schema : Schema) (v : Value) : Path → Option (Schema × Value)
  | [] => some (schema, v)
  | segment :: rest => (descend schema v segment).bind fun next => walk next.1 next.2 rest

end Schema

/-! ## One step -/

section

variable {schema schema' : Schema} {v v' : Value} {segment : Segment}

theorem Step.wellFormed (h : Step schema v segment schema' v') (hs : schema.WellFormed) :
    schema'.WellFormed := by
  cases h with
  | element => exact hs
  | position _ hposition =>
    exact Schema.wellFormed_tuple.mp hs _ (List.mem_of_getElem? hposition)
  | field hmem => exact (Schema.wellFormed_object.mp hs).2 _ hmem
  | entry => exact Schema.wellFormed_of_record hs

theorem Step.distinctKeys (h : Step schema v segment schema' v') (hv : v.DistinctKeys) :
    v'.DistinctKeys := by
  cases h with
  | element hitem => exact Value.distinctKeys_sequence.mp hv _ (List.mem_of_getElem? hitem)
  | position _ _ hitem => exact Value.distinctKeys_sequence.mp hv _ (List.mem_of_getElem? hitem)
  | @field _ _ entries name =>
    cases hget : Entries.get? name entries with
    | none => trivial
    | some w => exact (Value.distinctKeys_mapping.mp hv).2 _ (Entries.mem_of_get? hget)
  | entry hmem => exact (Value.distinctKeys_mapping.mp hv).2 _ hmem

theorem Step.descend (h : Step schema v segment schema' v') (hs : schema.WellFormed)
    (hv : v.DistinctKeys) : schema.descend v segment = some (schema', v') := by
  cases h with
  | element hitem => simp [Schema.descend, hitem]
  | position _ hposition hitem => simp [Schema.descend, hposition, hitem]
  | field hmem =>
    have hfield := Entries.get?_eq_some_of_mem (Schema.wellFormed_object.mp hs).1 hmem
    simp [Schema.descend, hfield]
  | entry hmem =>
    have hentry := Entries.get?_eq_some_of_mem (Value.distinctKeys_mapping.mp hv).1 hmem
    simp [Schema.descend, hentry]

/-- A step leads to a schema inside, and none leads out of a leaf or a union. -/
theorem Schema.step_induction {motive : Schema → Prop}
    (h : ∀ schema, (∀ v segment schema' v', Step schema v segment schema' v' → motive schema') →
      motive schema) :
    ∀ schema, motive schema := by
  intro schema
  induction schema with
  | leaf info l brand =>
    refine h _ fun v segment schema' v' hstep => ?_
    cases hstep
  | array info element length ih =>
    refine h _ fun v segment schema' v' hstep => ?_
    cases hstep
    exact ih
  | tuple info positions ih =>
    refine h _ fun v segment schema' v' hstep => ?_
    cases hstep with
    | position _ hposition => exact ih _ (List.mem_of_getElem? hposition)
  | object info fields ih =>
    refine h _ fun v segment schema' v' hstep => ?_
    cases hstep with
    | field hmem => exact ih _ hmem
  | record info value key ih _ =>
    refine h _ fun v segment schema' v' hstep => ?_
    cases hstep
    exact ih
  | union info alternatives ih =>
    refine h _ fun v segment schema' v' hstep => ?_
    cases hstep

/-! ## Paths -/

theorem Schema.walk_of_step (h : Step schema v segment schema' v') (hs : schema.WellFormed)
    (hv : v.DistinctKeys) (rest : Path) :
    schema.walk v (segment :: rest) = schema'.walk v' rest := by
  rw [walk, h.descend hs hv, Option.bind_some]

/-- A part that is reached by steps is found by walking. -/
theorem Schema.walk_of_reaches {q : Path} (h : Reaches schema v q schema' v')
    (hs : schema.WellFormed) (hv : v.DistinctKeys) : schema.walk v q = some (schema', v') := by
  induction h with
  | here => rfl
  | step hstep _ ih =>
    rw [walk_of_step hstep hs hv]
    exact ih (hstep.wellFormed hs) (hstep.distinctKeys hv)

end

end Conform
