import Conform.Schema

/-!
# Building schemas step by step

A draft starts from a kind, with the schemas that a node of that kind cannot be without, and is
refined by calls. Each modifier may be set once and each field declared once. A call that repeats
one changes nothing but leaves a diagnostic, and the first diagnostic is what `build` fails with.
Only a draft without one is looked at as a whole: a union must have an alternative, and the key
schema of a record must be a text schema.

A blueprint is a draft whose inner schemas are blueprints themselves. They are built as they are
reached: those of the start first, then each argument right before its call.
-/

namespace Conform

/-- What may be set once. -/
inductive Modifier where
  | optional
  | nullable
  | description
  | brand
  | minLength
  | maxLength
  | min
  | max
  | key
deriving DecidableEq

/-- The name of a modifier in messages. -/
def Modifier.name : Modifier → String
  | optional => "optional"
  | nullable => "nullable"
  | description => "description"
  | brand => "brand"
  | minLength => "minLength"
  | maxLength => "maxLength"
  | min => "min"
  | max => "max"
  | key => "key"

/-- Why a draft is not built. -/
inductive BuildError where
  | reassigned (modifier : Modifier)
  | duplicateField (name : String)
  | defect (d : Schema.Defect)
deriving DecidableEq

/-- What the failure is reported with. -/
def BuildError.message : BuildError → String
  | reassigned modifier => "modifier `" ++ modifier.name ++ "` is already set on this schema"
  | duplicateField name => "object field `" ++ name ++ "` is declared more than once"
  | defect d => d.message

/-- What a draft starts from; `σ` stands for the inner schemas. -/
inductive Start (σ : Type) where
  | string
  | number
  | bigint
  | boolean
  | literal (value : Constant)
  | array (element : σ)
  | tuple (positions : List σ)
  | object
  | record (value : σ)
  | union (alternatives : List σ)

/-- A call that refines a draft; `σ` stands for the inner schemas. -/
inductive Call (σ : Type) where
  | optional
  | nullable
  | description (text : String)
  | brand (b : Brand)
  | minLength (n : UInt64)
  | maxLength (n : UInt64)
  | min (bound : Double)
  | max (bound : Double)
  | field (name : String) (schema : σ)
  | key (schema : σ)

/-- A node that is being built, with the first mistake that was made. -/
structure Draft where
  start : Start Schema
  optional : Bool
  nullable : Bool
  description : Option String
  brand : Option Brand
  length : Bounds UInt64
  range : Bounds Double
  fields : List (String × Schema)
  key : Option Schema
  diagnostic : Option BuildError

namespace Draft

/-- A draft before any call. -/
def ofStart (start : Start Schema) : Draft :=
  ⟨start, false, false, none, none, .unset, .unset, [], none, none⟩

/-- The first diagnostic stays. -/
def reject (draft : Draft) (error : BuildError) : Draft :=
  { draft with diagnostic := draft.diagnostic.or (some error) }

/-- Sets a modifier, or leaves a diagnostic if it is set already. -/
def assign (draft : Draft) (modifier : Modifier) (isSet : Bool) (assigned : Draft) : Draft :=
  if isSet then draft.reject (.reassigned modifier) else assigned

/-- What a call does to a draft, on whatever kind of node it is made. -/
def call (d : Draft) : Call Schema → Draft
  | .optional => d.assign .optional d.optional { d with optional := true }
  | .nullable => d.assign .nullable d.nullable { d with nullable := true }
  | .description text =>
    d.assign .description d.description.isSome { d with description := some text }
  | .brand b => d.assign .brand d.brand.isSome { d with brand := some b }
  | .minLength n =>
    d.assign .minLength d.length.min.isSome { d with length := ⟨some n, d.length.max⟩ }
  | .maxLength n =>
    d.assign .maxLength d.length.max.isSome { d with length := ⟨d.length.min, some n⟩ }
  | .min bound => d.assign .min d.range.min.isSome { d with range := ⟨some bound, d.range.max⟩ }
  | .max bound => d.assign .max d.range.max.isSome { d with range := ⟨d.range.min, some bound⟩ }
  | .field name schema =>
    if Entries.has name d.fields then d.reject (.duplicateField name)
    else { d with fields := d.fields ++ [(name, schema)] }
  | .key schema => d.assign .key d.key.isSome { d with key := some schema }

/-- What the node will say beside its kind. -/
def info (d : Draft) : Info :=
  ⟨d.optional, d.nullable, d.description⟩

/-- The node as it stands, whatever the diagnostic. -/
def schema (d : Draft) : Schema :=
  match d.start with
  | .string => .leaf d.info (.string d.length) d.brand
  | .number => .leaf d.info (.number d.range) d.brand
  | .bigint => .leaf d.info .bigint d.brand
  | .boolean => .leaf d.info .boolean d.brand
  | .literal value => .leaf d.info (.literal value) d.brand
  | .array element => .array d.info element d.length
  | .tuple positions => .tuple d.info positions
  | .object => .object d.info d.fields
  | .record value => .record d.info value d.key
  | .union alternatives => .union d.info alternatives

/-- The node, unless a mistake was made or the node has a defect of its own. -/
def build (d : Draft) : Except BuildError Schema :=
  match d.diagnostic with
  | some error => .error error
  | none =>
    match d.schema.defect? with
    | some defect => .error (.defect defect)
    | none => .ok d.schema

end Draft

/-! ## Blueprints -/

/-- A start and the calls that follow it, with blueprints for the inner schemas. -/
inductive Blueprint where
  | mk (start : Start Blueprint) (calls : List (Call Blueprint))

namespace Blueprint

mutual

/-- The schema of a blueprint, or the first failure on the way to it. -/
def build : Blueprint → Except BuildError Schema
  | mk start calls => do
    let start ← buildStart start
    let draft ← run calls (Draft.ofStart start)
    draft.build

/-- The inner schemas of a start are built in their order. -/
def buildStart : Start Blueprint → Except BuildError (Start Schema)
  | .string => return .string
  | .number => return .number
  | .bigint => return .bigint
  | .boolean => return .boolean
  | .literal value => return .literal value
  | .array element => return .array (← build element)
  | .tuple positions => return .tuple (← buildList positions)
  | .object => return .object
  | .record value => return .record (← build value)
  | .union alternatives => return .union (← buildList alternatives)

def buildList : List Blueprint → Except BuildError (List Schema)
  | [] => return []
  | blueprint :: rest => do
    let schema ← build blueprint
    return schema :: (← buildList rest)

/-- The calls on a draft, one after the other. -/
def run : List (Call Blueprint) → Draft → Except BuildError Draft
  | [], draft => return draft
  | c :: rest, draft => do
    let c ← buildCall c
    run rest (draft.call c)

/-- The schema that a call takes up is built right before the call. -/
def buildCall : Call Blueprint → Except BuildError (Call Schema)
  | .optional => return .optional
  | .nullable => return .nullable
  | .description text => return .description text
  | .brand b => return .brand b
  | .minLength n => return .minLength n
  | .maxLength n => return .maxLength n
  | .min bound => return .min bound
  | .max bound => return .max bound
  | .field name schema => return .field name (← build schema)
  | .key schema => return .key (← build schema)

end

end Blueprint

end Conform
