import Conform.Double
import Conform.Entries

/-!
# Schemas

A schema is a tree. Its leaves accept a single text, number, big integer or boolean, or one
constant; the other nodes accept a container by its parts, or whatever one of their alternatives
accepts. Every node says whether it also accepts an absent value (`optional`) and null
(`nullable`), and may carry a description, which like a brand is only for readers.

A schema is well-formed when every union in it has an alternative, every key schema of a record is
a text schema, and no object declares a field twice.
-/

namespace Conform

/-- The ten kinds of schema node. -/
inductive Kind where
  | string
  | number
  | bigint
  | boolean
  | literal
  | array
  | tuple
  | object
  | record
  | union
deriving DecidableEq

namespace Kind

/-- The kinds in the order in which a literal may number them. -/
def all : List Kind :=
  [string, number, bigint, boolean, literal, array, tuple, object, record, union]

/-- The name of a kind in literals and messages. -/
def name : Kind → String
  | string => "string"
  | number => "number"
  | bigint => "bigint"
  | boolean => "boolean"
  | literal => "literal"
  | array => "array"
  | tuple => "tuple"
  | object => "object"
  | record => "record"
  | union => "union"

/-- Kinds with schemas inside. -/
def isCompound : Kind → Bool
  | array | tuple | object | record | union => true
  | string | number | bigint | boolean | literal => false

end Kind

/-- A nominal tag, in two parts. -/
structure Brand where
  category : String
  subcategory : String
deriving DecidableEq

/-- Inclusive bounds; a bound that is not set does not bind. -/
structure Bounds (α : Type) where
  min : Option α
  max : Option α
deriving DecidableEq

/-- The one value that a literal node accepts. -/
inductive Constant where
  | string (text : String)
  | number (x : Double)

/-- What every node says beside its kind. -/
structure Info where
  optional : Bool
  nullable : Bool
  description : Option String
deriving DecidableEq

/-- Nodes without schemas inside. -/
inductive Leaf where
  | string (length : Bounds UInt64)
  | number (range : Bounds Double)
  | bigint
  | boolean
  | literal (value : Constant)

/-- A schema; fields, positions and alternatives stand in the order of their declaration. -/
inductive Schema where
  | leaf (info : Info) (leaf : Leaf) (brand : Option Brand)
  | array (info : Info) (element : Schema) (length : Bounds UInt64)
  | tuple (info : Info) (positions : List Schema)
  | object (info : Info) (fields : List (String × Schema))
  | record (info : Info) (value : Schema) (key : Option Schema)
  | union (info : Info) (alternatives : List Schema)

/-- Neither absent values nor null, and no description. -/
def Info.plain : Info := ⟨false, false, none⟩

/-- No bounds. -/
def Bounds.unset {α : Type} : Bounds α := ⟨none, none⟩

/-- The kind of a node without schemas inside. -/
def Leaf.kind : Leaf → Kind
  | string _ => .string
  | number _ => .number
  | bigint => .bigint
  | boolean => .boolean
  | literal _ => .literal

namespace Schema

/-- What the node says beside its kind. -/
def info : Schema → Info
  | leaf i .. | array i .. | tuple i .. | object i .. | record i .. | union i .. => i

/-- The kind of the node. -/
def kind : Schema → Kind
  | leaf _ l _ => l.kind
  | array .. => .array
  | tuple .. => .tuple
  | object .. => .object
  | record .. => .record
  | union .. => .union

/-- The brand of the node; only leaves have one. -/
def brand : Schema → Option Brand
  | leaf _ _ b => b
  | _ => none

/-- The declared fields of an object schema. -/
def fields? : Schema → Option (List (String × Schema))
  | object _ fields => some fields
  | _ => none

/-! ## Well-formed schemas -/

/-- What can be wrong with a node whose parts are in order. -/
inductive Defect where
  | emptyUnion
  | keyNotString (kind : Kind)
deriving DecidableEq

/-- What a defect is reported with. -/
def Defect.message : Defect → String
  | emptyUnion => "union schema must have at least one alternative"
  | keyNotString kind => "record key schema must be a string schema, got " ++ kind.name

/-- The defect of this node; the schemas inside are not looked at. -/
def defect? : Schema → Option Defect
  | union _ [] => some .emptyUnion
  | record _ _ (some key) => if key.kind = .string then none else some (.keyNotString key.kind)
  | _ => none

mutual

/-- No node in the schema has a defect, and no object declares a field twice. -/
def WellFormed : Schema → Prop
  | leaf .. => True
  | array _ element _ => WellFormed element
  | tuple _ positions => WellFormedList positions
  | object _ fields => (Entries.keys fields).Nodup ∧ WellFormedFields fields
  | record _ value key =>
    WellFormed value ∧ (match key with | none => True | some key => key.kind = .string)
  | union _ alternatives => alternatives ≠ [] ∧ WellFormedList alternatives

def WellFormedList : List Schema → Prop
  | [] => True
  | schema :: rest => WellFormed schema ∧ WellFormedList rest

def WellFormedFields : List (String × Schema) → Prop
  | [] => True
  | (_, schema) :: rest => WellFormed schema ∧ WellFormedFields rest

end

end Schema

end Conform
