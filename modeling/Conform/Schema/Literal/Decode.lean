import Conform.Double.Rounding
import Conform.Schema.Literal.Fault

/-!
# Schemas from literals

A literal is an object. Three keys are shared by all kinds (`optional`, `nullable`, `description`)
and looked at first, in the order of the members; then the kind is sought under `type`; then the
keys of that kind are read, again in order, where a repeated key, an unknown key and a value of
the wrong type are faults at the member where they stand. What a kind cannot be without stands
under `of`. A schema inside is read completely, its own checks included, before the next member.

In the object of an object's fields a repeated name is no fault: the field stays where it was
first declared and means what was declared last.
-/

namespace Conform

namespace Literal

/-! ## Keys of all kinds -/

/-- A key that any node may have. -/
inductive Shared where
  | optional
  | nullable
  | description
deriving DecidableEq

/-- How the key is written. -/
def Shared.name : Shared → String
  | optional => "optional"
  | nullable => "nullable"
  | description => "description"

/-- The shared key of this name, if there is one. -/
def Shared.ofName? (key : String) : Option Shared :=
  [optional, nullable, description].find? fun m => m.name = key

/-- What the shared keys have said so far. -/
structure Header where
  optional : Option Bool
  nullable : Option Bool
  description : Option (Option String)

namespace Header

/-- Nothing has been said yet. -/
def empty : Header := ⟨none, none, none⟩

/-- Whether the key has been there. -/
def has (header : Header) : Shared → Bool
  | .optional => header.optional.isSome
  | .nullable => header.nullable.isSome
  | .description => header.description.isSome

/-- A shared key may stand once. -/
def declare (header : Header) (m : Shared) : Except LiteralFault Unit :=
  if header.has m then .error (.duplicateKey m.name) else .ok ()

/-- Takes the value of a shared key, which must be of its type. -/
def assign (header : Header) (m : Shared) (found : Sight) : Except LiteralFault Header :=
  match m, found with
  | .optional, .scalar (.bool b) => .ok { header with optional := some b }
  | .nullable, .scalar (.bool b) => .ok { header with nullable := some b }
  | .description, .scalar .null => .ok { header with description := some none }
  | .description, .scalar (.string text) => .ok { header with description := some (some text) }
  | .description, found => .error (.wrongType found .text)
  | _, found => .error (.wrongType found .flag)

/-- Takes a member if its key is a shared one. -/
def take (header : Header) (member : String × Json) : Except LiteralFault Header :=
  match Shared.ofName? member.1 with
  | some m => do
    header.declare m
    header.assign m member.2.sight
  | none => .ok header

/-- The shared keys of a node, up to the first fault. -/
def ofMembers (members : List (String × Json)) : Except LiteralFault Header :=
  members.foldlM take empty

/-- What the shared keys say, and the default for those that are not there. -/
def info (header : Header) : Info where
  optional := header.optional.getD false
  nullable := header.nullable.getD false
  description := header.description.getD none

end Header

/-! ## The kind -/

/-- The key of the kind. -/
def tagKey : String := "type"

/-- A kind is named, or given by its place among the kinds. -/
def kindOfTag : Sight → Except LiteralFault Kind
  | .scalar (.string name) =>
    match Kind.all.find? fun kind => kind.name = name with
    | some kind => .ok kind
    | none => .error (.unknownKind name)
  | .scalar (.integer n) =>
    if n.value < 0 then .error (.wrongType (.scalar (.integer n)) .tag)
    else
      match Kind.all[n.value.toNat]? with
      | some kind => .ok kind
      | none => .error (.tagOutOfRange n.value)
  | found => .error (.wrongType found .tag)

/-- The kind under the tag, which has to be there once. -/
def findKind : List (String × Json) → Option Kind → Except LiteralFault Kind
  | [], some kind => .ok kind
  | [], none => .error (.missingKey tagKey)
  | (key, value) :: rest, found =>
    if key = tagKey then
      match found with
      | some _ => .error (.duplicateKey tagKey)
      | none => do findKind rest (some (← kindOfTag value.sight))
    else findKind rest found

/-! ## Keys of one kind -/

/-- A key that only nodes of some kinds have. -/
inductive Slot where
  | contents
  | minLength
  | maxLength
  | min
  | max
  | brand
  | key
deriving DecidableEq

/-- How the key is written. -/
def Slot.name : Slot → String
  | contents => "of"
  | minLength => "minLength"
  | maxLength => "maxLength"
  | min => "min"
  | max => "max"
  | brand => "brand"
  | key => "key"

/-- The keys of a kind, in the order in which they are written. -/
def slots : Kind → List Slot
  | .string => [.minLength, .maxLength, .brand]
  | .number => [.min, .max, .brand]
  | .bigint | .boolean => [.brand]
  | .literal => [.contents, .brand]
  | .array => [.contents, .minLength, .maxLength]
  | .tuple | .object | .union => [.contents]
  | .record => [.contents, .key]

/-- The key of this name, if nodes of the kind have it. -/
def slot? (kind : Kind) (key : String) : Option Slot :=
  (slots kind).find? fun slot => slot.name = key

/-- Null leaves a key of a kind unset. -/
def isNull : Json → Bool
  | .scalar .null => true
  | _ => false

/-- Values that hold no schema. -/
def length? : Json → Except LiteralFault (Option UInt64)
  | .scalar .null => .ok none
  | .scalar (.integer n) =>
    if n.value < 0 then .error (.negativeLength n.value)
    else .ok (some (UInt64.ofNat n.value.toNat))
  | value => .error (.wrongType value.sight .length)

/-- An integer counts as the double nearest to it. -/
def number? : Json → Except LiteralFault (Option Double)
  | .scalar .null => .ok none
  | .scalar (.integer n) => .ok (some (.ofInt n.value))
  | .scalar (.float x _) => .ok (some x)
  | value => .error (.wrongType value.sight .number)

/-- Both parts of a brand are texts. -/
def brandPart (value : Json) : Except LiteralFault String :=
  match value with
  | .scalar (.string text) => .ok text
  | _ => .error (.wrongType value.sight .text)

/-- A brand has two parts, which are looked at before they are counted. -/
def brandOfItems : List Json → Except LiteralFault Brand
  | [] => .error (.brandTooShort 0)
  | [category] => do
    let _ ← brandPart category
    .error (.brandTooShort 1)
  | category :: subcategory :: more => do
    let brand : Brand := ⟨← brandPart category, ← brandPart subcategory⟩
    if more.isEmpty then .ok brand else .error (.brandTooLong (more.length + 2))

/-- A brand is an array. -/
def brand? : Json → Except LiteralFault (Option Brand)
  | .scalar .null => .ok none
  | .array items => do return some (← brandOfItems items)
  | value => .error (.wrongType value.sight .brand)

/-- A constant is a text or a number. -/
def constant : Json → Except LiteralFault Constant
  | .scalar (.string text) => .ok (.string text)
  | .scalar (.integer n) => .ok (.number (.ofInt n.value))
  | .scalar (.float x _) => .ok (.number x)
  | _ => .error .notConstant

/-- What stands under `of`. -/
inductive Contents where
  | constant (value : Constant)
  | one (schema : Schema)
  | many (schemas : List Schema)
  | named (fields : List (String × Schema))

/-- What is read under `of`. -/
inductive Form where
  | constant
  | node
  | nodes
  | fields

/-- What nodes of a kind have under `of`. -/
def form : Kind → Form
  | .tuple | .union => .nodes
  | .object => .fields
  | .array | .record => .node
  | .literal | .string | .number | .bigint | .boolean => .constant

/-- What the keys of the kind have said so far. -/
structure Body where
  seen : List Slot
  contents : Option Contents
  length : Bounds UInt64
  range : Bounds Double
  brand : Option Brand
  key : Option Schema

namespace Body

/-- No key has been read yet. -/
def empty : Body :=
  ⟨[], none, .unset, .unset, none, none⟩

/-- The slot of a key, which must be one of the kind and may stand once. -/
def slot (done : Body) (kind : Kind) (key : String) : Except LiteralFault Slot :=
  match slot? kind key with
  | none => .error (.unknownKey key ((slots kind).map Slot.name))
  | some slot => if slot ∈ done.seen then .error (.duplicateKey key) else .ok slot

/-- Reads a value that holds no schema. -/
def read (done : Body) (slot : Slot) (value : Json) : Except LiteralFault Body :=
  match slot with
  | .minLength => do return { done with length := ⟨← length? value, done.length.max⟩ }
  | .maxLength => do return { done with length := ⟨done.length.min, ← length? value⟩ }
  | .min => do return { done with range := ⟨← number? value, done.range.max⟩ }
  | .max => do return { done with range := ⟨done.range.min, ← number? value⟩ }
  | .brand => do return { done with brand := ← brand? value }
  | .contents | .key => return done

/-- Takes what stands under `of`. -/
def hold (done : Body) (contents : Contents) : Body :=
  { done with contents := some contents }

/-- Takes the schema of keys. -/
def setKey (done : Body) (key : Schema) : Body :=
  { done with key := some key }

/-- Marks a key as read. -/
def see (done : Body) (slot : Slot) : Body :=
  { done with seen := slot :: done.seen }

end Body

/-- The node of its kind; a kind that needs something under `of` must have it. -/
def assemble (info : Info) (kind : Kind) (body : Body) : Except LiteralFault Schema :=
  match kind, body.contents with
  | .string, _ => .ok (.leaf info (.string body.length) body.brand)
  | .number, _ => .ok (.leaf info (.number body.range) body.brand)
  | .bigint, _ => .ok (.leaf info .bigint body.brand)
  | .boolean, _ => .ok (.leaf info .boolean body.brand)
  | .literal, some (.constant value) => .ok (.leaf info (.literal value) body.brand)
  | .array, some (.one element) => .ok (.array info element body.length)
  | .tuple, some (.many positions) => .ok (.tuple info positions)
  | .object, some (.named fields) => .ok (.object info fields)
  | .record, some (.one value) => .ok (.record info value body.key)
  | .union, some (.many alternatives) => .ok (.union info alternatives)
  | _, _ => .error (.missingKey Slot.contents.name)

/-- The node, unless it has a defect of its own. -/
def complete (info : Info) (kind : Kind) (body : Body) : Except LiteralFault Schema := do
  let schema ← assemble info kind body
  match schema.defect? with
  | some defect => .error (.defect defect)
  | none => .ok schema

/-! ## Nodes -/

/-- Keys that are not looked for among those of the kind. -/
def isCommon (key : String) : Bool :=
  key = tagKey || (Shared.ofName? key).isSome

mutual

/-- The schema of a literal, or its first fault. -/
def node : Json → Except LiteralFault Schema
  | .object members => do
    let header ← Header.ofMembers members
    let kind ← findKind members none
    let body ← body kind members .empty
    complete header.info kind body
  | value => .error (.wrongType value.sight .node)

/-- The keys of the kind, in the order of the members. -/
def body (kind : Kind) : List (String × Json) → Body → Except LiteralFault Body
  | [], done => .ok done
  | (key, value) :: rest, done =>
    if isCommon key then body kind rest done
    else do
      let slot ← done.slot kind key
      let done ← match slot, form kind with
        | .contents, .constant => (constant value).map (done.hold <| .constant ·)
        | .contents, .node => (node value).map (done.hold <| .one ·)
        | .contents, .nodes => (nodesOf value).map (done.hold <| .many ·)
        | .contents, .fields => (fieldsOf value).map (done.hold <| .named <| Entries.collect ·)
        | .key, _ => if isNull value then .ok done else (node value).map done.setKey
        | slot, _ => done.read slot value
      body kind rest (done.see slot)

/-- Schemas stand in an array. -/
def nodesOf : Json → Except LiteralFault (List Schema)
  | .array items => nodes items
  | value => .error (.wrongType value.sight .nodes)

/-- Schemas are read one by one. -/
def nodes : List Json → Except LiteralFault (List Schema)
  | [] => .ok []
  | value :: rest => do
    let schema ← node value
    return schema :: (← nodes rest)

/-- Fields stand in an object. -/
def fieldsOf : Json → Except LiteralFault (List (String × Schema))
  | .object members => fields members
  | value => .error (.wrongType value.sight .fields)

/-- The fields in the order of the members; a repeated name is still there. -/
def fields : List (String × Json) → Except LiteralFault (List (String × Schema))
  | [] => .ok []
  | (name, value) :: rest => do
    let schema ← node value
    return (name, schema) :: (← fields rest)

end

end Literal

/-- The schema that a literal describes. -/
def Schema.ofJson (literal : Json) : Except LiteralFault Schema :=
  Literal.node literal

end Conform
