import Conform.Check
import Conform.Schema.Literal.Text

/-!
# Schemas by name

A registry keeps schemas under names, in no order that could be relied on; a name that is registered
again gets the new schema, and a literal that describes none leaves the registry as it was. The
names are sorted when they are asked for. Payloads are JSON texts in bytes. Under a name without a
schema everything is accepted as it is, unless the registry is strict. A refused value is reported
with how many rejections it had and the messages of the first of them.
-/

namespace Conform

/-- What a registry is opened with. -/
structure Registry.Config where
  /-- whether a name without a schema is an error -/
  strict : Bool
  /-- how many rejections a report shows; one is always shown -/
  maxReported : Nat
deriving DecidableEq

/-- Schemas under names. -/
structure Registry where
  config : Registry.Config
  /-- one schema for each name -/
  schemas : List (String × Schema)

/-- Why a request fails. -/
inductive RegistryError where
  | compileFailed (name : String) (fault : LiteralFault)
  | validationFailed (name : String) (count : Nat) (message : String)
  | invalidJson (fault : Json.Fault)
  | noSchema (name : String)

/-- What a failure is reported with. -/
def RegistryError.message : RegistryError → String
  | compileFailed name fault => "failed to compile schema: " ++ name ++ ": " ++ fault.message
  | validationFailed name count message =>
    "validation failed against schema " ++ name ++ " (" ++ BigInt.decimal count ++ " errors): " ++
      message
  | invalidJson fault => "payload is not valid JSON: " ++ fault.message
  | noSchema name => "no schema registered as " ++ Text.quoted name

namespace Registry

/-- Permissive, with the first four rejections in a report. -/
def Config.default : Config := ⟨false, 4⟩

/-! ## Schemas -/

/-- A registry without schemas. -/
def ofConfig (config : Config) : Registry :=
  ⟨config, []⟩

/-- A registry without schemas that is opened with the default. -/
def empty : Registry :=
  ofConfig .default

/-- Puts a schema under a name, in place of the one that was there. -/
def registerSchema (registry : Registry) (name : String) (schema : Schema) : Logged Registry where
  events := [.registered name schema.kind]
  result := { registry with schemas := Entries.put name schema registry.schemas }

/-- How the registration of a literal ends, and the registry after it. -/
structure Registration where
  events : List Event
  outcome : Except RegistryError Unit
  registry : Registry

/-- The registry to go on with, if the registration has not failed. -/
def Registration.result (registration : Registration) : Except RegistryError Registry :=
  registration.outcome.map fun _ => registration.registry

/-- Registers the schema that a literal describes. -/
def register (registry : Registry) (name literal : String) : Registration :=
  match Schema.ofText literal with
  | .error fault => ⟨[], .error (.compileFailed name fault), registry⟩
  | .ok schema =>
    let registered := registry.registerSchema name schema
    ⟨registered.events, .ok (), registered.result⟩

/-- A registry of named literals; the first that describes no schema is the error. -/
def ofLiterals (literals : List (String × String)) : Except RegistryError Registry :=
  literals.foldlM (fun registry entry => (registry.register entry.1 entry.2).result) empty

/-- The schema under a name. -/
def get? (registry : Registry) (name : String) : Option Schema :=
  Entries.get? name registry.schemas

/-- Whether there is a schema under the name. -/
def has (registry : Registry) (name : String) : Bool :=
  Entries.has name registry.schemas

/-- The names that have schemas, sorted. -/
def names (registry : Registry) : List String :=
  (Entries.keys registry.schemas).mergeSort fun s t => decide (s ≤ t)

/-! ## Values and payloads -/

/-- The schema under a name; having none is an error only in a strict registry. -/
def lookup (registry : Registry) (name : String) : Except RegistryError (Option Schema) :=
  match registry.get? name with
  | some schema => .ok (some schema)
  | none => if registry.config.strict then .error (.noSchema name) else .ok none

/-- The value that a payload stands for. -/
def decode (payload : ByteArray) : Except RegistryError Value :=
  ((Json.ofBytes payload).map Value.ofJson).mapError .invalidJson

/-- The messages that a report shows. -/
def summary (config : Config) (rejections : List Rejection) : String :=
  String.intercalate "; " ((rejections.take (max 1 config.maxReported)).map Rejection.message)

/-- The error for a value that was refused with these rejections. -/
def failure (registry : Registry) (name : String) (rejections : List Rejection) : RegistryError :=
  .validationFailed name rejections.length (summary registry.config rejections)

/-- A checked value; rejections become the failure of the name. -/
def concluded {α : Type} (registry : Registry) (name : String)
    (checked : Logged (Except (List Rejection) α)) : Logged (Except RegistryError α) :=
  ⟨checked.events, checked.result.mapError (registry.failure name)⟩

/-- A name without a schema accepts every value, unless the registry is strict. -/
def validateValue (registry : Registry) (name : String) (subject : Value) :
    Logged (Except RegistryError Unit) :=
  match registry.lookup name with
  | .error e => ⟨[], .error e⟩
  | .ok none => ⟨[], .ok ()⟩
  | .ok (some schema) =>
    let checked := registry.concluded name (schema.validateAt subject [])
    ⟨checked.events, checked.result.map fun _ => ()⟩

/-- The name is looked up first; without a schema the payload is not decoded. -/
def validate (registry : Registry) (name : String) (payload : ByteArray) :
    Logged (Except RegistryError Unit) :=
  match registry.lookup name with
  | .error e => ⟨[], .error e⟩
  | .ok none => ⟨[], .ok ()⟩
  | .ok (some _) =>
    match decode payload with
    | .error e => ⟨[], .error e⟩
    | .ok subject => registry.validateValue name subject

/-- The payload is decoded first; without a schema it is handed back as JSON. -/
def parse (registry : Registry) (name : String) (payload : ByteArray) :
    Logged (Except RegistryError Json) :=
  match decode payload with
  | .error e => ⟨[], .error e⟩
  | .ok subject =>
    match registry.lookup name with
    | .error e => ⟨[], .error e⟩
    | .ok none => ⟨[], .ok subject.toJson⟩
    | .ok (some schema) =>
      let checked := registry.concluded name (schema.parseAt subject [])
      ⟨checked.events, checked.result.map Value.toJson⟩

end Registry

end Conform
