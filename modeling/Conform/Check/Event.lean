import Conform.Check.Traversal

/-!
# Events

What a call has to tell beside its result: alternatives that did not match, refused values, and
schemas that were registered. Each event has a level, a message and named fields.
-/

namespace Conform

/-- How detailed a log must be to hold an event. -/
inductive Level where
  | trace
  | debug

/-- The name of the level in a log. -/
def Level.name : Level → String
  | trace => "TRACE"
  | debug => "DEBUG"

/-- What a value was refused for. -/
inductive Activity where
  | validation
  | parsing

/-- How a refusal names what was going on. -/
def Activity.name : Activity → String
  | validation => "validation"
  | parsing => "parsing"

/-- Something that a call tells beside its result. -/
inductive Event where
  | missed (miss : Miss)
  | refused (activity : Activity) (kind : Kind) (errors : Nat)
  | registered (name : String) (kind : Kind)

namespace Event

/-- A miss is told in the most detailed log only. -/
def level : Event → Level
  | missed _ => .trace
  | refused .. | registered .. => .debug

/-- The message of an event, the same for all events of its kind but for the activity. -/
def message : Event → String
  | missed _ => "union alternative did not match"
  | refused activity _ _ => "subject failed " ++ activity.name
  | registered .. => "registered schema"

/-- The named fields of an event, in the order in which they are told. -/
def fields : Event → List (String × String)
  | missed miss =>
    [("path", miss.path.pointer), ("alternative", BigInt.decimal miss.alternative),
      ("errors", BigInt.decimal miss.errors)]
  | refused _ kind errors => [("schema", kind.name), ("errors", BigInt.decimal errors)]
  | registered name kind => [("name", name), ("kind", kind.name)]

end Event

/-- A result with the events that led to it. -/
structure Logged (α : Type) where
  events : List Event
  result : α

end Conform
