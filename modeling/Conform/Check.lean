import Conform.Check.Event

/-!
# Checking values

`validate` hands back the accepted value itself, `parse` a value put together anew, and `guard`
says whether a value is accepted. A refused value comes with all rejections, in the order of the
traversal; their paths begin with the path that was given for the value.
-/

namespace Conform.Schema

/-- The visit as a call that tells its misses and, at the end, a refusal. -/
def concluded {α : Type} (activity : Activity) (schema : Schema) (visited : Visit α) :
    Logged (Except (List Rejection) α) where
  events :=
    visited.misses.map .missed ++
      match visited.outcome with
      | .ok _ => []
      | .error es => [.refused activity schema.kind es.length]
  result := visited.outcome

/-- Checks a value that stands at the path, and hands back the value itself if it is accepted. -/
def validateAt (schema : Schema) (subject : Value) (path : Path) :
    Logged (Except (List Rejection) Value) :=
  concluded .validation schema (schema.visit .share subject path)

/-- Checks a value that stands at the path, and puts it together anew if it is accepted. -/
def parseAt (schema : Schema) (subject : Value) (path : Path) :
    Logged (Except (List Rejection) Value) :=
  concluded .parsing schema (schema.visit .rebuild subject path)

/-- The accepted value, or all rejections; their paths begin at the value. -/
def validate (schema : Schema) (subject : Value) : Except (List Rejection) Value :=
  (schema.validateAt subject []).result

/-- The accepted value as it is put together anew, or all rejections. -/
def parse (schema : Schema) (subject : Value) : Except (List Rejection) Value :=
  (schema.parseAt subject []).result

/-- Whether the value is accepted. -/
def guard (schema : Schema) (subject : Value) : Bool :=
  (schema.validate subject).isOk

end Conform.Schema
