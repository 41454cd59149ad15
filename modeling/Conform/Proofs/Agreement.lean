import Conform.Check
import Conform.Proofs.Visit.Made

/-!
# Validation and parsing agree

`validate` and `parse` are one visit under two policies, so they can only differ in what they make
of an accepted value. `validateAt_agrees_parseAt` says so for results and miss events at any path,
and that validation hands back the value it was given, whichever alternatives of unions accepted it.
-/

namespace Conform

/-- The event of a union alternative that did not match. -/
def Event.isMiss : Event → Bool
  | missed _ => true
  | refused .. | registered .. => false

/-- The events that tell of alternatives that did not match. -/
def Logged.missEvents {α : Type} (x : Logged α) : List Event :=
  x.events.filter Event.isMiss

namespace Schema

variable {α : Type}

/-- A visit that shares makes the value itself. -/
theorem eq_of_make_share {schema : Schema} {v a : Value} (h : make .share schema v = some a) :
    a = v := by
  apply make_induction (motive := fun _ v a => a = v) (h := h)
  case union =>
    intro info before alternative after v a hbefore ha ih
    exact ih
  all_goals
    intros
    rfl

/-- The miss events of an activity are the misses of the visit it concludes. -/
theorem missEvents_concluded (activity : Activity) (schema : Schema) (x : Visit α) :
    (concluded activity schema x).missEvents = x.misses.map .missed := by
  have hmisses : (x.misses.map Event.missed).filter Event.isMiss = x.misses.map Event.missed := by
    simp [List.filter_eq_self, Event.isMiss]
  obtain ⟨misses, outcome⟩ := x
  cases outcome <;> simp_all [concluded, Logged.missEvents, Event.isMiss]

/-- Validation ends as parsing does, with the same rejections or with the value itself in place of
the parsed one, and the unions in between miss the same alternatives. -/
theorem validateAt_agrees_parseAt (schema : Schema) (v : Value) (q : Path) :
    (validateAt schema v q).result = (parseAt schema v q).result.map (fun _ => v) ∧
      (validateAt schema v q).missEvents = (parseAt schema v q).missEvents := by
  have hshare : ∀ a, (visit .share schema v q).outcome = .ok a → a = v := by
    intro a ha
    rw [← Visit.made_eq_some, made_visit] at ha
    exact eq_of_make_share ha
  have halike := visit_alike_any .share .rebuild schema v q
  rw [validateAt, parseAt, missEvents_concluded, missEvents_concluded]
  generalize visit .share schema v q = x at hshare halike ⊢
  generalize visit .rebuild schema v q = y at halike ⊢
  cases halike with
  | accepted misses h =>
    obtain rfl := hshare _ rfl
    exact ⟨rfl, by simp⟩
  | rejected misses es => exact ⟨by simp [concluded, Except.map], by simp⟩

end Schema

end Conform
