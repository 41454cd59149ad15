import Mathlib.Data.List.Forall2
import Mathlib.Tactic.Tauto
import Conform.Entries

/-!
# Look-up by key

Looking a key up finds an entry of the list, and where the keys are distinct it finds the only entry
with that key.
-/

namespace Conform.Entries

variable {α : Type} {key : String} {v : α} {entries : List (String × α)}

theorem mem_of_get? (h : get? key entries = some v) : (key, v) ∈ entries := by
  induction entries with
  | nil => simp [get?] at h
  | cons entry rest ih =>
    obtain ⟨k, w⟩ := entry
    by_cases hk : k = key
    · subst hk
      simp only [get?, if_true, Option.some.injEq] at h
      subst h
      exact List.mem_cons_self
    · simp only [get?, hk, if_false] at h
      exact List.mem_cons_of_mem _ (ih h)

/-- A key is found exactly if it is there. -/
theorem get?_isSome_iff : (get? key entries).isSome = true ↔ key ∈ keys entries := by
  induction entries with
  | nil => simp [get?, keys]
  | cons entry rest ih =>
    obtain ⟨k, w⟩ := entry
    by_cases hk : k = key
    · simp [get?, keys, hk]
    · simp only [get?, hk, if_false, ih]
      simp [keys, Ne.symm hk]

theorem has_iff : has key entries = true ↔ key ∈ keys entries :=
  get?_isSome_iff

theorem mem_keys_of_mem (h : (key, v) ∈ entries) : key ∈ keys entries :=
  List.mem_map.mpr ⟨(key, v), h, rfl⟩

/-- Where keys are distinct, looking up finds every entry. -/
theorem get?_eq_some_of_mem (hkeys : (keys entries).Nodup) (h : (key, v) ∈ entries) :
    get? key entries = some v := by
  induction entries with
  | nil => simp at h
  | cons entry rest ih =>
    obtain ⟨k, w⟩ := entry
    obtain ⟨hk, hrest⟩ := List.nodup_cons.mp hkeys
    rcases List.mem_cons.mp h with heq | hmem
    · cases heq
      simp [get?]
    · have hne : k ≠ key := by
        rintro rfl
        exact hk (mem_keys_of_mem hmem)
      simp only [get?, hne, if_false]
      exact ih hrest hmem

/-- Entries are matched one by one if the keys are the same and what stands under them is. -/
theorem forall₂_iff {β : Type} {r : α → β → Prop} {xs : List (String × α)}
    {ys : List (String × β)} :
    List.Forall₂ (fun x y => y.1 = x.1 ∧ r x.2 y.2) xs ys ↔
      keys ys = keys xs ∧ ∀ pair ∈ xs.zip ys, r pair.1.2 pair.2.2 := by
  induction xs generalizing ys with
  | nil => cases ys <;> simp [keys]
  | cons x rest ih =>
    cases ys with
    | nil => simp [keys]
    | cons y ys =>
      rw [List.forall₂_cons, ih]
      simp [keys]
      tauto

end Conform.Entries
