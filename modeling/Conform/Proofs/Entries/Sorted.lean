import Mathlib.Data.List.Nodup
import Mathlib.Data.List.Perm.Subperm
import Conform.Proofs.Entries

/-!
# Sorted and collected entries

Where keys are distinct, an entry is in a list exactly if looking its key up finds it, so lists with
the same look-ups hold the same entries. To find every entry of one list in another that is as long
is then to have the same keys and to look each of them up in both (`rel_get?_of_found`,
`found_of_rel_get?`). `sorted` loses nothing, and it is the only list in ascending order that holds
these entries: `sorted_eq_of_perm` says that the order of its input does not matter. `collect` keeps
such entries as they are.
-/

namespace Conform.Entries

variable {α β : Type} {key : String} {v : α} {entries others : List (String × α)}

/-! ## Look-up and membership -/

/-- With distinct keys, to be an entry is to be found. -/
theorem mem_iff_get? (hkeys : (keys entries).Nodup) :
    (key, v) ∈ entries ↔ get? key entries = some v :=
  ⟨get?_eq_some_of_mem hkeys, mem_of_get?⟩

/-- Nothing is found under a key that is not there. -/
theorem get?_eq_none_iff : get? key entries = none ↔ key ∉ keys entries := by
  rw [← get?_isSome_iff, Bool.not_eq_true, Option.isSome_eq_false_iff, Option.isNone_iff_eq_none]

/-- Entries with the same look-ups differ in their order only. -/
theorem perm_of_get? (hkeys : (keys entries).Nodup) (hkeys' : (keys others).Nodup)
    (h : ∀ key, get? key entries = get? key others) : entries.Perm others := by
  have hnodup := List.Nodup.of_map _ hkeys
  refine (List.perm_ext_iff_of_nodup hnodup (List.Nodup.of_map _ hkeys')).mpr ?_
  rintro ⟨key, v⟩
  rw [mem_iff_get? hkeys, mem_iff_get? hkeys', h]

/-- With distinct keys the order does not matter to a look-up. -/
theorem get?_eq_of_perm (hkeys : (keys entries).Nodup) (h : entries.Perm others) (key : String) :
    get? key entries = get? key others := by
  have hkeys' : (keys others).Nodup := (h.map _).nodup_iff.mp hkeys
  apply Option.ext
  intro v
  rw [← mem_iff_get? hkeys, ← mem_iff_get? hkeys', h.mem_iff]

/-- What stands in front hides what stands behind it. -/
theorem get?_append (key : String) (entries others : List (String × α)) :
    get? key (entries ++ others) = (get? key entries).or (get? key others) := by
  induction entries with
  | nil => rfl
  | cons entry rest ih =>
    by_cases h : entry.1 = key <;> simp [get?, h, ih]

theorem keys_append (entries others : List (String × α)) :
    keys (entries ++ others) = keys entries ++ keys others :=
  List.map_append

theorem keys_map (f : α → β) (entries : List (String × α)) :
    keys (entries.map fun entry => (entry.1, f entry.2)) = keys entries := by
  simp [keys]

theorem get?_map (f : α → β) (key : String) (entries : List (String × α)) :
    get? key (entries.map fun entry => (entry.1, f entry.2)) = (get? key entries).map f := by
  induction entries with
  | nil => rfl
  | cons entry rest ih =>
    by_cases h : entry.1 = key <;> simp [get?, h, ih]

/-- Entries that are written one after the other are those of the list, if a write brings in no
entry but its own. -/
theorem mem_of_mem_foldl {write : String → α → List (String × α) → List (String × α)}
    (hwrite : ∀ (entry : String × α) key v done,
      entry ∈ write key v done → entry = (key, v) ∨ entry ∈ done)
    {entry : String × α} (h : entry ∈ entries.foldl (fun done e => write e.1 e.2 done) []) :
    entry ∈ entries := by
  have hfold : ∀ done : List (String × α),
      entry ∈ entries.foldl (fun done e => write e.1 e.2 done) done →
        entry ∈ done ∨ entry ∈ entries := by
    clear h
    induction entries with
    | nil => exact fun _ h => .inl h
    | cons first rest ih =>
      intro done h
      rcases ih _ h with hdone | hrest
      · rcases hwrite _ _ _ _ hdone with rfl | hdone
        · exact .inr List.mem_cons_self
        · exact .inl hdone
      · exact .inr (List.mem_cons_of_mem _ hrest)
  exact (hfold [] h).resolve_left List.not_mem_nil

/-! ## Entries found among others -/

section

variable {r : α → β → Prop} {xs : List (String × α)} {ys : List (String × β)}

/-- Entries that are found among as many others have the same keys. -/
theorem perm_keys_of_found {p : String × α → β → Prop} (hkeys : (keys xs).Nodup)
    (hlength : xs.length = ys.length) (h : ∀ x ∈ xs, ∃ w, get? x.1 ys = some w ∧ p x w) :
    (keys xs).Perm (keys ys) := by
  have hsubset : keys xs ⊆ keys ys := by
    intro k hk
    obtain ⟨x, hmem, rfl⟩ := List.mem_map.mp hk
    obtain ⟨w, hw, -⟩ := h x hmem
    exact mem_keys_of_mem (mem_of_get? hw)
  refine (List.subperm_of_subset hkeys hsubset).perm_of_length_le ?_
  simp [keys, hlength]

/-- If every entry has a partner among as many others, so has every look-up. -/
theorem rel_get?_of_found (hkeys : (keys xs).Nodup) (hlength : xs.length = ys.length)
    (h : ∀ x ∈ xs, ∃ w, get? x.1 ys = some w ∧ r x.2 w) (key : String) :
    Option.Rel r (get? key xs) (get? key ys) := by
  cases hget : get? key xs with
  | some v =>
    obtain ⟨w, hw, hr⟩ := h _ (mem_of_get? hget)
    rw [hw]
    exact .some hr
  | none =>
    have hnone : get? key ys = none := by
      rwa [get?_eq_none_iff, ← (perm_keys_of_found hkeys hlength h).mem_iff, ← get?_eq_none_iff]
    rw [hnone]
    exact .none

/-- Look-ups that succeed in both or in neither have the same keys. -/
theorem perm_keys_of_rel_get? (hkeys : (keys xs).Nodup) (hkeys' : (keys ys).Nodup)
    (h : ∀ key, Option.Rel r (get? key xs) (get? key ys)) : (keys xs).Perm (keys ys) := by
  refine (List.perm_ext_iff_of_nodup hkeys hkeys').mpr fun key => ?_
  have hrel := h key
  rw [← get?_isSome_iff, ← get?_isSome_iff]
  generalize get? key xs = found, get? key ys = found' at hrel ⊢
  cases hrel <;> rfl

/-- The converse, where the keys are known to be the same. -/
theorem found_of_rel_get? (hkeys : (keys xs).Nodup) (hperm : (keys xs).Perm (keys ys))
    (h : ∀ key, Option.Rel r (get? key xs) (get? key ys)) :
    xs.length = ys.length ∧ ∀ x ∈ xs, ∃ w, get? x.1 ys = some w ∧ r x.2 w := by
  refine ⟨by simpa [keys] using hperm.length_eq, fun x hmem => ?_⟩
  have hrel := h x.1
  rw [get?_eq_some_of_mem hkeys hmem] at hrel
  cases hget : get? x.1 ys with
  | none =>
    rw [hget] at hrel
    cases hrel
  | some w =>
    rw [hget] at hrel
    cases hrel with
    | some hr => exact ⟨w, rfl, hr⟩

end

/-! ## Ascending keys -/

/-- The keys ascend strictly, so each of them is there once. -/
def Ascending (entries : List (String × α)) : Prop :=
  (keys entries).Pairwise (· < ·)

/-- Keys that ascend strictly are distinct. -/
theorem Ascending.nodup (h : Ascending entries) : (keys entries).Nodup := by
  refine List.Pairwise.imp (fun {k k'} hlt => ?_) h
  rintro rfl
  exact String.lt_irrefl k hlt

/-- A list in ascending order is determined by its look-ups. -/
theorem Ascending.eq_of_get? (h : Ascending entries) (h' : Ascending others)
    (hget : ∀ key, get? key entries = get? key others) : entries = others := by
  have hperm := perm_of_get? h.nodup h'.nodup hget
  have hasymm : ∀ a b : String × α, a ∈ entries → b ∈ others → a.1 < b.1 → b.1 < a.1 → a = b :=
    fun _ _ _ _ hab hba => absurd hba (String.lt_asymm hab)
  exact hperm.eq_of_pairwise hasymm (List.pairwise_map.mp h) (List.pairwise_map.mp h')

theorem mem_keys_insert {k : String} :
    k ∈ keys (insert key v entries) ↔ key = k ∨ k ∈ keys entries := by
  rw [← get?_isSome_iff, get?_insert, ← get?_isSome_iff]
  split <;> simp [*]

/-- An insertion keeps the order. -/
theorem ascending_insert (key : String) (v : α) (h : Ascending entries) :
    Ascending (insert key v entries) := by
  fun_induction insert key v entries with
  | case1 => simp [Ascending, keys]
  | case2 w rest => exact h
  | case3 k w rest hne hlt =>
    refine List.pairwise_cons.mpr ⟨fun k' hk' => ?_, h⟩
    rcases List.mem_cons.mp hk' with rfl | hk'
    · exact hlt
    · exact String.lt_trans hlt ((List.pairwise_cons.mp h).1 k' hk')
  | case4 k w rest hne hlt ih =>
    obtain ⟨hk, hrest⟩ := List.pairwise_cons.mp h
    refine List.pairwise_cons.mpr ⟨fun k' hk' => ?_, ih hrest⟩
    rcases mem_keys_insert.mp hk' with rfl | hk'
    · exact Std.lt_of_le_of_ne (String.not_lt.mp hlt) hne
    · exact hk k' hk'

theorem ascending_foldl_insert {done : List (String × α)} (h : Ascending done)
    (entries : List (String × α)) :
    Ascending (entries.foldl (fun done entry => insert entry.1 entry.2 done) done) := by
  induction entries generalizing done with
  | nil => exact h
  | cons entry rest ih => exact ih (ascending_insert _ _ h)

/-- Whatever the order and however often a key is repeated, the result ascends. -/
theorem ascending_sorted (entries : List (String × α)) : Ascending (sorted entries) :=
  ascending_foldl_insert (by simp [Ascending, keys]) entries

/-! ## What sorting keeps -/

/-- An insertion brings in no entry but its own. -/
theorem mem_insert {entry : String × α} (h : entry ∈ insert key v entries) :
    entry = (key, v) ∨ entry ∈ entries := by
  fun_induction insert key v entries with
  | case1 => exact .inl (List.mem_singleton.mp h)
  | case2 w rest => exact (List.mem_cons.mp h).imp_right (List.mem_cons_of_mem _)
  | case3 k w rest hne hlt => exact List.mem_cons.mp h
  | case4 k w rest hne hlt ih =>
    rcases List.mem_cons.mp h with rfl | hmem
    · exact .inr List.mem_cons_self
    · exact (ih hmem).imp_right (List.mem_cons_of_mem _)

/-- Sorting brings in no entries. -/
theorem mem_of_mem_sorted {entry : String × α} (h : entry ∈ sorted entries) : entry ∈ entries :=
  mem_of_mem_foldl (fun _ _ _ _ => mem_insert) h

theorem get?_foldl_insert (hkeys : (keys entries).Nodup) (key : String)
    (done : List (String × α)) :
    get? key (entries.foldl (fun done entry => insert entry.1 entry.2 done) done) =
      (get? key entries).or (get? key done) := by
  induction entries generalizing done with
  | nil => rfl
  | cons entry rest ih =>
    obtain ⟨k, w⟩ := entry
    obtain ⟨hk, hrest⟩ := List.nodup_cons.mp hkeys
    rw [List.foldl_cons, ih hrest, get?_insert]
    by_cases h : k = key
    · subst h
      simp [get?, get?_eq_none_iff.mpr hk]
    · simp [get?, h]

/-- Sorting changes no look-up. -/
theorem get?_sorted (hkeys : (keys entries).Nodup) (key : String) :
    get? key (sorted entries) = get? key entries := by
  rw [sorted, get?_foldl_insert hkeys, get?, Option.or_none]

/-- With distinct keys sorting loses no entry. -/
theorem perm_sorted (hkeys : (keys entries).Nodup) : (sorted entries).Perm entries :=
  perm_of_get? (ascending_sorted entries).nodup hkeys (get?_sorted hkeys)

/-- Entries that differ in their order only are sorted alike. -/
theorem sorted_eq_of_perm (hkeys : (keys entries).Nodup) (h : entries.Perm others) :
    sorted entries = sorted others := by
  have hkeys' : (keys others).Nodup := (h.map _).nodup_iff.mp hkeys
  refine (ascending_sorted entries).eq_of_get? (ascending_sorted others) fun key => ?_
  rw [get?_sorted hkeys, get?_sorted hkeys', get?_eq_of_perm hkeys h]

/-- Entries that ascend are sorted already. -/
theorem sorted_eq_self (h : Ascending entries) : sorted entries = entries :=
  (ascending_sorted entries).eq_of_get? h (get?_sorted h.nodup)

/-! ## Collected entries -/

/-- A new key comes last. -/
theorem put_of_not_mem (h : key ∉ keys entries) :
    put key v entries = entries ++ [(key, v)] := by
  induction entries with
  | nil => rfl
  | cons entry rest ih =>
    obtain ⟨hne, hrest⟩ := not_or.mp (List.mem_cons.not.mp h)
    rw [put, if_neg (Ne.symm hne), ih hrest, List.cons_append]

/-- Writing repeats no key. -/
theorem nodup_keys_put (h : (keys entries).Nodup) : (keys (put key v entries)).Nodup := by
  rw [keys_put]
  split
  · exact h
  · rename_i hnew
    exact h.append (List.nodup_singleton key) (List.disjoint_singleton.mpr hnew)

/-- Writing brings in no entry but its own. -/
theorem mem_put {entry : String × α} (h : entry ∈ put key v entries) :
    entry = (key, v) ∨ entry ∈ entries := by
  fun_induction put key v entries with
  | case1 => exact .inl (List.mem_singleton.mp h)
  | case2 w rest => exact (List.mem_cons.mp h).imp_right (List.mem_cons_of_mem _)
  | case3 k w rest hne ih =>
    rcases List.mem_cons.mp h with rfl | hmem
    · exact .inr List.mem_cons_self
    · exact (ih hmem).imp_right (List.mem_cons_of_mem _)

/-- Collected entries have distinct keys. -/
theorem nodup_keys_collect (entries : List (String × α)) : (keys (collect entries)).Nodup := by
  have hfold : ∀ done : List (String × α), (keys done).Nodup →
      (keys (entries.foldl (fun done entry => put entry.1 entry.2 done) done)).Nodup := by
    induction entries with
    | nil => exact fun _ h => h
    | cons entry rest ih => exact fun done h => ih _ (nodup_keys_put h)
  exact hfold [] (by simp [keys])

theorem mem_of_mem_collect {entry : String × α} (h : entry ∈ collect entries) :
    entry ∈ entries :=
  mem_of_mem_foldl (fun _ _ _ _ => mem_put) h

/-- Entries with distinct keys are collected as they stand. -/
theorem collect_eq_self (hkeys : (keys entries).Nodup) : collect entries = entries := by
  have hfold : ∀ done : List (String × α), (keys (done ++ entries)).Nodup →
      entries.foldl (fun done entry => put entry.1 entry.2 done) done = done ++ entries := by
    clear hkeys
    induction entries with
    | nil => simp
    | cons entry rest ih =>
      intro done h
      have hnew : entry.1 ∉ keys done := by
        intro hmem
        rw [keys_append, List.nodup_append] at h
        exact h.2.2 entry.1 hmem entry.1 List.mem_cons_self rfl
      rw [List.foldl_cons, put_of_not_mem hnew, ih _ (by simpa using h), List.append_assoc]
      rfl
  exact hfold [] hkeys

section

variable {r : α → β → Prop} {xs : List (String × α)} {ys : List (String × β)}

/-- Writing under one key into lists that match keeps them matched. -/
theorem forall₂_put (h : List.Forall₂ (fun x y => y.1 = x.1 ∧ r x.2 y.2) xs ys) (key : String)
    {v : α} {w : β} (hr : r v w) :
    List.Forall₂ (fun x y => y.1 = x.1 ∧ r x.2 y.2) (put key v xs) (put key w ys) := by
  induction h with
  | nil => exact .cons ⟨rfl, hr⟩ .nil
  | @cons x y _ _ hxy hrest ih =>
    obtain ⟨k, v'⟩ := x
    obtain ⟨k, w'⟩ := y
    obtain ⟨rfl, hxy⟩ := hxy
    by_cases hk : k = key
    · rw [put, put, if_pos hk, if_pos hk]
      exact .cons ⟨rfl, hr⟩ hrest
    · rw [put, put, if_neg hk, if_neg hk]
      exact .cons ⟨rfl, hxy⟩ ih

/-- Entries with the same keys and related values are collected with related values. -/
theorem forall₂_collect (h : List.Forall₂ (fun x y => y.1 = x.1 ∧ r x.2 y.2) xs ys) :
    List.Forall₂ (fun x y => y.1 = x.1 ∧ r x.2 y.2) (collect xs) (collect ys) := by
  have hfold : ∀ {done : List (String × α)} {done' : List (String × β)},
      List.Forall₂ (fun x y => y.1 = x.1 ∧ r x.2 y.2) done done' →
        List.Forall₂ (fun x y => y.1 = x.1 ∧ r x.2 y.2)
          (xs.foldl (fun done entry => put entry.1 entry.2 done) done)
          (ys.foldl (fun done entry => put entry.1 entry.2 done) done') := by
    induction h with
    | nil => exact fun hdone => hdone
    | @cons x y _ _ hxy _ ih =>
      intro done done' hdone
      obtain ⟨hkey, hr⟩ := hxy
      rw [List.foldl_cons, List.foldl_cons, hkey]
      exact ih (forall₂_put hdone x.1 hr)
  exact hfold .nil

end

end Conform.Entries
