import Mathlib.Data.List.Forall2
import Mathlib.Data.List.Induction
import Mathlib.Data.List.Nodup
import Mathlib.Data.List.Perm.Basic

/-!
# Related lists

Lists whose members are related one by one: what a member is related to, where such a list exists,
and what zips and filters keep. `Matched` is the same with an order that may not count. Lists with
their members numbered are ordered by the numbers, and no two members share one.
-/

namespace Conform

variable {α β γ δ : Type}

/-- A relation between matched members may be strengthened by what follows from it. -/
theorem forall₂_and_of_forall₂ {r s : β → γ → Prop} {xs : List β} {ys : List γ}
    (h : List.Forall₂ r xs ys) (hs : ∀ x ∈ xs, ∀ y, r x y → s x y) :
    List.Forall₂ (fun x y => r x y ∧ s x y) xs ys := by
  induction h with
  | nil => exact .nil
  | cons hr _ ih =>
    refine .cons ⟨hr, hs _ List.mem_cons_self _ hr⟩ (ih fun x hx => ?_)
    exact hs x (List.mem_cons_of_mem _ hx)

/-- Only members of the lists have to be considered. -/
theorem forall₂_imp_mem {r s : α → β → Prop} {xs : List α} {ys : List β} (h : List.Forall₂ r xs ys)
    (hs : ∀ x ∈ xs, ∀ y ∈ ys, r x y → s x y) : List.Forall₂ s xs ys := by
  obtain ⟨hlength, hpairs⟩ := List.forall₂_iff_zip.mp h
  refine List.forall₂_iff_zip.mpr ⟨hlength, fun {x y} hpair => ?_⟩
  obtain ⟨hx, hy⟩ := List.of_mem_zip hpair
  exact hs x hx y hy (hpairs hpair)

/-- Every member of the first list has its partner in the second. -/
theorem exists_of_mem_forall₂ {r : β → γ → Prop} {xs : List β} {ys : List γ} {x : β}
    (h : List.Forall₂ r xs ys) (hx : x ∈ xs) : ∃ y ∈ ys, r x y := by
  induction h with
  | nil => simp at hx
  | @cons x' y xs ys hr _ ih =>
    rcases List.mem_cons.mp hx with rfl | hx
    · exact ⟨y, List.mem_cons_self, hr⟩
    · obtain ⟨y', hy', hr'⟩ := ih hx
      exact ⟨y', List.mem_cons_of_mem _ hy', hr'⟩

theorem forall₂_left_of_zip {r : β × γ → δ → Prop} {xs : List β} {ys : List γ} {zs : List δ}
    (hlength : ys.length = xs.length) (h : List.Forall₂ r (xs.zip ys) zs) :
    List.Forall₂ (fun x z => ∃ y ∈ ys, r (x, y) z) xs zs := by
  have hxs : (xs.zip ys).map Prod.fst = xs := List.map_fst_zip (Nat.le_of_eq hlength.symm)
  rw [← hxs, List.forall₂_map_left_iff]
  refine (forall₂_and_of_forall₂ h fun pair hpair z hr => ?_).imp fun _ _ h => h.2
  exact ⟨pair.2, (List.of_mem_zip hpair).2, hr⟩

theorem forall₂_right_of_zip {r : β × γ → δ → Prop} {xs : List β} {ys : List γ} {zs : List δ}
    (hlength : ys.length = xs.length) (h : List.Forall₂ r (xs.zip ys) zs) :
    List.Forall₂ (fun y z => ∃ x ∈ xs, r (x, y) z) ys zs := by
  have hys : (xs.zip ys).map Prod.snd = ys := List.map_snd_zip (Nat.le_of_eq hlength)
  rw [← hys, List.forall₂_map_left_iff]
  refine (forall₂_and_of_forall₂ h fun pair hpair z hr => ?_).imp fun _ _ h => h.2
  exact ⟨pair.1, (List.of_mem_zip hpair).1, hr⟩

/-- Two filters of one list that keep the same members keep related ones. -/
theorem forall₂_filterMap {r : β → γ → Prop} {f : α → Option β} {g : α → Option γ} {xs : List α}
    (h : ∀ x ∈ xs, Option.Rel r (f x) (g x)) :
    List.Forall₂ r (xs.filterMap f) (xs.filterMap g) := by
  have hsame : List.Forall₂ (fun x y => Option.Rel r (f x) (g y)) xs xs := List.forall₂_same.mpr h
  exact List.rel_filterMap (fun _ _ hxy => hxy) hsame

/-- Members that each have a partner make a whole list of partners. -/
theorem exists_forall₂_iff {r : β → γ → Prop} {xs : List β} :
    (∃ ys, List.Forall₂ r xs ys) ↔ ∀ x ∈ xs, ∃ y, r x y := by
  induction xs with
  | nil => simp
  | cons x rest ih =>
    simp only [List.forall_mem_cons, ← ih, List.forall₂_cons_left_iff]
    constructor
    · rintro ⟨-, y, ys, hy, hys, rfl⟩
      exact ⟨⟨y, hy⟩, ys, hys⟩
    · rintro ⟨⟨y, hy⟩, ys, hys⟩
      exact ⟨y :: ys, y, ys, hy, hys, rfl⟩

/-- Matches are chained. -/
theorem forall₂_trans {r : α → β → Prop} {s : β → γ → Prop} {t : α → γ → Prop} {xs : List α}
    {ys : List β} {zs : List γ} (h : List.Forall₂ r xs ys) (h' : List.Forall₂ s ys zs)
    (ht : ∀ x y z, r x y → s y z → t x z) : List.Forall₂ t xs zs := by
  induction h generalizing zs with
  | nil =>
    cases h'
    exact .nil
  | cons hr _ ih =>
    cases h' with
    | cons hs hrest => exact .cons (ht _ _ _ hr hs) (ih hrest)

theorem mem_middle {x y : α} {before after : List α} :
    y ∈ before ++ x :: after ↔ y = x ∨ y ∈ before ++ after :=
  List.perm_middle.mem_iff.trans List.mem_cons

/-- Either no two members have the same image, or there is a first one that repeats an image. -/
theorem nodup_or_first_repeat [DecidableEq β] (f : α → β) (xs : List α) :
    (xs.map f).Nodup ∨ ∃ before x after,
      xs = before ++ x :: after ∧ (before.map f).Nodup ∧ f x ∈ before.map f := by
  induction xs using List.reverseRecOn with
  | nil => exact .inl List.nodup_nil
  | append_singleton xs x ih =>
    rcases ih with hdistinct | ⟨before, y, after, rfl, hdistinct, hagain⟩
    · by_cases hx : f x ∈ xs.map f
      · exact .inr ⟨xs, x, [], rfl, hdistinct, hx⟩
      · left
        rw [List.map_append]
        exact hdistinct.append (List.nodup_singleton (f x)) (List.disjoint_singleton.mpr hx)
    · right
      refine ⟨before, y, after ++ [x], ?_, hdistinct, hagain⟩
      rw [List.append_assoc, List.cons_append]

/-- Lists that are the same but for one member. -/
theorem forall₂_replace {r : α → α → Prop} (hrefl : ∀ x, r x x) {x x' : α} (h : r x x')
    (before after : List α) : List.Forall₂ r (before ++ x :: after) (before ++ x' :: after) :=
  List.rel_append (List.forall₂_same.mpr fun y _ => hrefl y)
    (.cons h (List.forall₂_same.mpr fun y _ => hrefl y))

/-- Matched lists are zipped to matched lists. -/
theorem forall₂_zip_zip {r : α → β → Prop} {s : γ → δ → Prop} {xs : List α} {ys : List β}
    {zs : List γ} {ws : List δ} (h : List.Forall₂ r xs ys) (h' : List.Forall₂ s zs ws) :
    List.Forall₂ (fun p q => r p.1 q.1 ∧ s p.2 q.2) (xs.zip zs) (ys.zip ws) := by
  induction h generalizing zs ws with
  | nil => exact .nil
  | cons hr _ ih =>
    cases h' with
    | nil => exact .nil
    | cons hs hrest => exact .cons ⟨hr, hs⟩ (ih hrest)

/-- One member of a list may be replaced by another that stands in the same relation. -/
theorem forall₂_zip_replace {r : α × β → γ → Prop} {x x' : α}
    (h : ∀ y z, r (x, y) z ↔ r (x', y) z) (before after : List α) (ys : List β) (zs : List γ) :
    List.Forall₂ r ((before ++ x :: after).zip ys) zs ↔
      List.Forall₂ r ((before ++ x' :: after).zip ys) zs := by
  induction before generalizing ys zs with
  | nil => cases ys <;> cases zs <;> simp [h]
  | cons w before ih => cases ys <;> cases zs <;> simp [ih]

theorem forall₂_zipIdx {r : α → β → Prop} {xs : List α} {ys : List β} (h : List.Forall₂ r xs ys)
    (i : Nat) :
    List.Forall₂ (fun p q => p.2 = q.2 ∧ r p.1 q.1) (xs.zipIdx i) (ys.zipIdx i) := by
  induction h generalizing i with
  | nil => exact .nil
  | cons hr _ ih => exact .cons ⟨rfl, hr⟩ (ih (i + 1))

/-- What two functions make of related members is related. -/
theorem forall₂_results {r : γ → δ → Prop} {f : α → Option γ} {g : β → Option δ} {xs : List α}
    {ys : List β} {zs : List γ} {ws : List δ}
    (h : List.Forall₂ (fun x y => Option.Rel r (f x) (g y)) xs ys)
    (hf : List.Forall₂ (fun x z => f x = some z) xs zs)
    (hg : List.Forall₂ (fun y w => g y = some w) ys ws) : List.Forall₂ r zs ws := by
  induction h generalizing zs ws with
  | nil =>
    cases hf
    cases hg
    exact .nil
  | cons hr _ ih =>
    cases hf with
    | cons hz hf =>
      cases hg with
      | cons hw hg =>
        rw [hz, hw] at hr
        cases hr with
        | some hzw => exact .cons hzw (ih hf hg)

/-- The first hits in two lists of related members are related. -/
theorem findSome?_rel {r : γ → δ → Prop} {f : α → Option γ} {g : β → Option δ} {xs : List α}
    {ys : List β} (h : List.Forall₂ (fun x y => Option.Rel r (f x) (g y)) xs ys) :
    Option.Rel r (xs.findSome? f) (ys.findSome? g) := by
  induction h with
  | nil => exact .none
  | @cons x y _ _ hr _ ih =>
    rw [List.findSome?_cons, List.findSome?_cons]
    generalize f x = found at hr
    generalize g y = found' at hr
    cases hr with
    | none => exact ih
    | some hab => exact .some hab

/-! ## Numbered lists -/

/-- Numbers ascend along a numbered list. -/
theorem pairwise_zipIdx (xs : List α) : xs.zipIdx.Pairwise fun x y => x.2 < y.2 := by
  have h : (xs.zipIdx.map Prod.snd).Pairwise (· < ·) := by
    rw [List.zipIdx_map_snd]
    exact List.pairwise_lt_range'
  exact List.pairwise_map.mp h

/-- At most one member has the number that is looked for. -/
theorem flatMap_zipIdx_of_eq (f : α → List β) (xs : List α) (i k : Nat) :
    ((xs.zipIdx k).flatMap fun x => if x.2 = k + i then f x.1 else []) =
      (xs[i]?.map f).getD [] := by
  induction xs generalizing i k with
  | nil => rfl
  | cons x rest ih =>
    rw [List.zipIdx_cons, List.flatMap_cons]
    cases i with
    | zero =>
      have hrest : ((rest.zipIdx (k + 1)).flatMap fun x => if x.2 = k + 0 then f x.1 else []) =
          [] := by
        rw [List.flatMap_eq_nil_iff]
        intro y hy
        have hle := List.le_snd_of_mem_zipIdx hy
        rw [if_neg (by omega)]
      rw [hrest]
      simp
    | succ i =>
      have hne : ¬ k = k + (i + 1) := by omega
      rw [if_neg hne, List.nil_append, List.getElem?_cons_succ, ← ih i (k + 1)]
      simp only [Nat.add_assoc, Nat.add_comm 1 i]

/-! ## Related options -/

section

variable {r : α → β → Prop} {s : γ → δ → Prop} {x : Option α} {y : Option β}

theorem rel_imp {s : α → β → Prop} (h : Option.Rel r x y)
    (hs : ∀ a b, x = some a → y = some b → r a b → s a b) : Option.Rel s x y := by
  cases h with
  | none => exact .none
  | some h => exact .some (hs _ _ rfl rfl h)

theorem rel_flip (h : Option.Rel r x y) : Option.Rel (flip r) y x := by
  cases h with
  | none => exact .none
  | some h => exact .some h

theorem rel_trans {s : β → γ → Prop} {t : α → γ → Prop} {z : Option γ} (h : Option.Rel r x y)
    (h' : Option.Rel s y z) (ht : ∀ a b c, r a b → s b c → t a c) : Option.Rel t x z := by
  cases h with
  | none =>
    cases h'
    exact .none
  | some hr =>
    cases h' with
    | some hs => exact .some (ht _ _ _ hr hs)

theorem rel_getD {a : α} {b : β} (h : Option.Rel r x y) (hab : r a b) :
    r (x.getD a) (y.getD b) := by
  cases h with
  | none => exact hab
  | some h => exact h

theorem rel_bind {f : α → Option γ} {g : β → Option δ} (h : Option.Rel r x y)
    (hs : ∀ a b, r a b → Option.Rel s (f a) (g b)) : Option.Rel s (x.bind f) (y.bind g) := by
  cases h with
  | none => exact .none
  | some h => exact hs _ _ h

theorem rel_map {f : α → γ} {g : β → δ} (h : Option.Rel r x y) (hs : ∀ a b, r a b → s (f a) (g b)) :
    Option.Rel s (x.map f) (y.map g) := by
  cases h with
  | none => exact .none
  | some h => exact .some (hs _ _ h)

end

/-! ## Matched lists -/

/-- Whether the order of a list counts. -/
inductive Arrangement where
  | kept
  | free

/-- The members of two lists are related one by one; where their order does not count, the second
list may have to be rearranged for that. -/
def Matched : Arrangement → (α → β → Prop) → List α → List β → Prop
  | .kept, r, xs, ys => List.Forall₂ r xs ys
  | .free, r, xs, ys => ∃ zs, List.Forall₂ r xs zs ∧ zs.Perm ys

namespace Matched

variable {order : Arrangement} {r : α → β → Prop} {s : γ → δ → Prop} {xs xs' : List α}
  {ys ys' : List β}

/-- Lists that match one by one match in either order. -/
theorem of_forall₂ (h : List.Forall₂ r xs ys) : Matched order r xs ys := by
  cases order with
  | kept => exact h
  | free => exact ⟨ys, h, .rfl⟩

/-- What holds of two lists related one by one holds of matched ones if it is not affected by a
rearrangement. -/
theorem exists_forall₂ (h : Matched order r xs ys) :
    ∃ zs, List.Forall₂ r xs zs ∧ zs.Perm ys := by
  cases order with
  | kept => exact ⟨ys, h, .rfl⟩
  | free => exact h

theorem symm (h : Matched order r xs ys) : Matched order (flip r) ys xs := by
  cases order with
  | kept => exact List.Forall₂.flip (R := flip r) h
  | free =>
    obtain ⟨zs, hzs, hperm⟩ := h
    obtain ⟨zs', hzs', hperm'⟩ :=
      List.perm_comp_forall₂ hperm.symm (List.Forall₂.flip (R := flip r) hzs)
    exact ⟨zs', hzs', hperm'⟩

theorem eq_nil_iff (h : Matched order r xs ys) : xs = [] ↔ ys = [] := by
  obtain ⟨zs, hzs, hperm⟩ := h.exists_forall₂
  rw [← List.length_eq_zero_iff, ← List.length_eq_zero_iff, hzs.length_eq, hperm.length_eq]

/-- What holds of matched members at once holds of all on both sides or on neither. -/
theorem forall_mem_iff {P : α → Prop} {Q : β → Prop}
    (h : Matched order (fun x y => P x ↔ Q y) xs ys) : (∀ x ∈ xs, P x) ↔ ∀ y ∈ ys, Q y := by
  obtain ⟨zs, hzs, hperm⟩ := h.exists_forall₂
  simp only [← hperm.mem_iff]
  clear h hperm
  induction hzs with
  | nil => simp
  | cons hxy _ ih => rw [List.forall_mem_cons, List.forall_mem_cons, hxy, ih]

theorem append (h : Matched order r xs ys) (h' : Matched order r xs' ys') :
    Matched order r (xs ++ xs') (ys ++ ys') := by
  cases order with
  | kept => exact List.rel_append h h'
  | free =>
    obtain ⟨zs, hzs, hperm⟩ := h
    obtain ⟨zs', hzs', hperm'⟩ := h'
    exact ⟨zs ++ zs', List.rel_append hzs hzs', hperm.append hperm'⟩

theorem imp {r' : α → β → Prop} (h : Matched order r xs ys) (hr : ∀ x y, r x y → r' x y) :
    Matched order r' xs ys := by
  cases order with
  | kept => exact List.Forall₂.imp hr h
  | free =>
    obtain ⟨zs, hzs, hperm⟩ := h
    exact ⟨zs, hzs.imp hr, hperm⟩

theorem and_mem {P : α → Prop} (h : Matched order r xs ys) (hP : ∀ x ∈ xs, P x) :
    Matched order (fun x y => P x ∧ r x y) xs ys := by
  have hand {zs : List β} (hzs : List.Forall₂ r xs zs) :
      List.Forall₂ (fun x y => P x ∧ r x y) xs zs :=
    (forall₂_and_of_forall₂ hzs fun x hx _ _ => hP x hx).imp fun _ _ h => h.symm
  cases order with
  | kept => exact hand h
  | free =>
    obtain ⟨zs, hzs, hperm⟩ := h
    exact ⟨zs, hand hzs, hperm⟩

theorem map {f : α → γ} {g : β → δ} (h : Matched order r xs ys)
    (hs : ∀ x y, r x y → s (f x) (g y)) : Matched order s (xs.map f) (ys.map g) := by
  have hmap {zs : List β} (hzs : List.Forall₂ r xs zs) :
      List.Forall₂ s (xs.map f) (zs.map g) := by
    simpa only [List.forall₂_map_left_iff, List.forall₂_map_right_iff] using hzs.imp hs
  cases order with
  | kept => exact hmap h
  | free =>
    obtain ⟨zs, hzs, hperm⟩ := h
    exact ⟨zs.map g, hmap hzs, hperm.map g⟩

theorem map_left_iff {t : γ → β → Prop} {f : α → γ} :
    Matched order t (xs.map f) ys ↔ Matched order (fun x y => t (f x) y) xs ys := by
  cases order <;> simp only [Matched, List.forall₂_map_left_iff]

theorem filterMap {f : α → Option γ} {g : β → Option δ} (h : Matched order r xs ys)
    (hs : ∀ x y, r x y → Option.Rel s (f x) (g y)) :
    Matched order s (xs.filterMap f) (ys.filterMap g) := by
  have hfilter {zs : List β} (hzs : List.Forall₂ r xs zs) :
      List.Forall₂ s (xs.filterMap f) (zs.filterMap g) :=
    List.rel_filterMap (fun x y hr => hs x y hr) hzs
  cases order with
  | kept => exact hfilter h
  | free =>
    obtain ⟨zs, hzs, hperm⟩ := h
    exact ⟨zs.filterMap g, hfilter hzs, hperm.filterMap g⟩

/-- Lists that are gathered from matched members match as a whole. -/
theorem flatMap {f : α → List γ} {g : β → List δ} (h : Matched order r xs ys)
    (hs : ∀ x y, r x y → Matched order s (f x) (g y)) :
    Matched order s (xs.flatMap f) (ys.flatMap g) := by
  have hflat {zs : List β} (hzs : List.Forall₂ r xs zs) :
      Matched order s (xs.flatMap f) (zs.flatMap g) := by
    clear h
    induction hzs with
    | nil => exact of_forall₂ .nil
    | cons hr _ ih => exact (hs _ _ hr).append ih
  cases order with
  | kept => exact hflat h
  | free =>
    obtain ⟨zs, hzs, hperm⟩ := h
    obtain ⟨ws, hws, hperm'⟩ := hflat hzs
    exact ⟨ws, hws, hperm'.trans (hperm.flatMap_right g)⟩

/-- Results that match on one side are put together for the other, in its own order. -/
theorem exists_results {t : α → γ → Prop} {u : β → γ → Prop}
    (h : Matched order (fun x y => ∃ z, t x z ∧ u y z) xs ys) :
    ∃ zs, Matched order t xs zs ∧ List.Forall₂ u ys zs := by
  have hsplit {xs : List α} {ys : List β} (h : List.Forall₂ (fun x y => ∃ z, t x z ∧ u y z) xs ys) :
      ∃ zs, List.Forall₂ t xs zs ∧ List.Forall₂ u ys zs := by
    induction h with
    | nil => exact ⟨[], .nil, .nil⟩
    | cons hr _ ih =>
      obtain ⟨z, ht, hu⟩ := hr
      obtain ⟨zs, hts, hus⟩ := ih
      exact ⟨z :: zs, .cons ht hts, .cons hu hus⟩
  cases order with
  | kept => exact hsplit h
  | free =>
    obtain ⟨moved, hmoved, hperm⟩ := h
    obtain ⟨zs, hts, hus⟩ := hsplit hmoved
    obtain ⟨zs', hus', hperm'⟩ := List.perm_comp_forall₂ hperm.symm hus
    exact ⟨zs', ⟨zs, hts, hperm'.symm⟩, hus'⟩

theorem any_eq {p : α → Bool} {q : β → Bool} (h : Matched order r xs ys)
    (hpq : ∀ x y, r x y → p x = q y) : xs.any p = ys.any q := by
  obtain ⟨zs, hzs, hperm⟩ := h.exists_forall₂
  rw [← hperm.any_eq]
  clear h hperm
  induction hzs with
  | nil => rfl
  | cons hr _ ih => rw [List.any_cons, List.any_cons, hpq _ _ hr, ih]

end Matched

end Conform
