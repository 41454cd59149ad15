import Conform.Check.Traversal
import Conform.Proofs.Schema

/-!
# Two visits of one value

A visit depends on its policy and on the path only in what it makes and in where it says that
things are. `Visit.Alike` relates two visits that tell the same story: the misses and rejections of
the second are those of the first with a path put in front, and what the two make of an accepted
value is related. A `Policy.Simulation` says which relation two policies keep up.

* `Simulation.visit_alike`: under a simulation, the visits of any value are alike.
* `visit_under`: a path put in front of the given path is put in front of every miss and rejection,
  and changes nothing else.
* `visit_alike_any`: any two policies reject alike and have the same misses.
-/

namespace Conform

/-- The miss as it is told further out, with a path in front. -/
def Miss.under (q : Path) (miss : Miss) : Miss :=
  { miss with path := q ++ miss.path }

/-- The rejection as it is told further out, with a path in front. -/
def Rejection.under (q : Path) (r : Rejection) : Rejection :=
  { r with path := q ++ r.path }

@[simp]
theorem Miss.under_nil : Miss.under [] = id :=
  rfl

@[simp]
theorem Rejection.under_nil : Rejection.under [] = id :=
  rfl

/-! ## Visits that are alike -/

namespace Visit

variable {α β γ δ ε ζ : Type}

/-- The visit with `q` put in front of the paths of all misses and rejections. -/
def under (q : Path) (x : Visit α) : Visit α :=
  ⟨x.misses.map (Miss.under q), x.outcome.mapError (List.map (Rejection.under q))⟩

/-- The second visit ends as the first one does, at places with `q` in front. -/
inductive Alike (r : α → β → Prop) (q : Path) : Visit α → Visit β → Prop
  | accepted (misses : List Miss) {a : α} {b : β} (h : r a b) :
      Alike r q ⟨misses, .ok a⟩ ⟨misses.map (Miss.under q), .ok b⟩
  | rejected (misses : List Miss) (es : List Rejection) :
      Alike r q ⟨misses, .error es⟩
        ⟨misses.map (Miss.under q), .error (es.map (Rejection.under q))⟩

namespace Alike

variable {r : α → β → Prop} {s : γ → δ → Prop} {t : ε → ζ → Prop} {q : Path}
  {x : Visit α} {y : Visit β} {x' : Visit γ} {y' : Visit δ}

theorem accept {a : α} {b : β} (h : r a b) : Alike r q (Visit.accept a) (Visit.accept b) :=
  .accepted [] h

theorem reject (code : Code) (path : Path) (schema : Schema) (subject : Value) :
    Alike r q (Visit.reject code path schema subject)
      (Visit.reject code (q ++ path) schema subject) :=
  .rejected [] [⟨code, path, schema, subject⟩]

theorem map {f : α → γ} {g : β → δ} (hx : Alike r q x y) (h : ∀ a b, r a b → s (f a) (g b)) :
    Alike s q (x.map f) (y.map g) := by
  cases hx with
  | accepted misses hab => exact .accepted misses (h _ _ hab)
  | rejected misses es => exact .rejected misses es

theorem both {f : α → γ → ε} {g : β → δ → ζ} (hx : Alike r q x y) (hx' : Alike s q x' y')
    (h : ∀ a b c d, r a b → s c d → t (f a c) (g b d)) :
    Alike t q (Visit.both f x x') (Visit.both g y y') := by
  cases hx with
  | accepted misses hab =>
    cases hx' with
    | accepted misses' hcd =>
      simp only [Visit.both, ← List.map_append]
      exact .accepted _ (h _ _ _ _ hab hcd)
    | rejected misses' es' =>
      simp only [Visit.both, ← List.map_append]
      exact .rejected _ _
  | rejected misses es =>
    cases hx' with
    | accepted misses' hcd =>
      simp only [Visit.both, ← List.map_append]
      exact .rejected _ _
    | rejected misses' es' =>
      simp only [Visit.both, ← List.map_append]
      exact .rejected _ _

theorem before {check : α → Visit γ} {check' : β → Visit δ} (hx : Alike r q x y)
    (h : ∀ a b, r a b → Alike s q (check a) (check' b)) :
    Alike s q (x.before check) (y.before check') := by
  cases hx with
  | accepted misses hab =>
    have hc := h _ _ hab
    simp only [Visit.before]
    generalize check _ = z at hc ⊢
    generalize check' _ = z' at hc ⊢
    cases hc with
    | accepted misses' hcd =>
      simp only [← List.map_append]
      exact .accepted _ hcd
    | rejected misses' es' =>
      simp only [← List.map_append]
      exact .rejected _ _
  | rejected misses es => exact .rejected misses es

theorem eq_under {y : Visit α} (hx : Alike Eq q x y) : y = x.under q := by
  cases hx with
  | accepted misses h => subst h; rfl
  | rejected misses es => rfl

end Alike

end Visit

/-! ## Simulations -/

open Visit (Alike)

variable {α β : Type}

/-- Relations between what two policies make of values, items and entries, kept by every
operation of the policies. -/
structure Policy.Simulation (P : Policy α) (Q : Policy β) where
  value : α → β → Prop
  items : List α → List β → Prop
  entries : List (String × α) → List (String × β) → Prop
  leaf : ∀ v, value (P.leaf v) (Q.leaf v)
  items_nil : items [] []
  items_cons : ∀ a b as bs, value a b → items as bs → items (a :: as) (b :: bs)
  sequence : ∀ v as bs, items as bs → value (P.sequence v as) (Q.sequence v bs)
  entries_nil : entries [] []
  entries_append : ∀ es fs es' fs', entries es fs → entries es' fs' →
    entries (es ++ es') (fs ++ fs')
  field : ∀ key a b, value a b → entries [(key, a)] [(key, b)]
  entry : ∀ key a b, value a b →
    entries (if P.drops a then [] else [(key, a)]) (if Q.drops b then [] else [(key, b)])
  mapping : ∀ v es fs, entries es fs → value (P.mapping v es) (Q.mapping v fs)

namespace Policy.Simulation

/-- A policy keeps up equality with itself. -/
def identity (P : Policy α) : Simulation P P where
  value := Eq
  items := Eq
  entries := Eq
  leaf _ := rfl
  items_nil := rfl
  items_cons _ _ _ _ h hs := by rw [h, hs]
  sequence _ _ _ h := by rw [h]
  entries_nil := rfl
  entries_append _ _ _ _ h h' := by rw [h, h']
  field _ _ _ h := by rw [h]
  entry _ _ _ h := by rw [h]
  mapping _ _ _ h := by rw [h]

/-- Nothing is asked of what the policies make. -/
def unconstrained (P : Policy α) (Q : Policy β) : Simulation P Q where
  value _ _ := True
  items _ _ := True
  entries _ _ := True
  leaf _ := trivial
  items_nil := trivial
  items_cons _ _ _ _ _ _ := trivial
  sequence _ _ _ _ := trivial
  entries_nil := trivial
  entries_append _ _ _ _ _ _ := trivial
  field _ _ _ _ := trivial
  entry _ _ _ _ := trivial
  mapping _ _ _ _ := trivial

open Schema

variable {P : Policy α} {Q : Policy β} (S : Simulation P Q) {q : Path}

theorem visitItems_alike {f : Value → Path → Visit α} {g : Value → Path → Visit β}
    (h : ∀ v path, Alike S.value q (f v path) (g v (q ++ path))) (items : List Value) (path : Path)
    (i : Nat) : Alike S.items q (visitItems f path i items) (visitItems g (q ++ path) i items) := by
  induction items generalizing i with
  | nil => exact .accept S.items_nil
  | cons item rest ih =>
    have hitem := h item (path ++ [.index i])
    rw [← List.append_assoc] at hitem
    exact hitem.both (ih (i + 1)) S.items_cons

theorem visitKey_alike (keySchema : Option Schema) (path : Path) (key : String) :
    Alike (fun _ _ => True) q (visitKey keySchema path key)
      (visitKey keySchema (q ++ path) key) := by
  unfold visitKey
  split
  · exact .accept trivial
  · split
    · exact .accept trivial
    · exact .reject _ _ _ _

theorem visitEntry_alike {f : Value → Path → Visit α} {g : Value → Path → Visit β}
    (h : ∀ v path, Alike S.value q (f v path) (g v (q ++ path))) (keySchema : Option Schema)
    (path : Path) (key : String) (value : Value) :
    Alike S.entries q (visitEntry P f keySchema path key value)
      (visitEntry Q g keySchema (q ++ path) key value) := by
  refine (visitKey_alike keySchema path key).both (s := S.entries) ?_ fun _ _ _ _ _ hes => hes
  split
  · exact .accept S.entries_nil
  · exact (h value path).map (S.entry key)

theorem visitEntries_alike {f : Value → Path → Visit α} {g : Value → Path → Visit β}
    (h : ∀ v path, Alike S.value q (f v path) (g v (q ++ path))) (keySchema : Option Schema)
    (entries : List (String × Value)) (path : Path) :
    Alike S.entries q (visitEntries P f keySchema path entries)
      (visitEntries Q g keySchema (q ++ path) entries) := by
  induction entries with
  | nil => exact .accept S.entries_nil
  | cons entry rest ih =>
    obtain ⟨key, value⟩ := entry
    have hentry := S.visitEntry_alike h keySchema (path ++ [.key key]) key value
    rw [← List.append_assoc] at hentry
    exact hentry.both ih fun _ _ _ _ => S.entries_append _ _ _ _

theorem visitPositions_alike {positions : List Schema}
    (h : ∀ position ∈ positions, ∀ v path,
      Alike S.value q (visit P position v path) (visit Q position v (q ++ path)))
    (items : List Value) (path : Path) (i : Nat) :
    Alike S.items q (visitPositions P positions items path i)
      (visitPositions Q positions items (q ++ path) i) := by
  induction positions generalizing items i with
  | nil => exact .accept S.items_nil
  | cons position rest ih =>
    cases items with
    | nil => exact .accept S.items_nil
    | cons item items =>
      have hitem := h position List.mem_cons_self item (path ++ [.index i])
      rw [← List.append_assoc] at hitem
      have hrest := ih (fun p hp => h p (List.mem_cons_of_mem _ hp)) items (i + 1)
      exact hitem.both hrest S.items_cons

theorem visitFields_alike {fields : List (String × Schema)}
    (h : ∀ field ∈ fields, ∀ v path,
      Alike S.value q (visit P field.2 v path) (visit Q field.2 v (q ++ path)))
    (entries : List (String × Value)) (path : Path) :
    Alike S.entries q (visitFields P fields entries path)
      (visitFields Q fields entries (q ++ path)) := by
  induction fields with
  | nil => exact .accept S.entries_nil
  | cons field rest ih =>
    obtain ⟨name, schema⟩ := field
    have hfield := h _ List.mem_cons_self ((Entries.get? name entries).getD .absent)
      (path ++ [.key name])
    rw [← List.append_assoc] at hfield
    refine hfield.both (ih fun f hf => h f (List.mem_cons_of_mem _ hf)) ?_
    intro a b parts parts' hab hparts
    split
    · exact S.entries_append _ _ _ _ (S.field name a b hab) hparts
    · exact hparts

/-- Either no alternative accepts under both policies, or the same one does. -/
theorem visitAlternatives_alike {alternatives : List Schema}
    (h : ∀ alternative ∈ alternatives, ∀ v path,
      Alike S.value q (visit P alternative v path) (visit Q alternative v (q ++ path)))
    (v : Value) (path : Path) (i : Nat) :
    ∃ misses,
      (visitAlternatives P alternatives v path i = (misses, none) ∧
        visitAlternatives Q alternatives v (q ++ path) i = (misses.map (Miss.under q), none)) ∨
      ∃ a b, S.value a b ∧
        visitAlternatives P alternatives v path i = (misses, some a) ∧
        visitAlternatives Q alternatives v (q ++ path) i = (misses.map (Miss.under q), some b) := by
  induction alternatives generalizing i with
  | nil => exact ⟨[], .inl ⟨rfl, rfl⟩⟩
  | cons alternative rest ih =>
    have hfirst := h alternative List.mem_cons_self v path
    rw [visitAlternatives, visitAlternatives]
    generalize visit P alternative v path = x at hfirst ⊢
    generalize visit Q alternative v (q ++ path) = y at hfirst ⊢
    cases hfirst with
    | accepted misses hab => exact ⟨misses, .inr ⟨_, _, hab, rfl, rfl⟩⟩
    | rejected misses es =>
      obtain ⟨later, hlater⟩ := ih (fun a ha => h a (List.mem_cons_of_mem _ ha)) (i + 1)
      refine ⟨misses ++ ⟨path, i, es.length⟩ :: later, ?_⟩
      rcases hlater with ⟨hP, hQ⟩ | ⟨a, b, hab, hP, hQ⟩
      · left
        simp [hP, hQ, Miss.under]
      · right
        refine ⟨a, b, hab, ?_⟩
        simp [hP, hQ, Miss.under]

/-- Visits under related policies run alike, at any path. -/
theorem visit_alike (schema : Schema) (v : Value) (path : Path) :
    Alike S.value q (visit P schema v path) (visit Q schema v (q ++ path)) := by
  induction schema generalizing v path with
  | leaf info l brand =>
    unfold visit
    split
    · exact .accept (S.leaf v)
    · dsimp only
      split
      · exact .accept (S.leaf v)
      · exact .reject _ _ _ _
  | array info element length ih =>
    unfold visit
    split
    · exact .accept (S.leaf v)
    · dsimp only
      split
      · refine (S.visitItems_alike ih _ path 0).before fun parts parts' hparts => ?_
        split
        · exact .accept (S.sequence _ _ _ hparts)
        · exact .reject _ _ _ _
      · exact .reject _ _ _ _
  | tuple info positions ih =>
    unfold visit
    split
    · exact .accept (S.leaf v)
    · dsimp only
      split
      · split
        · exact (S.visitPositions_alike ih _ path 0).map (S.sequence _)
        · exact .reject _ _ _ _
      · exact .reject _ _ _ _
  | object info fields ih =>
    unfold visit
    split
    · exact .accept (S.leaf v)
    · dsimp only
      split
      · refine (S.visitFields_alike ih _ path).before fun parts parts' hparts => ?_
        split
        · exact .reject _ _ _ _
        · exact .accept (S.mapping _ _ _ hparts)
      · exact .reject _ _ _ _
  | record info value key ih _ =>
    unfold visit
    split
    · exact .accept (S.leaf v)
    · dsimp only
      split
      · exact (S.visitEntries_alike ih key _ path).map (S.mapping _)
      · exact .reject _ _ _ _
  | union info alternatives ih =>
    unfold visit
    split
    · exact .accept (S.leaf v)
    · obtain ⟨misses, ⟨hP, hQ⟩ | ⟨a, b, hab, hP, hQ⟩⟩ := S.visitAlternatives_alike ih v path 0
      · simp only [hP, hQ]
        exact .rejected misses _
      · simp only [hP, hQ]
        exact .accepted misses hab

end Policy.Simulation

namespace Schema

/-- Visiting below a path is visiting at the root, with all paths put under it. -/
theorem visit_under (policy : Policy α) (schema : Schema) (v : Value) (q path : Path) :
    visit policy schema v (q ++ path) = (visit policy schema v path).under q :=
  ((Policy.Simulation.identity policy).visit_alike schema v path).eq_under

/-- Under all policies a visit has the same errors and misses. -/
theorem visit_alike_any (P : Policy α) (Q : Policy β) (schema : Schema) (v : Value) (path : Path) :
    Alike (fun _ _ => True) [] (visit P schema v path) (visit Q schema v path) :=
  (Policy.Simulation.unconstrained P Q).visit_alike schema v path

end Schema

end Conform
