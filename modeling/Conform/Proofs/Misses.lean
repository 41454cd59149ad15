import Conform.Proofs.Visit.Stops

/-!
# Which alternatives are missed

A check tells its misses on the way out, also those from inside an alternative that is given up
then. Here each miss is noted with the visit that it is about, and a visit is named by the way to
it: the number of the inner stop at every step from the whole (`Stop.at?`). So two visits are told
apart even if they are about the same union, value and path.

`Told` says which notes belong to a check and in which order they come. `exists_told` finds them by
induction over the stops, and `misses_of_validateAt` is about the events of the call.
-/

namespace Conform

open Schema

/-! ## Ways to visits -/

/-- The stop at the end of a way. -/
def Stop.at? (s : Stop) : List Nat → Option Stop
  | [] => some s
  | i :: rest => s.inner[i]?.bind fun next => next.at? rest

/-- The order in which stops are left: those with smaller numbers first where two ways part, and a
stop itself after all that are inside it. -/
def LeftBefore : List Nat → List Nat → Prop
  | [], _ => False
  | _ :: _, [] => True
  | i :: rest, j :: rest' => i < j ∨ i = j ∧ LeftBefore rest rest'

theorem leftBefore_append (visit : List Nat) {way way' : List Nat} :
    LeftBefore (visit ++ way) (visit ++ way') ↔ LeftBefore way way' := by
  induction visit with
  | nil => rfl
  | cons i rest ih => simp [LeftBefore, ih]

/-- A miss with the way to the visit of the union that tells it. -/
structure Note where
  visit : List Nat
  miss : Miss

namespace Note

/-- The way to the alternative that was missed. -/
def way (note : Note) : List Nat :=
  note.visit ++ [note.miss.alternative]

/-- A note from the inner stop of the given number. -/
def within (i : Nat) (note : Note) : Note :=
  { note with visit := i :: note.visit }

theorem way_within (i : Nat) (note : Note) : (note.within i).way = i :: note.way :=
  rfl

end Note

/-- What there is to tell of a union: the alternatives in front of the first that accepts the value,
or all of them, each with the number of rejections that it has for the value. -/
def missed (path : Path) (alternatives : List Schema) (v : Value) : List Miss :=
  (alternatives.take (alternatives.findIdx fun alternative => guard alternative v)).zipIdx.map
    fun alternative => ⟨path, alternative.2, (rejections alternative.1 v).length⟩

/-- The notes of a check that begins at the given stop. -/
structure Told (root : Stop) (notes : List Note) : Prop where
  /-- A union that does not exempt the value tells all that there is to tell, in order. -/
  own : ∀ visit path info alternatives v,
    root.at? visit = some ⟨path, .union info alternatives, v⟩ → info.exempts v = false →
    (notes.filter fun note => note.visit = visit).map Note.miss = missed path alternatives v
  /-- No other visit tells anything. -/
  only : ∀ note ∈ notes, ∃ path info alternatives v,
    root.at? note.visit = some ⟨path, .union info alternatives, v⟩ ∧ info.exempts v = false
  errors_pos : ∀ note ∈ notes, 1 ≤ note.miss.errors
  /-- A union speaks of an alternative when that has been left. -/
  ordered : notes.Pairwise fun note later => LeftBefore note.way later.way

/-- What is told inside an alternative stands behind the misses of all earlier alternatives, and in
front of the miss of this one and of all later. -/
theorem Told.between {root : Stop} {notes : List Note} (h : Told root notes) :
    notes.Pairwise fun note later => ∀ visit i rest,
      (note.visit = visit ++ i :: rest → later.visit = visit → i ≤ later.miss.alternative) ∧
      (note.visit = visit → later.visit = visit ++ i :: rest → note.miss.alternative < i) := by
  refine h.ordered.imp ?_
  intro note later hbefore visit i rest
  constructor
  · intro hnote hlater
    rw [Note.way, Note.way, hnote, hlater, List.append_assoc, leftBefore_append] at hbefore
    simp only [List.cons_append, LeftBefore] at hbefore
    omega
  · intro hnote hlater
    rw [Note.way, Note.way, hnote, hlater, List.append_assoc, leftBefore_append] at hbefore
    simpa [LeftBefore] using hbefore

/-! ## Notes of the inner stops -/

theorem Stop.mem_own {s next : Stop} {i : Nat} {miss : Miss} :
    miss ∈ s.own i next ↔ (∃ info alternatives, s.schema = .union info alternatives) ∧
      next.errors ≠ 0 ∧ miss = ⟨s.path, i, next.errors⟩ := by
  unfold own
  split
  · rename_i info alternatives heq
    by_cases hnone : next.errors = 0 <;> simp [heq, hnone]
  · rename_i hunion
    simp only [List.not_mem_nil, false_iff]
    rintro ⟨⟨info, alternatives, heq⟩, -⟩
    exact hunion info alternatives heq

/-- Behind the accepting alternative there is nothing, and all before it are told. -/
theorem flatMap_own_tried (path : Path) (info : Info) (all alternatives : List Schema) (v : Value)
    (i : Nat) :
    (((tried alternatives v).zipIdx i).flatMap fun alternative =>
        (Stop.mk path (.union info all) v).own alternative.2 ⟨path, alternative.1, v⟩) =
      ((alternatives.take (alternatives.findIdx fun alternative => guard alternative v)).zipIdx
        i).map fun alternative => ⟨path, alternative.2, (rejections alternative.1 v).length⟩ := by
  induction alternatives generalizing i with
  | nil => rfl
  | cons alternative rest ih =>
    rw [tried_cons, List.findIdx_cons, List.zipIdx_cons, List.flatMap_cons]
    by_cases hguard : guard alternative v = true
    · have hnone : rejections alternative v = [] := guard_eq_true_iff_rejections.mp hguard
      simp [hguard, Stop.own, Stop.errors, hnone]
    · have hsome : rejections alternative v ≠ [] := guard_eq_true_iff_rejections.not.mp hguard
      rw [if_neg hguard, ih]
      simp [hguard, Stop.own, Stop.errors, hsome]

theorem flatMap_own_inner {path : Path} {info : Info} {alternatives : List Schema} {v : Value}
    (h : info.exempts v = false) :
    ((Stop.mk path (.union info alternatives) v).inner.zipIdx.flatMap fun next =>
        (Stop.mk path (.union info alternatives) v).own next.2 next.1) =
      missed path alternatives v := by
  rw [Stop.inner_union h, List.zipIdx_map, List.flatMap_map]
  exact flatMap_own_tried path info alternatives alternatives v 0

/-- The notes of a stop, from those of its inner stops. -/
def gathered (s : Stop) (notes : Stop → List Note) : List Note :=
  s.inner.zipIdx.flatMap fun next =>
    (notes next.1).map (Note.within next.2) ++ (s.own next.2 next.1).map (Note.mk [])

section

variable {s : Stop} {notes : Stop → List Note}

/-- The notes of a stop are its misses, if those of the stops inside are theirs. -/
theorem map_miss_gathered (h : ∀ next ∈ s.inner, (notes next).map Note.miss = next.misses) :
    (gathered s notes).map Note.miss = s.misses := by
  rw [gathered, List.map_flatMap, Stop.misses_eq]
  refine List.flatMap_congr fun next hnext => ?_
  have hmem : next.1 ∈ s.inner := List.mem_of_getElem? (List.mem_zipIdx_iff_getElem?.mp hnext)
  rw [List.map_append, List.map_map, List.map_map, ← h next.1 hmem]
  simp [Function.comp_def, Note.within]

theorem mem_gathered {note : Note} :
    note ∈ gathered s notes ↔ ∃ i next, s.inner[i]? = some next ∧
      ((∃ told ∈ notes next, note = told.within i) ∨ ∃ miss ∈ s.own i next, note = ⟨[], miss⟩) := by
  simp only [gathered, List.mem_flatMap, Prod.exists, List.mem_append, List.mem_map,
    List.mem_zipIdx_iff_getElem?]
  constructor
  · rintro ⟨next, i, hnext, ⟨told, htold, rfl⟩ | ⟨miss, hmiss, rfl⟩⟩
    · exact ⟨i, next, hnext, .inl ⟨told, htold, rfl⟩⟩
    · exact ⟨i, next, hnext, .inr ⟨miss, hmiss, rfl⟩⟩
  · rintro ⟨i, next, hnext, ⟨told, htold, rfl⟩ | ⟨miss, hmiss, rfl⟩⟩
    · exact ⟨next, i, hnext, .inl ⟨told, htold, rfl⟩⟩
    · exact ⟨next, i, hnext, .inr ⟨miss, hmiss, rfl⟩⟩

theorem filter_gathered_nil :
    ((gathered s notes).filter fun note => note.visit = []).map Note.miss =
      s.inner.zipIdx.flatMap fun next => s.own next.2 next.1 := by
  rw [gathered, List.filter_flatMap, List.map_flatMap]
  refine List.flatMap_congr fun next _ => ?_
  simp [List.filter_map, Function.comp_def, Note.within]

theorem filter_gathered_cons (i : Nat) (rest : List Nat) :
    ((gathered s notes).filter fun note => note.visit = i :: rest).map Note.miss =
      (s.inner[i]?.map fun next =>
        ((notes next).filter fun note => note.visit = rest).map Note.miss).getD [] := by
  rw [gathered, List.filter_flatMap, List.map_flatMap, ← flatMap_zipIdx_of_eq _ _ i 0]
  refine List.flatMap_congr fun next _ => ?_
  by_cases hi : next.2 = 0 + i
  · simp [hi, List.filter_map, Function.comp_def, Note.within]
  · have hi' : next.2 ≠ i := by omega
    simp [hi', List.filter_map, Function.comp_def, Note.within]

/-- What comes from an inner stop is ordered, and its own miss stands last. -/
theorem ordered_of_inner {next : Stop} {i : Nat} (h : Told next (notes next)) :
    ((notes next).map (Note.within i) ++ (s.own i next).map (Note.mk [])).Pairwise
      fun note later => LeftBefore note.way later.way := by
  rw [List.pairwise_append, List.pairwise_map, List.pairwise_map]
  refine ⟨?_, ?_, ?_⟩
  · refine h.ordered.imp ?_
    intro note later hbefore
    exact .inr ⟨rfl, hbefore⟩
  · unfold Stop.own
    split
    · split <;> simp
    · exact .nil
  · intro note hnote own hown
    obtain ⟨told, -, rfl⟩ := List.mem_map.mp hnote
    obtain ⟨miss, hmiss, rfl⟩ := List.mem_map.mp hown
    obtain ⟨-, -, rfl⟩ := Stop.mem_own.mp hmiss
    rw [Note.way_within]
    refine .inr ⟨rfl, ?_⟩
    unfold Note.way
    cases told.visit <;> trivial

/-- Notes are gathered in the order of their ways. -/
theorem ordered_gathered (h : ∀ next ∈ s.inner, Told next (notes next)) :
    (gathered s notes).Pairwise fun note later => LeftBefore note.way later.way := by
  -- all ways from an inner stop begin with its number
  have hway {next : Stop × Nat} {note : Note} (hnote : note ∈
      (notes next.1).map (Note.within next.2) ++ (s.own next.2 next.1).map (Note.mk [])) :
      ∃ rest, note.way = next.2 :: rest := by
    rcases List.mem_append.mp hnote with hnote | hnote
    · obtain ⟨told, -, rfl⟩ := List.mem_map.mp hnote
      exact ⟨told.way, rfl⟩
    · obtain ⟨miss, hmiss, rfl⟩ := List.mem_map.mp hnote
      obtain ⟨-, -, rfl⟩ := Stop.mem_own.mp hmiss
      exact ⟨[], rfl⟩
  rw [gathered, List.pairwise_flatMap]
  refine ⟨fun next hnext => ?_, (pairwise_zipIdx s.inner).imp ?_⟩
  · exact ordered_of_inner
      (h next.1 (List.mem_of_getElem? (List.mem_zipIdx_iff_getElem?.mp hnext)))
  · intro next next' hlt note hnote later hlater
    obtain ⟨rest, hrest⟩ := hway hnote
    obtain ⟨rest', hrest'⟩ := hway hlater
    rw [hrest, hrest']
    exact .inl hlt

/-- What the stops inside tell, gathered, is what the stop tells. -/
theorem told_gathered (h : ∀ next ∈ s.inner, Told next (notes next)) :
    Told s (gathered s notes) where
  own visit path info alternatives v hat hexempts := by
    cases visit with
    | nil =>
      obtain rfl := Option.some.inj hat
      rw [filter_gathered_nil, flatMap_own_inner hexempts]
    | cons i rest =>
      obtain ⟨next, hnext, hat⟩ := Option.bind_eq_some_iff.mp hat
      rw [filter_gathered_cons, hnext]
      exact (h next (List.mem_of_getElem? hnext)).own rest path info alternatives v hat hexempts
  only note hnote := by
    obtain ⟨i, next, hnext, ⟨told, htold, rfl⟩ | ⟨miss, hmiss, rfl⟩⟩ := mem_gathered.mp hnote
    · obtain ⟨path, info, alternatives, v, hat, hexempts⟩ :=
        (h next (List.mem_of_getElem? hnext)).only told htold
      refine ⟨path, info, alternatives, v, ?_, hexempts⟩
      show (s.inner[i]?.bind fun next => next.at? told.visit) = _
      rw [hnext, Option.bind_some, hat]
    · obtain ⟨⟨info, alternatives, hunion⟩, -⟩ := Stop.mem_own.mp hmiss
      obtain ⟨path, schema, v⟩ := s
      refine ⟨path, info, alternatives, v, congrArg some (congrArg (Stop.mk path · v) hunion), ?_⟩
      -- a union that exempts the value has no inner stop to tell of
      rw [← Bool.not_eq_true]
      intro hexempts
      have hnone := Stop.inner_of_exempts (s := ⟨path, schema, v⟩) (by rw [hunion]; exact hexempts)
      simp [hnone] at hnext
  errors_pos note hnote := by
    obtain ⟨i, next, hnext, ⟨told, htold, rfl⟩ | ⟨miss, hmiss, rfl⟩⟩ := mem_gathered.mp hnote
    · exact (h next (List.mem_of_getElem? hnext)).errors_pos told htold
    · obtain ⟨-, hsome, rfl⟩ := Stop.mem_own.mp hmiss
      exact Nat.one_le_iff_ne_zero.mpr hsome
  ordered := ordered_gathered h

/-- Every stop tells its misses by notes that say where each comes from. -/
theorem exists_told (s : Stop) : ∃ notes, Told s notes ∧ notes.map Note.miss = s.misses := by
  induction s using Stop.induction with
  | h s ih =>
    choose! notes htold hmisses using ih
    exact ⟨gathered s notes, told_gathered htold, map_miss_gathered hmisses⟩

end

/-! ## Events -/

/-- **The events of a check tell which alternatives were missed**, and at the end, if the value was
refused, with how many rejections. Each union that looks at a value tells of the alternatives in
front of the first that accepts it, in order, and what is told inside an alternative stands between
the misses of the one before it and its own. A union that exempts a value tells nothing of it. -/
theorem misses_of_validateAt (schema : Schema) (v : Value) (q : Path) :
    ∃ notes : List Note,
      (validateAt schema v q).events =
        notes.map (fun note => .missed note.miss) ++
          (match (validateAt schema v q).result with
            | .ok _ => []
            | .error es => [.refused .validation schema.kind es.length]) ∧
      Told ⟨q, schema, v⟩ notes ∧
      notes.Pairwise fun note later => ∀ visit i rest,
        (note.visit = visit ++ i :: rest → later.visit = visit → i ≤ later.miss.alternative) ∧
        (note.visit = visit → later.visit = visit ++ i :: rest → note.miss.alternative < i) := by
  obtain ⟨notes, htold, hmisses⟩ := exists_told ⟨q, schema, v⟩
  refine ⟨notes, ?_, htold, htold.between⟩
  have hmap : notes.map (fun note => Event.missed note.miss) =
      (visit .share schema v q).misses.map .missed :=
    calc notes.map (fun note => Event.missed note.miss)
        = (notes.map Note.miss).map .missed := List.map_map.symm
      _ = (visit .share schema v q).misses.map .missed := congrArg _ hmisses
  rw [hmap, validateAt, concluded]
  cases (visit .share schema v q).outcome <;> rfl

/-- A truth value or a big integer. -/
def switchOrCount : Schema :=
  .union .plain [.leaf .plain .boolean none, .leaf .plain .bigint none]

/-- The misses inside the items stand in front of the miss of the array, which is given up for the
second item, and the two misses inside the last alternative in front of its own. -/
example :
    (validateAt (.union .plain [.array .plain switchOrCount .unset, switchOrCount])
      (.sequence [.bigInt (.ofUnsigned 7#8), .null]) []).events =
      [.missed ⟨[.index 0], 0, 1⟩, .missed ⟨[.index 1], 0, 1⟩, .missed ⟨[.index 1], 1, 1⟩,
        .missed ⟨[], 0, 1⟩, .missed ⟨[], 0, 1⟩, .missed ⟨[], 1, 1⟩, .missed ⟨[], 1, 1⟩,
        .refused .validation .union 1] := by
  rfl

/-- A truth value or nothing. -/
def optionalSwitch : Schema :=
  .union ⟨true, false, none⟩ [.leaf .plain .boolean none]

/-- Not every visit of a union is told of: a union that may be absent does not look at an absent
value, although its only alternative does not accept it. -/
theorem untold_optionalSwitch :
    ¬ ∃ notes : List Note,
      (validateAt optionalSwitch .absent []).events =
        notes.map (fun note => .missed note.miss) ++
          (match (validateAt optionalSwitch .absent []).result with
            | .ok _ => []
            | .error es => [.refused .validation optionalSwitch.kind es.length]) ∧
      ∀ visit path info alternatives v,
        Stop.at? ⟨[], optionalSwitch, .absent⟩ visit =
          some ⟨path, .union info alternatives, v⟩ →
        (notes.filter fun note => note.visit = visit).map Note.miss =
          missed path alternatives v := by
  rintro ⟨notes, hevents, hown⟩
  have hnone : (validateAt optionalSwitch .absent []).events = [] := rfl
  have htold : missed [] [.leaf .plain .boolean none] .absent = [⟨[], 0, 1⟩] := rfl
  rw [hnone, eq_comm, List.append_eq_nil_iff, List.map_eq_nil_iff] at hevents
  obtain ⟨rfl, -⟩ := hevents
  have hmisses := hown [] [] _ _ _ rfl
  rw [htold] at hmisses
  cases hmisses

end Conform
