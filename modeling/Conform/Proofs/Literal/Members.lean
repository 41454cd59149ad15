import Conform.Proofs.Json
import Conform.Proofs.Lists
import Conform.Schema.Literal.Decode

/-!
# What the members of a literal say

A literal is read member by member, and each member has its say in one place only. So where keys are
distinct the order of the members does not matter, and what is read can be told from looking up the
keys: `Describes members header kind body` says that the look-ups agree with a header, a kind and
what the keys of this kind say.

* `ofMembers_eq_ok_iff`, `findKind_eq_ok_iff`, `body_eq_ok_iff`: each of the three passes over the
  members reads what the look-ups say.
* `node_object_eq_ok_iff`: the members are read as a schema exactly if they describe one.
-/

namespace Conform

/-! ## Results -/

theorem bind_eq_ok {ε α β : Type} {x : Except ε α} {f : α → Except ε β} {b : β} :
    x >>= f = .ok b ↔ ∃ a, x = .ok a ∧ f a = .ok b := by
  cases x with
  | error e => simp [bind, Except.bind]
  | ok a => simp [bind, Except.bind]

theorem map_eq_ok {ε α β : Type} {x : Except ε α} {f : α → β} {b : β} :
    x.map f = .ok b ↔ ∃ a, x = .ok a ∧ f a = b := by
  cases x <;> simp [Except.map]

namespace Literal

open Entries (get? keys)

variable {members : List (String × Json)} {kind : Kind}

theorem eq_scalar_of_sight {value : Json} {s : Json.Scalar} (h : value.sight = .scalar s) :
    value = .scalar s := by
  cases value <;> cases h
  rfl

/-! ## Keys of all kinds -/

theorem Shared.ofName?_eq_some_iff {key : String} {m : Shared} :
    ofName? key = some m ↔ m.name = key := by
  constructor
  · intro h
    simpa using List.find?_some h
  · rintro rfl
    cases m <;> rfl

theorem Shared.name_injective {m m' : Shared} (h : m.name = m'.name) : m = m' := by
  have := ofName?_eq_some_iff.mpr h
  rwa [ofName?_eq_some_iff.mpr rfl, Option.some.injEq, eq_comm] at this

namespace Header

variable {header header' : Header} {m : Shared} {value : Json}

/-- What has to stand under a shared key for the header to say what it says. -/
def json (header : Header) : Shared → Option Json
  | .optional => header.optional.map .bool
  | .nullable => header.nullable.map .bool
  | .description => header.description.map fun text => text.elim .null .string

/-- The header with what another one says under a shared key. -/
def update (header : Header) (m : Shared) (other : Header) : Header :=
  match m with
  | .optional => { header with optional := other.optional }
  | .nullable => { header with nullable := other.nullable }
  | .description => { header with description := other.description }

theorem exists_scalar_of_json (h : header.json m = some value) :
    ∃ s, value = .scalar s := by
  cases m with
  | optional | nullable =>
    obtain ⟨b, -, rfl⟩ := Option.map_eq_some_iff.mp h
    exact ⟨_, rfl⟩
  | description =>
    obtain ⟨text, -, rfl⟩ := Option.map_eq_some_iff.mp h
    cases text <;> exact ⟨_, rfl⟩

theorem json_update (header other : Header) (m m' : Shared) :
    (header.update m other).json m' = if m = m' then other.json m' else header.json m' := by
  cases m <;> cases m' <;> rfl

theorem has_eq_isSome_json (header : Header) (m : Shared) :
    header.has m = (header.json m).isSome := by
  cases m <;> simp [has, json]

/-- A header is what it says for each of the common members. -/
theorem eq_of_json (h : ∀ m, header.json m = header'.json m) : header = header' := by
  obtain ⟨optional, nullable, description⟩ := header
  obtain ⟨optional', nullable', description'⟩ := header'
  have hbool : Function.Injective Json.bool := fun _ _ h => by simpa [Json.bool] using h
  have htext : Function.Injective fun text : Option String => text.elim Json.null Json.string := by
    rintro (_ | text) (_ | text') h <;> simp_all [Json.null, Json.string]
  have hoptional : optional = optional' := Option.map_injective hbool (h .optional)
  have hnullable : nullable = nullable' := Option.map_injective hbool (h .nullable)
  have hdescription : description = description' := Option.map_injective htext (h .description)
  rw [hoptional, hnullable, hdescription]

/-- The header in which a shared key has this value, whatever stands under the others. -/
theorem assign_of_json {other : Header} (h : other.json m = some value) :
    header.assign m value.sight = .ok (header.update m other) := by
  cases m with
  | optional =>
    obtain ⟨b, hb, rfl⟩ := Option.map_eq_some_iff.mp h
    simp [Json.bool, Json.sight, assign, update, hb]
  | nullable =>
    obtain ⟨b, hb, rfl⟩ := Option.map_eq_some_iff.mp h
    simp [Json.bool, Json.sight, assign, update, hb]
  | description =>
    obtain ⟨text, htext, rfl⟩ := Option.map_eq_some_iff.mp h
    cases text <;> simp [Json.null, Json.string, Json.sight, assign, update, htext]

/-- A common member that has been taken is said by the header, and nothing else has changed. -/
theorem json_of_assign (h : header.assign m value.sight = .ok header') :
    header'.json m = some value ∧ header' = header.update m header' := by
  unfold assign at h
  split at h <;> cases h <;> rename_i hsight
  all_goals
    rw [eq_scalar_of_sight hsight]
    exact ⟨rfl, rfl⟩

/-- A header that nothing has been said to yet about the keys of the members. -/
theorem foldlM_take_eq_ok_iff (hkeys : (keys members).Nodup)
    (hfresh : ∀ m : Shared, m.name ∈ keys members → header.json m = none) :
    members.foldlM take header = .ok header' ↔
      ∀ m, header'.json m = (get? m.name members).or (header.json m) := by
  induction members generalizing header with
  | nil =>
    simp only [List.foldlM_nil, pure, Except.pure, Except.ok.injEq, get?, Option.none_or]
    exact ⟨fun h m => by rw [h], fun h => eq_of_json fun m => (h m).symm⟩
  | cons member rest ih =>
    obtain ⟨key, value⟩ := member
    obtain ⟨hkey, hrest⟩ := List.nodup_cons.mp hkeys
    rw [List.foldlM_cons, bind_eq_ok]
    have hlater : ∀ m : Shared, m.name ∈ keys rest → header.json m = none :=
      fun m hm => hfresh m (List.mem_cons_of_mem _ hm)
    cases hm : Shared.ofName? key with
    | none =>
      have hne : ∀ m : Shared, key ≠ m.name := by
        rintro m rfl
        simp [Shared.ofName?_eq_some_iff.mpr rfl] at hm
      simp [take, hm, get?, hne, ih hrest hlater]
    | some m =>
      obtain rfl := Shared.ofName?_eq_some_iff.mp hm
      have hnone : header.json m = none := hfresh m List.mem_cons_self
      have htake : take header (m.name, value) = header.assign m value.sight := by
        simp [take, hm, declare, has_eq_isSome_json, hnone, bind, Except.bind]
      have hupdate : ∀ other : Header, ∀ m' : Shared, m'.name ∈ keys rest →
          (header.update m other).json m' = none := by
        intro other m' hm'
        rw [json_update, if_neg, hlater m' hm']
        rintro rfl
        exact hkey hm'
      have hget : get? m.name rest = none := Entries.get?_eq_none_iff.mpr hkey
      have hsteps : ∀ m', (get? m'.name rest).or (if m = m' then some value else header.json m') =
          (get? m'.name ((m.name, value) :: rest)).or (header.json m') := by
        intro m'
        by_cases heq : m = m'
        · subst heq
          simp [get?, hget]
        · have hname : m.name ≠ m'.name := fun h => heq (Shared.name_injective h)
          simp [get?, heq, hname]
      rw [htake]
      constructor
      · rintro ⟨middle, hassign, hfold⟩ m'
        obtain ⟨hjson, heq⟩ := json_of_assign hassign
        rw [heq, ih hrest (hupdate middle)] at hfold
        rw [hfold, json_update, ← hsteps]
        by_cases hm' : m = m'
        · subst hm'
          simp [hjson]
        · simp [hm']
      · intro h
        have hjson : header'.json m = some value := by
          rw [h, ← hsteps, hget, if_pos rfl, Option.none_or]
        refine ⟨header.update m header', assign_of_json hjson, ?_⟩
        rw [ih hrest (hupdate header')]
        intro m'
        rw [h, ← hsteps, json_update]
        by_cases hm' : m = m'
        · subst hm'
          simp [hjson]
        · simp [hm']

/-- The header read from distinct members says what they say. -/
theorem ofMembers_eq_ok_iff (hkeys : (keys members).Nodup) :
    ofMembers members = .ok header ↔ ∀ m, get? m.name members = header.json m := by
  have hempty : ∀ m, empty.json m = none := by
    intro m
    cases m <;> rfl
  rw [ofMembers, foldlM_take_eq_ok_iff hkeys fun m _ => hempty m]
  simp only [hempty, Option.or_none, eq_comm]

end Header

/-! ## The kind -/

theorem kind_of_name {name : String} :
    (Kind.all.find? fun kind => kind.name = name) = some kind ↔ kind.name = name := by
  constructor
  · intro h
    simpa using List.find?_some h
  · rintro rfl
    cases kind <;> rfl

theorem findKind_some_eq_ok_iff {found : Kind} (h : tagKey ∉ keys members) :
    findKind members (some found) = .ok kind ↔ kind = found := by
  induction members with
  | nil => simp [findKind, eq_comm]
  | cons member rest ih =>
    obtain ⟨key, value⟩ := member
    obtain ⟨hne, hrest⟩ := not_or.mp (List.mem_cons.not.mp h)
    rw [findKind, if_neg (Ne.symm hne), ih hrest]

/-- The kind is the one that the tag names. -/
theorem findKind_eq_ok_iff (hkeys : (keys members).Nodup) :
    findKind members none = .ok kind ↔
      ∃ tag, get? tagKey members = some tag ∧ kindOfTag tag.sight = .ok kind := by
  induction members with
  | nil => simp [findKind, get?]
  | cons member rest ih =>
    obtain ⟨key, value⟩ := member
    obtain ⟨hkey, hrest⟩ := List.nodup_cons.mp hkeys
    by_cases htag : key = tagKey
    · subst htag
      simp only [findKind, if_true, bind_eq_ok, get?, Option.some.injEq, exists_eq_left']
      constructor
      · rintro ⟨found, hfound, hrun⟩
        rwa [(findKind_some_eq_ok_iff hkey).mp hrun]
      · intro hkind
        exact ⟨kind, hkind, (findKind_some_eq_ok_iff hkey).mpr rfl⟩
    · simp only [findKind, htag, if_false, get?, ih hrest]

/-- A kind that is not given by its place is given by its name. -/
theorem kindOfTag_eq_ok_iff {tag : Json} (hnumber : ¬ tag.IsNumber) :
    kindOfTag tag.sight = .ok kind ↔ tag = .string kind.name := by
  constructor
  · intro h
    unfold kindOfTag at h
    split at h
    · rename_i name hsight
      split at h <;> cases h
      rename_i hfind
      rw [eq_scalar_of_sight hsight, kind_of_name.mp hfind]
      rfl
    · rename_i n hsight
      exact absurd (eq_scalar_of_sight hsight ▸ .integer n) hnumber
    · cases h
  · rintro rfl
    have hfind := kind_of_name.mpr (Eq.refl kind.name)
    simp only [Json.string, Json.sight, kindOfTag, hfind]

/-! ## Keys of one kind -/

theorem slot?_eq_some_iff {key : String} {slot : Slot} :
    slot? kind key = some slot ↔ slot ∈ slots kind ∧ slot.name = key := by
  constructor
  · intro h
    exact ⟨List.mem_of_find?_eq_some h, by simpa using List.find?_some h⟩
  · rintro ⟨hmem, rfl⟩
    revert hmem
    cases kind <;> cases slot <;> decide

theorem isCommon_iff {key : String} :
    isCommon key = true ↔ key = tagKey ∨ ∃ m : Shared, m.name = key := by
  simp [isCommon, Option.isSome_iff_exists, Shared.ofName?_eq_some_iff]

theorem isCommon_slot (slot : Slot) : isCommon slot.name = false := by
  cases slot <;> decide

theorem slot_name_ne_shared_name (slot : Slot) (m : Shared) : slot.name ≠ m.name := by
  cases slot <;> cases m <;> decide

theorem Slot.name_injective {slot slot' : Slot} (h : slot.name = slot'.name) : slot = slot' := by
  revert h
  cases slot <;> cases slot' <;> decide

/-- What one key of a kind says; with `none` it says nothing. -/
def Slot.Part : Slot → Type
  | contents => Option Contents
  | minLength | maxLength => Option UInt64
  | min | max => Option Double
  | brand => Option Brand
  | key => Option Schema

/-- What a slot holds before it is read. -/
def Slot.unset : (slot : Slot) → slot.Part
  | contents => (none : Option Contents)
  | minLength | maxLength => (none : Option UInt64)
  | min | max => (none : Option Double)
  | brand => (none : Option Brand)
  | key => (none : Option Schema)

namespace Body

variable {done b b' : Body} {slot : Slot}

/-- What the slot holds. -/
def part (b : Body) : (slot : Slot) → slot.Part
  | .contents => b.contents
  | .minLength => b.length.min
  | .maxLength => b.length.max
  | .min => b.range.min
  | .max => b.range.max
  | .brand => b.brand
  | .key => b.key

/-- The body with something else in one slot. -/
def setPart (b : Body) : (slot : Slot) → slot.Part → Body
  | .contents, part => { b with contents := part }
  | .minLength, part => { b with length := ⟨part, b.length.max⟩ }
  | .maxLength, part => { b with length := ⟨b.length.min, part⟩ }
  | .min, part => { b with range := ⟨part, b.range.max⟩ }
  | .max, part => { b with range := ⟨b.range.min, part⟩ }
  | .brand, part => { b with brand := part }
  | .key, part => { b with key := part }

/-- The body that holds these parts and has marked no key. -/
def ofParts (parts : (slot : Slot) → slot.Part) : Body :=
  ⟨[], parts .contents, ⟨parts .minLength, parts .maxLength⟩, ⟨parts .min, parts .max⟩,
    parts .brand, parts .key⟩

theorem part_ofParts (parts : (slot : Slot) → slot.Part) (slot : Slot) :
    (ofParts parts).part slot = parts slot := by
  cases slot <;> rfl

theorem part_empty (slot : Slot) : empty.part slot = slot.unset := by
  cases slot <;> rfl

/-- A key of the kind is read. -/
def enter (b : Body) (slot : Slot) (part : slot.Part) : Body :=
  (b.setPart slot part).see slot

theorem part_enter (b : Body) (slot : Slot) (part : slot.Part) :
    (b.enter slot part).part slot = part := by
  cases slot <;> rfl

theorem part_enter_of_ne (b : Body) {slot slot' : Slot} (h : slot ≠ slot') (part : slot.Part) :
    (b.enter slot part).part slot' = b.part slot' := by
  cases slot <;> cases slot' <;> first | rfl | exact absurd rfl h

theorem seen_enter (b : Body) (slot : Slot) (part : slot.Part) :
    (b.enter slot part).seen = slot :: b.seen := by
  cases slot <;> rfl

/-- A key that has not been seen says nothing. -/
def Tidy (b : Body) : Prop :=
  ∀ slot, slot ∉ b.seen → b.part slot = slot.unset

theorem tidy_empty : empty.Tidy :=
  fun slot _ => part_empty slot

theorem Tidy.enter (h : done.Tidy) (slot : Slot) (part : slot.Part) :
    (done.enter slot part).Tidy := by
  intro slot' hslot'
  rw [seen_enter] at hslot'
  obtain ⟨hne, hnew⟩ := not_or.mp (List.mem_cons.not.mp hslot')
  rw [part_enter_of_ne _ (Ne.symm hne)]
  exact h slot' hnew

/-- A slot is found for a key of the kind that has not been seen. -/
theorem slot_eq_ok_iff {key : String} :
    done.slot kind key = .ok slot ↔ slot ∈ slots kind ∧ slot.name = key ∧ slot ∉ done.seen := by
  rw [← and_assoc, ← slot?_eq_some_iff, Body.slot]
  cases slot? kind key with
  | none => simp
  | some found =>
    by_cases hseen : found ∈ done.seen
    · simp only [hseen, if_true, Option.some.injEq, reduceCtorEq, false_iff]
      rintro ⟨rfl, hnew⟩
      exact hnew hseen
    · simp only [hseen, if_false, Except.ok.injEq, Option.some.injEq]
      constructor
      · rintro rfl
        exact ⟨rfl, hseen⟩
      · exact And.left

end Body

/-! ## Values under the keys of a kind -/

/-- What stands under `of`. -/
def contentsOf (kind : Kind) (value : Json) : Except LiteralFault Contents :=
  match form kind with
  | .constant => (constant value).map .constant
  | .node => (node value).map .one
  | .nodes => (nodesOf value).map .many
  | .fields => (fieldsOf value).map fun fields => .named (Entries.collect fields)

/-- The schema of a record's keys, if there is one. -/
def keyOf (value : Json) : Except LiteralFault (Option Schema) :=
  if isNull value then .ok none else (node value).map some

theorem isNull_iff {value : Json} : isNull value = true ↔ value = .null := by
  constructor
  · intro h
    unfold isNull at h
    split at h <;> cases h
    rfl
  · rintro rfl
    rfl

/-- What the value under a key of the kind says. -/
def partOf (kind : Kind) : (slot : Slot) → Json → Except LiteralFault slot.Part
  | .contents, value => (contentsOf kind value).map some
  | .minLength, value | .maxLength, value => length? value
  | .min, value | .max, value => number? value
  | .brand, value => brand? value
  | .key, value => keyOf value

/-- A key of the kind is read into its own part. A null under `key` sets nothing, which is the same
only because nothing has been set before. -/
theorem body_cons {done : Body} {slot : Slot} {value : Json} {rest : List (String × Json)}
    (hslot : done.slot kind slot.name = .ok slot) (htidy : done.Tidy) :
    body kind ((slot.name, value) :: rest) done =
      partOf kind slot value >>= fun part => body kind rest (done.enter slot part) := by
  have hunset := htidy slot (Body.slot_eq_ok_iff.mp hslot).2.2
  rw [body, if_neg (by simp [isCommon_slot]), hslot]
  simp only [bind, Except.bind]
  cases slot with
  | contents =>
    simp only [partOf, contentsOf]
    cases form kind with
    | constant => cases constant value <;> rfl
    | node => cases node value <;> rfl
    | nodes => cases nodesOf value <;> rfl
    | fields => cases fieldsOf value <;> rfl
  | minLength | maxLength =>
    simp only [Body.read, partOf]
    cases length? value <;> rfl
  | min | max =>
    simp only [Body.read, partOf]
    cases number? value <;> rfl
  | brand =>
    simp only [Body.read, partOf]
    cases brand? value <;> rfl
  | key =>
    have hkey : done.key = none := hunset
    simp only [partOf, keyOf]
    cases isNull value with
    | true => simp [Body.enter, Body.setPart, ← hkey]
    | false => cases node value <;> rfl

/-- A key that is read, is not read for the second time and belongs to the kind. -/
theorem exists_part_of_body {done b : Body} {key : String} {value : Json}
    {rest : List (String × Json)} (hcommon : isCommon key ≠ true) (htidy : done.Tidy)
    (h : body kind ((key, value) :: rest) done = .ok b) :
    ∃ slot part, slot.name = key ∧ slot ∉ done.seen ∧ partOf kind slot value = .ok part ∧
      body kind rest (done.enter slot part) = .ok b := by
  have hread : ∃ slot, done.slot kind key = .ok slot := by
    rw [body, if_neg hcommon] at h
    obtain ⟨slot, hslot, -⟩ := bind_eq_ok.mp h
    exact ⟨slot, hslot⟩
  obtain ⟨slot, hslot⟩ := hread
  obtain ⟨-, rfl, hunseen⟩ := Body.slot_eq_ok_iff.mp hslot
  rw [body_cons hslot htidy] at h
  obtain ⟨part, hpart, h⟩ := bind_eq_ok.mp h
  exact ⟨slot, part, rfl, hunseen, hpart, h⟩

/-- Whatever the keys of the kind say is said by a member, even where a key is repeated. -/
theorem said_of_body {done b : Body} (htidy : done.Tidy) (h : body kind members done = .ok b)
    (slot : Slot) :
    b.part slot = done.part slot ∨
      ∃ member ∈ members, partOf kind slot member.2 = .ok (b.part slot) := by
  induction members generalizing done with
  | nil =>
    rw [body, Except.ok.injEq] at h
    exact .inl (by rw [h])
  | cons member rest ih =>
    obtain ⟨key, value⟩ := member
    have hrest : ∀ {done' : Body}, done'.Tidy → body kind rest done' = .ok b →
        b.part slot = done'.part slot ∨
          ∃ member ∈ (key, value) :: rest, partOf kind slot member.2 = .ok (b.part slot) := by
      intro done' htidy' h'
      refine (ih htidy' h').imp_right ?_
      rintro ⟨member, hmem, hsaid⟩
      exact ⟨member, List.mem_cons_of_mem _ hmem, hsaid⟩
    by_cases hcommon : isCommon key = true
    · rw [body, if_pos hcommon] at h
      exact hrest htidy h
    obtain ⟨read, part, rfl, -, hpart, h⟩ := exists_part_of_body hcommon htidy h
    rcases hrest (htidy.enter read part) h with hsame | hlater
    · by_cases hne : read = slot
      · subst hne
        rw [Body.part_enter] at hsame
        exact .inr ⟨(read.name, value), List.mem_cons_self, hsame ▸ hpart⟩
      · rw [Body.part_enter_of_ne _ hne] at hsame
        exact .inl hsame
    · exact .inr hlater

/-- All keys belong to every node or to the nodes of the kind. -/
def Declared (kind : Kind) (members : List (String × Json)) : Prop :=
  ∀ key ∈ keys members, isCommon key = true ∨ ∃ slot ∈ slots kind, slot.name = key

/-- The second body says what the members say, and where they say nothing what the first says. -/
def Body.Extends (kind : Kind) (members : List (String × Json)) (done b : Body) : Prop :=
  ∀ slot : Slot, (get? slot.name members).elim (b.part slot = done.part slot)
    fun value => partOf kind slot value = .ok (b.part slot)

section

variable {key : String} {value : Json} {rest : List (String × Json)} {slot : Slot} {done b : Body}

theorem declared_cons :
    Declared kind ((key, value) :: rest) ↔
      (isCommon key = true ∨ ∃ slot ∈ slots kind, slot.name = key) ∧ Declared kind rest :=
  List.forall_mem_cons

theorem Body.extends_nil : Extends kind [] done b ↔ ∀ slot, b.part slot = done.part slot :=
  Iff.rfl

theorem Body.extends_cons_common (h : isCommon key = true) :
    Extends kind ((key, value) :: rest) done b ↔ Extends kind rest done b := by
  refine forall_congr' fun slot => ?_
  have hne : key ≠ slot.name := by
    rintro rfl
    simp [isCommon_slot] at h
  rw [get?, if_neg hne]

theorem Body.extends_cons_slot (hnew : slot.name ∉ keys rest) :
    Extends kind ((slot.name, value) :: rest) done b ↔
      ∃ part, partOf kind slot value = .ok part ∧ Extends kind rest (done.enter slot part) b := by
  have hget : get? slot.name rest = none := Entries.get?_eq_none_iff.mpr hnew
  have hothers : ∀ part slot', slot ≠ slot' →
      slot.name ≠ slot'.name ∧ (done.enter slot part).part slot' = done.part slot' := by
    intro part slot' hne
    exact ⟨fun h => hne (Slot.name_injective h), part_enter_of_ne _ hne part⟩
  constructor
  · intro h
    refine ⟨b.part slot, by simpa [get?] using h slot, fun slot' => ?_⟩
    by_cases hne : slot = slot'
    · subst hne
      simp [hget, part_enter]
    · obtain ⟨hname, hpart⟩ := hothers (b.part slot) slot' hne
      simpa [get?, hname, hpart] using h slot'
  · rintro ⟨part, hpart, h⟩ slot'
    by_cases hne : slot = slot'
    · subst hne
      have hsame : b.part slot = part := by simpa [hget, part_enter] using h slot
      simp [get?, hsame, hpart]
    · obtain ⟨hname, hsame⟩ := hothers part slot' hne
      simpa [get?, hname, hsame] using h slot'

end

/-- The induction over the members; none of their keys has been seen yet. -/
theorem body_eq_ok_iff_of_new {done b : Body} (hkeys : (keys members).Nodup) (htidy : done.Tidy)
    (hnew : ∀ slot ∈ done.seen, slot.name ∉ keys members) :
    (∃ b', body kind members done = .ok b' ∧ ∀ slot, b.part slot = b'.part slot) ↔
      Declared kind members ∧ Body.Extends kind members done b := by
  induction members generalizing done with
  | nil => simp [body, Declared, keys, Body.extends_nil]
  | cons member rest ih =>
    obtain ⟨key, value⟩ := member
    obtain ⟨hkey, hrest⟩ := List.nodup_cons.mp hkeys
    have hlater : ∀ slot ∈ done.seen, slot.name ∉ keys rest :=
      fun slot hseen hmem => hnew slot hseen (List.mem_cons_of_mem _ hmem)
    rw [declared_cons]
    by_cases hcommon : isCommon key = true
    · rw [body, if_pos hcommon, ih hrest htidy hlater, Body.extends_cons_common hcommon]
      simp only [hcommon, true_or, true_and]
    by_cases hslot : ∃ slot ∈ slots kind, slot.name = key
    · obtain ⟨slot, hmem, rfl⟩ := hslot
      have hunseen : slot ∉ done.seen := fun hseen => hnew slot hseen List.mem_cons_self
      have hnext : ∀ part, ∀ slot' ∈ (done.enter slot part).seen, slot'.name ∉ keys rest := by
        intro part slot' hseen
        rw [Body.seen_enter] at hseen
        rcases List.mem_cons.mp hseen with rfl | hseen
        · exact hkey
        · exact hlater slot' hseen
      have hread := fun part => ih hrest (htidy.enter slot part) (hnext part)
      rw [body_cons (Body.slot_eq_ok_iff.mpr ⟨hmem, rfl, hunseen⟩) htidy,
        Body.extends_cons_slot hkey]
      simp only [bind_eq_ok]
      constructor
      · rintro ⟨b', ⟨part, hpart, hbody⟩, hsame⟩
        obtain ⟨hdeclared, hextends⟩ := (hread part).mp ⟨b', hbody, hsame⟩
        exact ⟨⟨.inr ⟨slot, hmem, rfl⟩, hdeclared⟩, part, hpart, hextends⟩
      · rintro ⟨⟨-, hdeclared⟩, part, hpart, hextends⟩
        obtain ⟨b', hbody, hsame⟩ := (hread part).mpr ⟨hdeclared, hextends⟩
        exact ⟨b', ⟨part, hpart, hbody⟩, hsame⟩
    · have hunknown : ∀ slot, done.slot kind key ≠ .ok slot := by
        intro slot h
        obtain ⟨hmem, hname, -⟩ := Body.slot_eq_ok_iff.mp h
        exact hslot ⟨slot, hmem, hname⟩
      rw [body, if_neg hcommon]
      simp only [bind_eq_ok, hunknown, hcommon, hslot]
      simp

/-- What the keys of the kind say. -/
theorem body_eq_ok_iff {b : Body} (hkeys : (keys members).Nodup) :
    (∃ b', body kind members .empty = .ok b' ∧ ∀ slot, b.part slot = b'.part slot) ↔
      Declared kind members ∧ Body.Extends kind members .empty b :=
  body_eq_ok_iff_of_new hkeys Body.tidy_empty (by simp [Body.empty])

/-! ## Nodes in lists -/

theorem nodes_eq_ok_iff {items : List Json} {schemas : List Schema} :
    nodes items = .ok schemas ↔
      List.Forall₂ (fun item schema => node item = .ok schema) items schemas := by
  induction items generalizing schemas with
  | nil => cases schemas <;> simp [nodes]
  | cons item rest ih =>
    simp only [nodes, bind_eq_ok, pure, Except.pure, Except.ok.injEq, ih]
    constructor
    · rintro ⟨schema, hitem, schemas, hrest, rfl⟩
      exact .cons hitem hrest
    · rintro (_ | ⟨hitem, hrest⟩)
      exact ⟨_, hitem, _, hrest, rfl⟩

theorem fields_eq_ok_iff {members : List (String × Json)} {found : List (String × Schema)} :
    fields members = .ok found ↔
      List.Forall₂ (fun member field => field.1 = member.1 ∧ node member.2 = .ok field.2)
        members found := by
  induction members generalizing found with
  | nil => cases found <;> simp [fields]
  | cons member rest ih =>
    obtain ⟨name, value⟩ := member
    simp only [fields, bind_eq_ok, pure, Except.pure, Except.ok.injEq, ih]
    constructor
    · rintro ⟨schema, hvalue, found, hrest, rfl⟩
      exact .cons ⟨rfl, hvalue⟩ hrest
    · rintro (_ | @⟨_, ⟨name', schema⟩, _, _, ⟨rfl, hvalue⟩, hrest⟩)
      exact ⟨schema, hvalue, _, hrest, rfl⟩

theorem nodesOf_eq_ok_iff {value : Json} {schemas : List Schema} :
    nodesOf value = .ok schemas ↔ ∃ items, value = .array items ∧ nodes items = .ok schemas := by
  cases value <;> simp [nodesOf]

theorem fieldsOf_eq_ok_iff {value : Json} {found : List (String × Schema)} :
    fieldsOf value = .ok found ↔
      ∃ members, value = .object members ∧ fields members = .ok found := by
  cases value <;> simp [fieldsOf]

/-! ## Nodes -/

/-- What the members say, key by key. -/
structure Describes (members : List (String × Json)) (header : Header) (kind : Kind) (b : Body) :
    Prop where
  shared : ∀ m, get? m.name members = header.json m
  tag : ∃ tag, get? tagKey members = some tag ∧ kindOfTag tag.sight = .ok kind
  declared : Declared kind members
  said : Body.Extends kind members .empty b

/-- A schema is completed when it is assembled without a defect. -/
theorem complete_eq_ok_iff {info : Info} {b : Body} {schema : Schema} :
    complete info kind b = .ok schema ↔
      assemble info kind b = .ok schema ∧ schema.defect? = none := by
  rw [complete, bind_eq_ok]
  constructor
  · rintro ⟨schema', hassemble, hcheck⟩
    split at hcheck <;> cases hcheck
    exact ⟨hassemble, ‹_›⟩
  · rintro ⟨hassemble, hdefect⟩
    exact ⟨schema, hassemble, by simp [hdefect]⟩

theorem complete_congr {info : Info} {b b' : Body} (h : ∀ slot, b.part slot = b'.part slot) :
    complete info kind b = complete info kind b' := by
  obtain ⟨seen, contents, ⟨minLength, maxLength⟩, ⟨min, max⟩, brand, key⟩ := b
  obtain ⟨seen', contents', ⟨minLength', maxLength'⟩, ⟨min', max'⟩, brand', key'⟩ := b'
  obtain rfl : contents = contents' := h .contents
  obtain rfl : minLength = minLength' := h .minLength
  obtain rfl : maxLength = maxLength' := h .maxLength
  obtain rfl : min = min' := h .min
  obtain rfl : max = max' := h .max
  obtain rfl : brand = brand' := h .brand
  obtain rfl : key = key' := h .key
  rfl

/-- An object is read as a node when it describes a header and a body that make one. -/
theorem node_object_eq_ok_iff {schema : Schema} (hkeys : (keys members).Nodup) :
    node (.object members) = .ok schema ↔
      ∃ header kind b,
        Describes members header kind b ∧ complete header.info kind b = .ok schema := by
  simp only [node, bind_eq_ok]
  constructor
  · rintro ⟨header, hheader, kind, hkind, b, hbody, hcomplete⟩
    obtain ⟨hdeclared, hextends⟩ := (body_eq_ok_iff hkeys).mp ⟨b, hbody, fun _ => rfl⟩
    exact ⟨header, kind, b, ⟨(Header.ofMembers_eq_ok_iff hkeys).mp hheader,
      (findKind_eq_ok_iff hkeys).mp hkind, hdeclared, hextends⟩, hcomplete⟩
  · rintro ⟨header, kind, b, h, hcomplete⟩
    obtain ⟨b', hbody, hsame⟩ := (body_eq_ok_iff hkeys).mpr ⟨h.declared, h.said⟩
    exact ⟨header, (Header.ofMembers_eq_ok_iff hkeys).mpr h.shared, kind,
      (findKind_eq_ok_iff hkeys).mpr h.tag, b', hbody, by rwa [← complete_congr hsame]⟩

end Literal

end Conform
