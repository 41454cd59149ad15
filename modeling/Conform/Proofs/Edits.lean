import Conform.Proofs.Trimmed
import Conform.Proofs.Visit.Comparison
import Mathlib.Logic.Relation

/-!
# Edits inside schemas

An edit is a relation between schemas. `OneEdit edit` makes it at one node somewhere in a schema,
and `Relation.ReflTransGen (OneEdit edit)` makes any number of them at any depth, one after the
other. What an edit of the whole schema keeps is kept by edits inside: the values that are accepted
(`conforms_of_edits`), what is made of them (`make_of_edits`), and answers to one value
(`concur_of_edits`).
-/

namespace Conform

open Schema

namespace Schema

/-- One node is edited, at any depth; everything around it is as it was. -/
inductive OneEdit (edit : Schema → Schema → Prop) : Schema → Schema → Prop
  | here {schema schema' : Schema} (h : edit schema schema') : OneEdit edit schema schema'
  | element {info : Info} {element element' : Schema} {length : Bounds UInt64}
      (h : OneEdit edit element element') :
      OneEdit edit (.array info element length) (.array info element' length)
  | position {info : Info} {before after : List Schema} {position position' : Schema}
      (h : OneEdit edit position position') :
      OneEdit edit (.tuple info (before ++ position :: after))
        (.tuple info (before ++ position' :: after))
  | field {info : Info} {before after : List (String × Schema)} {name : String}
      {field field' : Schema} (h : OneEdit edit field field') :
      OneEdit edit (.object info (before ++ (name, field) :: after))
        (.object info (before ++ (name, field') :: after))
  | value {info : Info} {value value' : Schema} {key : Option Schema}
      (h : OneEdit edit value value') :
      OneEdit edit (.record info value key) (.record info value' key)
  | key {info : Info} {value key key' : Schema} (h : OneEdit edit key key') :
      OneEdit edit (.record info value (some key)) (.record info value (some key'))
  | alternative {info : Info} {before after : List Schema} {alternative alternative' : Schema}
      (h : OneEdit edit alternative alternative') :
      OneEdit edit (.union info (before ++ alternative :: after))
        (.union info (before ++ alternative' :: after))

variable {edit : Schema → Schema → Prop} {schema schema' : Schema}

/-- Of what is said to keys only an edit of the key schema itself can change anything. -/
theorem OneEdit.verifyKey (h : OneEdit edit schema schema') (name : String) :
    edit schema schema' ∨ schema'.verifyKey name = schema.verifyKey name := by
  cases h with
  | here h => exact .inl h
  | _ => exact .inr rfl

/-! ## Accepted values -/

/-- An edit that keeps conformance at the node it edits keeps it for the tree around it. -/
theorem OneEdit.conforms (hedit : ∀ s s', edit s s' → ∀ v, Conforms s v → Conforms s' v)
    (hkey : ∀ s s', edit s s' → ∀ name, s.verifyKey name = none → s'.verifyKey name = none)
    (h : OneEdit edit schema schema') : ∀ v, Conforms schema v → Conforms schema' v := by
  induction h with
  | here h => exact hedit _ _ h
  | element _ ih =>
    intro v hv
    cases hv with
    | absent h => exact .absent h
    | null h => exact .null h
    | array hitems hlength => exact .array (fun item hitem => ih item (hitems item hitem)) hlength
  | @position info before after position position' _ ih =>
    intro v hv
    cases hv with
    | absent h => exact .absent h
    | null h => exact .null h
    | @tuple _ _ items hlength hitems =>
      have hpositions : List.Forall₂ (fun p' p => ∀ v, Conforms p v → Conforms p' v)
          (before ++ position' :: after) (before ++ position :: after) :=
        forall₂_replace (fun _ _ => id) ih before after
      have hitems : List.Forall₂ Conforms (before ++ position :: after) items :=
        List.forall₂_iff_zip.mpr ⟨hlength.symm, fun hpair => hitems _ hpair⟩
      have hitems' := forall₂_trans hpositions hitems fun _ _ v h hv => h v hv
      exact .tuple hitems'.length_eq.symm fun _ hpair => List.forall₂_zip hitems' hpair
  | @field info before after name field field' _ ih =>
    intro v hv
    cases hv with
    | absent h => exact .absent h
    | null h => exact .null h
    | object hdeclared hfields =>
      refine .object ?_ fun other hother => ?_
      · simpa [Entries.keys] using hdeclared
      · rcases mem_middle.mp hother with rfl | hother
        · exact ih _ (hfields (name, field) (mem_middle.mpr (.inl rfl)))
        · exact hfields other (mem_middle.mpr (.inr hother))
  | value _ ih =>
    intro v hv
    cases hv with
    | absent h => exact .absent h
    | null h => exact .null h
    | record hkeys hvalues =>
      exact .record hkeys fun entry hentry hpresent => ih _ (hvalues entry hentry hpresent)
  | key h _ =>
    intro v hv
    cases hv with
    | absent h => exact .absent h
    | null h => exact .null h
    | record hkeys hvalues =>
      -- a key schema says something to keys, whatever values it accepts
      refine .record (fun entry hentry => keyAccepted_iff.mp ?_) hvalues
      rintro _ ⟨rfl⟩
      have haccepted := keyAccepted_iff.mpr (hkeys entry hentry) _ rfl
      rcases h.verifyKey entry.1 with h | heq
      · exact hkey _ _ h _ haccepted
      · exact heq.trans haccepted
  | @alternative info before after alternative alternative' _ ih =>
    intro v hv
    cases hv with
    | absent h => exact .absent h
    | null h => exact .null h
    | @union _ _ other _ hmem h =>
      rcases mem_middle.mp hmem with rfl | hmem
      · exact .union (mem_middle.mpr (.inl rfl)) (ih v h)
      · exact .union (mem_middle.mpr (.inr hmem)) h

/-- So do any number of such edits. -/
theorem conforms_of_edits (hedit : ∀ s s', edit s s' → ∀ v, Conforms s v → Conforms s' v)
    (hkey : ∀ s s', edit s s' → ∀ name, s.verifyKey name = none → s'.verifyKey name = none)
    (h : Relation.ReflTransGen (OneEdit edit) schema schema') {v : Value}
    (hv : Conforms schema v) : Conforms schema' v := by
  induction h with
  | refl => exact hv
  | tail _ hstep ih => exact hstep.conforms hedit hkey v ih

/-! ## Names of fields -/

theorem OneEdit.distinctNames (hedit : ∀ s s', edit s s' → s.DistinctNames → s'.DistinctNames)
    (h : OneEdit edit schema schema') : schema.DistinctNames → schema'.DistinctNames := by
  induction h with
  | here h => exact hedit _ _ h
  | element _ ih =>
    intro hs info fields hpart
    cases hpart with
    | element hpart => exact ih (hs.of_parts fun _ => .element) info fields hpart
  | position _ ih =>
    intro hs info fields hpart
    cases hpart with
    | position hmem hpart =>
      rcases mem_middle.mp hmem with rfl | hmem
      · exact ih (hs.of_parts fun _ => .position (mem_middle.mpr (.inl rfl))) info fields hpart
      · exact hs info fields (.position (mem_middle.mpr (.inr hmem)) hpart)
  | @field _ before after name field _ _ ih =>
    intro hs info fields hpart
    cases hpart with
    | self => simpa [Entries.keys] using hs _ _ (.self _)
    | field hmem hpart =>
      rcases mem_middle.mp hmem with rfl | hmem
      · have hfield : (name, field) ∈ before ++ (name, field) :: after := mem_middle.mpr (.inl rfl)
        exact ih (hs.of_parts fun _ => .field hfield) info fields hpart
      · exact hs info fields (.field (mem_middle.mpr (.inr hmem)) hpart)
  | value _ ih =>
    intro hs info fields hpart
    cases hpart with
    | value hpart => exact ih (hs.of_parts fun _ => .value) info fields hpart
  | key _ _ =>
    intro hs info fields hpart
    cases hpart with
    | value hpart => exact hs info fields (.value hpart)
  | alternative _ ih =>
    intro hs info fields hpart
    cases hpart with
    | alternative hmem hpart =>
      rcases mem_middle.mp hmem with rfl | hmem
      · exact ih (hs.of_parts fun _ => .alternative (mem_middle.mpr (.inl rfl))) info fields hpart
      · exact hs info fields (.alternative (mem_middle.mpr (.inr hmem)) hpart)

theorem distinctNames_of_edits (hedit : ∀ s s', edit s s' → s.DistinctNames → s'.DistinctNames)
    (h : Relation.ReflTransGen (OneEdit edit) schema schema') (hs : schema.DistinctNames) :
    schema'.DistinctNames := by
  induction h with
  | refl => exact hs
  | tail _ hstep ih => exact hstep.distinctNames hedit ih

/-! ## What is made -/

section

variable {α : Type} {policy : Policy α} {v : Value}

/-- Two nodes that exempt the same and take containers of one shape only make the same if they do
so of containers of this shape. -/
theorem make_eq_of_takes (hx : schema.info.exempts v = schema'.info.exempts v)
    (htakes : schema.Takes v = schema'.Takes v)
    (h : schema.Takes v → make policy schema v = make policy schema' v) :
    make policy schema v = make policy schema' v := by
  cases hexempt : schema.info.exempts v with
  | true => rw [make_of_exempts hexempt, make_of_exempts (hx ▸ hexempt)]
  | false =>
    by_cases hshape : schema.Takes v
    · exact h hshape
    · have hnone : make policy schema v = none :=
        Option.eq_none_iff_forall_ne_some.mpr fun a ha => hshape (takes_of_make ha hexempt)
      have hnone' : make policy schema' v = none := by
        apply Option.eq_none_iff_forall_ne_some.mpr
        intro a ha
        rw [htakes] at hshape
        exact hshape (takes_of_make ha (hx ▸ hexempt))
      rw [hnone, hnone']

/-- An edit that changes nothing at the node it edits changes nothing for the tree around it. -/
theorem OneEdit.make_eq
    (hedit : ∀ s s', edit s s' → ∀ v, make policy s v = make policy s' v)
    (hkey : ∀ s s', edit s s' → ∀ name, s'.verifyKey name = s.verifyKey name)
    (h : OneEdit edit schema schema') :
    ∀ v, make policy schema v = make policy schema' v := by
  induction h with
  | here h => exact hedit _ _ h
  | element _ ih =>
    intro v
    refine make_eq_of_takes rfl rfl ?_
    rintro ⟨items, rfl⟩
    ext a
    simp only [make_array, ih]
  | @position info before after position position' _ ih =>
    intro v
    refine make_eq_of_takes rfl rfl ?_
    rintro ⟨items, rfl⟩
    ext a
    have hpart (item : Value) (part : α) :
        make policy position item = some part ↔ make policy position' item = some part := by
      rw [ih]
    have hparts := forall₂_zip_replace
      (r := fun pair part => make policy pair.1 pair.2 = some part) hpart before after items
    simp only [make_tuple, hparts, List.length_append, List.length_cons]
  | @field info before after name field field' _ ih =>
    intro v
    refine make_eq_of_takes rfl rfl ?_
    rintro ⟨entries, rfl⟩
    ext a
    have hparts : fieldParts policy (before ++ (name, field) :: after) entries =
        fieldParts policy (before ++ (name, field') :: after) entries := by
      simp [fieldParts, List.filterMap_cons, ih]
    have hhas (key : String) : Entries.has key (before ++ (name, field) :: after) =
        Entries.has key (before ++ (name, field') :: after) := by
      rw [Bool.eq_iff_iff, Entries.has_iff, Entries.has_iff]
      simp [Entries.keys]
    simp only [make_object, hparts, hasUndeclared, hhas, List.forall_mem_append,
      List.forall_mem_cons, ih]
  | @value info value value' key _ ih =>
    intro v
    refine make_eq_of_takes rfl rfl ?_
    rintro ⟨entries, rfl⟩
    ext a
    simp only [make_record, entryParts, ih]
  | @key info value key key' h _ =>
    intro v
    refine make_eq_of_takes rfl rfl ?_
    rintro ⟨entries, rfl⟩
    ext a
    have haccepted (name : String) :
        KeyAccepted (some key) name ↔ KeyAccepted (some key') name := by
      have hverify : key'.verifyKey name = key.verifyKey name :=
        (h.verifyKey name).elim (fun h => hkey _ _ h name) id
      simp [KeyAccepted, hverify]
    simp only [make_record, haccepted]
  | @alternative info before after alternative alternative' _ ih =>
    intro v
    cases hx : info.exempts v with
    | true =>
      have h (alternatives : List Schema) :
          make policy (union info alternatives) v = some (policy.leaf v) := make_of_exempts hx
      rw [h, h]
    | false => simp only [make_union hx, List.findSome?_append, List.findSome?_cons, ih]

theorem make_of_edits (hedit : ∀ s s', edit s s' → ∀ v, make policy s v = make policy s' v)
    (hkey : ∀ s s', edit s s' → ∀ name, s'.verifyKey name = s.verifyKey name)
    (h : Relation.ReflTransGen (OneEdit edit) schema schema') (v : Value) :
    make policy schema v = make policy schema' v := by
  induction h with
  | refl => rfl
  | tail _ hstep ih => exact ih.trans (hstep.make_eq hedit hkey v)

end

end Schema

/-! ## Answers to one value -/

/-- One value is checked by a schema and by an edited one, and it does not matter which schemas
reject it; `strict` says whether the parsed values have to be the same. -/
def recheck (strict : Prop) : Comparison :=
  { Comparison.sameResult fun _ v _ v' => v = v' with
    made := fun p p' => strict → p = p'
    leaf := fun h _ => h
    sequence := fun h hstrict =>
      Value.sequence_eq_of_forall₂ (h.imp fun _ _ hmade => hmade hstrict)
    mapping := fun h hstrict =>
      Value.mapping_eq_of_matched (h.imp fun _ _ hmade => ⟨hmade.1, hmade.2 hstrict⟩) }

/-- The same value is rejected for the same reason in the same place. -/
abbrev Rejection.SamePlace : Rejection → Rejection → Prop :=
  Alike fun _ v _ v' => v = v'

section

variable {strict : Prop} {schema schema' schema'' : Schema} {v : Value}

theorem concur_recheck_refl (schema : Schema) (v : Value) :
    (recheck strict).Concur schema v schema v where
  rejections := List.forall₂_same.mpr fun _ _ => ⟨rfl, rfl, rfl⟩
  parsed := by
    cases make .rebuild schema v with
    | none => exact .none
    | some p => exact .some fun _ => rfl

theorem concur_recheck_trans (h : (recheck strict).Concur schema v schema' v)
    (h' : (recheck strict).Concur schema' v schema'' v) :
    (recheck strict).Concur schema v schema'' v where
  rejections := forall₂_trans h.rejections h'.rejections fun _ _ _ hr hr' =>
    ⟨hr.code.trans hr'.code, hr.path.trans hr'.path, hr.site.trans hr'.site⟩
  parsed := rel_trans h.parsed h'.parsed fun _ _ _ hmade hmade' hstrict =>
    (hmade hstrict).trans (hmade' hstrict)

variable {edit : Schema → Schema → Prop}

/-- Agreement at the node that is edited is agreement for the tree around it. -/
theorem Schema.OneEdit.concur
    (hedit : ∀ s s', edit s s' → ∀ v, (recheck strict).Concur s v s' v)
    (hkey : ∀ s s', edit s s' → ∀ name, s'.verifyKey name = s.verifyKey name)
    (h : OneEdit edit schema schema') : ∀ v, (recheck strict).Concur schema v schema' v := by
  have hsame (s : Schema) :
      ∀ w w', (recheck strict).part w w' → (recheck strict).Concur s w s w' := by
    rintro w _ rfl
    exact concur_recheck_refl s w
  induction h with
  | here h => exact hedit _ _ h
  | element _ ih =>
    refine fun v => .array rfl rfl rfl ?_
    rintro w _ rfl
    exact ih w
  | position _ ih =>
    refine fun v => .tuple rfl rfl rfl (forall₂_replace hsame ?_ _ _)
    rintro w _ rfl
    exact ih w
  | field _ ih =>
    refine fun v => .object rfl rfl rfl (forall₂_replace (fun field => ⟨rfl, hsame field.2⟩) ?_ _ _)
    refine ⟨rfl, ?_⟩
    rintro w _ rfl
    exact ih w
  | @value info value value' key _ ih =>
    refine fun v => .record rfl rfl rfl ?_ ?_
    · cases key with
      | none => exact .none
      | some key => exact .some fun name => ⟨rfl, rfl⟩
    · rintro w _ rfl -
      exact ih w
  | @key info value key key' h _ =>
    refine fun v => .record rfl rfl rfl (.some fun name => ⟨?_, rfl⟩)
      fun w w' hw _ => hsame value w w' hw
    rcases h.verifyKey name with h | heq
    · exact (hkey _ _ h name).symm
    · exact heq.symm
  | alternative _ ih =>
    exact fun v => .union rfl rfl rfl (forall₂_replace (fun s => hsame s v v rfl) (ih v) _ _)

/-- It carries over to any number of edits. -/
theorem concur_of_edits (hedit : ∀ s s', edit s s' → ∀ v, (recheck strict).Concur s v s' v)
    (hkey : ∀ s s', edit s s' → ∀ name, s'.verifyKey name = s.verifyKey name)
    (h : Relation.ReflTransGen (OneEdit edit) schema schema') (v : Value) :
    (recheck strict).Concur schema v schema' v := by
  induction h with
  | refl => exact concur_recheck_refl schema v
  | tail _ hstep ih => exact concur_recheck_trans ih (hstep.concur hedit hkey v)

end

end Conform
