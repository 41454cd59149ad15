import Conform.Proofs.Entries.Sorted
import Conform.Proofs.Parsed
import Conform.Proofs.Visit.Rejected

/-!
# Two schemas over two values

What a check of one value by one schema has in common with a check of another value by another
schema. A `Comparison` says when subjects count as related, when parsed values do and when the sites
of two rejections do; `Concur` says that both checks reject alike or accept with related parsed
values. For each kind of node one lemma leads from the parts to the whole (`Concur.array` and so
on), so that a relation between schemas is followed through a check by induction on the relation.

* `Concur.agree_validate`, `Concur.agree_parse`: what this says about the two calls.
-/

namespace Conform

open Schema

/-! ## Rejections, entries and results -/

/-- Rejections with one code at one path; `site` relates what rejected and what was rejected. -/
structure Rejection.Alike (site : Schema → Value → Schema → Value → Prop) (r r' : Rejection) :
    Prop where
  code : r.code = r'.code
  path : r.path = r'.path
  site : site r.schema r.subject r'.schema r'.subject

theorem Rejection.matched_foremost {order : Arrangement} {r : Rejection → Rejection → Prop}
    {parts parts' whole whole' : List Rejection} (hparts : Matched order r parts parts')
    (hwhole : Matched order r whole whole') :
    Matched order r (foremost parts whole) (foremost parts' whole') := by
  cases parts with
  | nil =>
    rw [hparts.eq_nil_iff.mp rfl]
    exact hwhole
  | cons part rest =>
    cases parts' with
    | nil => cases hparts.eq_nil_iff.mpr rfl
    | cons => exact hparts

theorem Rejection.Alike.under {site : Schema → Value → Schema → Value → Prop} {r r' : Rejection}
    (h : Alike site r r') (q : Path) : Alike site (r.under q) (r'.under q) where
  code := h.code
  path := congrArg (q ++ ·) h.path
  site := h.site

/-- Both calls succeed, with related results, or both fail, with related errors. -/
inductive Agree {ε ζ α β : Type} (value : α → β → Prop) (error : ε → ζ → Prop) :
    Except ε α → Except ζ β → Prop
  | ok {a : α} {b : β} (h : value a b) : Agree value error (.ok a) (.ok b)
  | error {e : ε} {e' : ζ} (h : error e e') : Agree value error (.error e) (.error e')

theorem Agree.imp {ε ζ α β : Type} {value value' : α → β → Prop} {error : ε → ζ → Prop}
    {x : Except ε α} {y : Except ζ β} (h : Agree value error x y)
    (hvalue : ∀ a b, value a b → value' a b) : Agree value' error x y := by
  cases h with
  | ok h => exact .ok (hvalue _ _ h)
  | error h => exact .error h

namespace Entries

variable {α β : Type} {order : Arrangement} {r : α → β → Prop} {xs : List (String × α)}
  {ys : List (String × β)}

/-- Related values under one key. -/
def Paired (r : α → β → Prop) (x : String × α) (y : String × β) : Prop :=
  y.1 = x.1 ∧ r x.2 y.2

theorem forall₂_paired_iff :
    List.Forall₂ (Paired r) xs ys ↔ keys ys = keys xs ∧ ∀ pair ∈ xs.zip ys, r pair.1.2 pair.2.2 :=
  forall₂_iff

theorem paired_of_flip {s : α → α → Prop} {x y : String × α} (h : flip (Paired (flip s)) x y) :
    Paired s x y :=
  ⟨h.1.symm, h.2⟩

theorem perm_keys_of_paired (h : Matched order (Paired r) xs ys) : (keys xs).Perm (keys ys) := by
  obtain ⟨zs, hzs, hperm⟩ := h.exists_forall₂
  rw [← (forall₂_paired_iff.mp hzs).1]
  exact hperm.map _

theorem has_eq_of_paired (h : Matched order (Paired r) xs ys) (key : String) :
    has key xs = has key ys := by
  rw [Bool.eq_iff_iff, has_iff, has_iff, (perm_keys_of_paired h).mem_iff]

/-- Paired entries agree under every key. -/
theorem get?_rel_of_paired (hkeys : (keys xs).Nodup) (h : Matched order (Paired r) xs ys)
    (key : String) : Option.Rel r (get? key xs) (get? key ys) := by
  obtain ⟨zs, hzs, hperm⟩ := h.exists_forall₂
  have hkeys' : (keys zs).Nodup := (forall₂_paired_iff.mp hzs).1 ▸ hkeys
  rw [← get?_eq_of_perm hkeys' hperm]
  clear h hperm hkeys hkeys'
  induction hzs with
  | nil => exact .none
  | @cons x z _ _ hxz _ ih =>
    obtain ⟨_, v⟩ := x
    obtain ⟨k, w⟩ := z
    obtain ⟨rfl, hvw⟩ := hxz
    by_cases hk : k = key
    · simp only [get?, hk, if_true]
      exact .some hvw
    · simp only [get?, hk, if_false]
      exact ih

end Entries

/-! ## Comparisons -/

/-- Values of one shape with related parts. -/
inductive Value.Faces (order : Arrangement) (part : Value → Value → Prop) : Value → Value → Prop
  | leaf {v : Value} (hitems : v.items? = none) (hentries : v.entries? = none) :
      Faces order part v v
  | sequence {items items' : List Value} (h : List.Forall₂ part items items') :
      Faces order part (.sequence items) (.sequence items')
  | mapping {entries entries' : List (String × Value)}
      (h : Matched order (Entries.Paired part) entries entries')
      (hget : ∀ key, Option.Rel part (Entries.get? key entries) (Entries.get? key entries')) :
      Faces order part (.mapping entries) (.mapping entries')

/-- What is asked of two checks: whether the order of entries and rejections counts, and how the
sites of rejections, the subjects and the parsed values are related. -/
structure Comparison where
  order : Arrangement
  site : Schema → Value → Schema → Value → Prop
  part : Value → Value → Prop
  made : Value → Value → Prop
  faces : ∀ {v w : Value}, part v w → v.Faces order part w
  absent : part .absent .absent
  leaf : ∀ {v w : Value}, part v w → made v w
  sequence : ∀ {items items' : List Value}, List.Forall₂ made items items' →
    made (.sequence items) (.sequence items')
  mapping : ∀ {entries entries' : List (String × Value)},
    Matched order (Entries.Paired made) entries entries' →
    made (.mapping entries) (.mapping entries')

theorem Value.Faces.isAbsent_eq {order : Arrangement} {part : Value → Value → Prop} {v w : Value}
    (h : v.Faces order part w) : w.isAbsent = v.isAbsent := by
  cases h <;> rfl

theorem Value.Faces.exempts_eq {order : Arrangement} {part : Value → Value → Prop} {v w : Value}
    (h : v.Faces order part w) (info : Info) : info.exempts v = info.exempts w := by
  cases h with
  | leaf => rfl
  | sequence => rw [exempts_sequence, exempts_sequence]
  | mapping => rw [exempts_mapping, exempts_mapping]

theorem Value.Faces.refl {order : Arrangement} (v : Value) : v.Faces order Eq v := by
  cases v with
  | sequence items => exact .sequence (List.forall₂_same.mpr fun _ _ => rfl)
  | mapping entries =>
    refine .mapping (.of_forall₂ (List.forall₂_same.mpr fun _ _ => ⟨rfl, rfl⟩)) fun key => ?_
    cases Entries.get? key entries with
    | none => exact .none
    | some v => exact .some rfl
  | _ => exact .leaf rfl rfl

theorem Value.sequence_eq_of_forall₂ {items items' : List Value}
    (h : List.Forall₂ Eq items items') : Value.sequence items = .sequence items' :=
  congrArg Value.sequence (List.forall₂_eq_eq_eq ▸ h)

theorem Value.mapping_eq_of_matched {entries entries' : List (String × Value)}
    (h : Matched .kept (Entries.Paired Eq) entries entries') :
    Value.mapping entries = .mapping entries' := by
  have heq : List.Forall₂ Eq entries entries' :=
    List.Forall₂.imp (fun _ _ hpair => Prod.ext hpair.1.symm hpair.2) h
  exact congrArg Value.mapping (List.forall₂_eq_eq_eq ▸ heq)

/-- One subject is checked twice, and comes out the same if it is accepted. -/
def Comparison.sameResult (site : Schema → Value → Schema → Value → Prop) : Comparison where
  order := .kept
  site := site
  part := Eq
  made := Eq
  faces h := h ▸ .refl _
  absent := rfl
  leaf h := h
  sequence := Value.sequence_eq_of_forall₂
  mapping := Value.mapping_eq_of_matched

namespace Schema

/-! ## Acceptance -/

/-- There are no errors exactly when the value is accepted. -/
theorem rejections_eq_nil_iff {schema : Schema} {v : Value} :
    rejections schema v = [] ↔ ∃ a, validate schema v = .ok a := by
  have herror : ∀ es, validate schema v = .error es → es ≠ [] :=
    fun _ hes => (validate_eq_error_iff.mp hes).2
  unfold rejections
  cases hv : validate schema v with
  | ok a => simp
  | error es => simp [herror es hv]

theorem guard_eq_true_iff_rejections {schema : Schema} {v : Value} :
    guard schema v = true ↔ rejections schema v = [] :=
  guard_eq_true.trans rejections_eq_nil_iff.symm

variable {α : Type} {policy : Policy α}

/-- No policy builds anything from a value with errors, and every one does otherwise. -/
theorem exists_make_iff_rejections {schema : Schema} {v : Value} :
    (∃ a, make policy schema v = some a) ↔ rejections schema v = [] := by
  have hshare : (∃ a, make .share schema v = some a) ↔ Conforms schema v := exists_make_iff_conforms
  rw [rejections_eq_nil_iff, exists_make_iff_conforms, ← hshare]
  exact exists_congr fun _ => make_share_eq_some

/-- A call ends with what is made of the value or with all that is said against it. -/
theorem outcome_visit (schema : Schema) (v : Value) :
    (visit policy schema v []).outcome =
      match make policy schema v with
      | some a => .ok a
      | none => .error (rejections schema v) := by
  have halike := visit_alike_any .share policy schema v []
  rw [rejections, validate, validateAt, concluded, make]
  generalize visit .share schema v [] = x at halike ⊢
  generalize visit policy schema v [] = y at halike ⊢
  cases halike with
  | accepted misses h => rfl
  | rejected misses es => simp [Visit.made, Except.toOption]

end Schema

theorem Leaf.reject?_sequence (l : Leaf) (items : List Value) :
    l.reject? (.sequence items) = some .invalidType := by
  cases l with
  | literal value => cases value <;> rfl
  | _ => rfl

theorem Leaf.reject?_mapping (l : Leaf) (entries : List (String × Value)) :
    l.reject? (.mapping entries) = some .invalidType := by
  cases l with
  | literal value => cases value <;> rfl
  | _ => rfl

/-! ## Two checks -/

/-- Both checks reject alike, or accept with related parsed values. -/
structure Comparison.Concur (C : Comparison) (s : Schema) (v : Value) (s' : Schema) (v' : Value) :
    Prop where
  rejections : Matched C.order (Rejection.Alike C.site) (s.rejections v) (s'.rejections v')
  parsed : Option.Rel C.made (make .rebuild s v) (make .rebuild s' v')

namespace Comparison

variable {C : Comparison} {s s' : Schema} {v v' : Value} {info info' : Info}

theorem Concur.guard_eq (h : C.Concur s v s' v') : s.guard v = s'.guard v' := by
  rw [Bool.eq_iff_iff, guard_eq_true_iff_rejections, guard_eq_true_iff_rejections]
  exact h.rejections.eq_nil_iff

theorem rel_make {α β : Type} {P : Policy α} {Q : Policy β} {r : α → β → Prop}
    (hrej : Matched C.order (Rejection.Alike C.site) (s.rejections v) (s'.rejections v'))
    (hmade : ∀ a b, make P s v = some a → make Q s' v' = some b → r a b) :
    Option.Rel r (make P s v) (make Q s' v') := by
  have hsome : (∃ a, make P s v = some a) ↔ ∃ b, make Q s' v' = some b := by
    rw [exists_make_iff_rejections, exists_make_iff_rejections, hrej.eq_nil_iff]
  generalize make P s v = made at hsome hmade ⊢
  generalize make Q s' v' = made' at hsome hmade ⊢
  cases made with
  | none =>
    cases made' with
    | none => exact .none
    | some b => simp at hsome
  | some a =>
    cases made' with
    | none => simp at hsome
    | some b => exact .some (hmade a b rfl rfl)

/-- Two nodes concur if what they demand does, and if they say the same by themselves. -/
theorem Concur.of_demands (hx : s.info.exempts v = s'.info.exempts v') (hv : C.part v v')
    (hsite : C.site s v s' v')
    (hdemands : Matched C.order
      (fun d d' => Matched C.order (Rejection.Alike C.site) d.rejections d'.rejections)
      (demands s v) (demands s' v'))
    (hown : ownCode? s v = ownCode? s' v')
    (hmade : s.info.exempts v = false → ∀ p p', make .rebuild s v = some p →
      make .rebuild s' v' = some p' → C.made p p') : C.Concur s v s' v' := by
  have hparts : Matched C.order (Rejection.Alike C.site) ((demands s v).flatMap Demand.rejections)
      ((demands s' v').flatMap Demand.rejections) := hdemands.flatMap fun _ _ h => h
  have hwhole : Matched C.order (Rejection.Alike C.site)
      ((ownCode? s v).toList.map fun code => ⟨code, [], s, v⟩)
      ((ownCode? s' v').toList.map fun code => ⟨code, [], s', v'⟩) := by
    rw [hown]
    refine .of_forall₂ ?_
    simp only [List.forall₂_map_left_iff, List.forall₂_map_right_iff]
    exact List.forall₂_same.mpr fun code _ => ⟨rfl, rfl, hsite⟩
  have hrej : Matched C.order (Rejection.Alike C.site) (s.rejections v) (s'.rejections v') := by
    rw [rejections_eq, rejections_eq, nodeRejections, nodeRejections, hx]
    split
    · exact .of_forall₂ .nil
    · exact Rejection.matched_foremost hparts hwhole
  refine ⟨hrej, rel_make hrej fun p p' hp hp' => ?_⟩
  cases hexempt : s.info.exempts v with
  | true =>
    rw [make_of_exempts hexempt] at hp
    rw [make_of_exempts (hx ▸ hexempt)] at hp'
    cases hp
    cases hp'
    exact C.leaf hv
  | false => exact hmade hexempt p p' hp hp'

/-- Neither value is of the kind that its node asks for. -/
theorem Concur.misfit (hx : s.info.exempts v = s'.info.exempts v') (hv : C.part v v')
    (hsite : C.site s v s' v') (hdemands : demands s v = []) (hdemands' : demands s' v' = [])
    (hown : ownCode? s v = some .invalidType) (hown' : ownCode? s' v' = some .invalidType) :
    C.Concur s v s' v' := by
  refine .of_demands hx hv hsite ?_ (hown.trans hown'.symm) fun hexempt p p' hp => ?_
  · rw [hdemands, hdemands']
    exact .of_forall₂ .nil
  · have hnone : s.rejections v = [] := exists_make_iff_rejections.mp ⟨p, hp⟩
    simp [rejections_eq, nodeRejections, hexempt, hdemands, hown, Rejection.foremost] at hnone

/-- Schemas that concur make matching errors under one more segment. -/
theorem Concur.part (h : C.Concur s v s' v') (segment : Segment) :
    Matched C.order (Rejection.Alike C.site) (Demand.part segment s v).rejections
      (Demand.part segment s' v').rejections :=
  h.rejections.map fun _ _ hr => hr.under [segment]

/-! ## Nodes -/

theorem Concur.leaf {l : Leaf} {brand brand' : Option Brand}
    (hx : info.exempts v = info'.exempts v') (hv : C.part v v')
    (hsite : C.site (.leaf info l brand) v (.leaf info' l brand') v') :
    C.Concur (.leaf info l brand) v (.leaf info' l brand') v' := by
  have hreject : l.reject? v = l.reject? v' := by
    cases C.faces hv with
    | leaf => rfl
    | sequence => rw [l.reject?_sequence, l.reject?_sequence]
    | mapping => rw [l.reject?_mapping, l.reject?_mapping]
  refine .of_demands hx hv hsite (.of_forall₂ .nil) hreject fun _ p p' hp hp' => ?_
  obtain ⟨-, rfl⟩ := make_leaf.mp hp
  obtain ⟨-, rfl⟩ := make_leaf.mp hp'
  exact C.leaf hv

theorem Concur.array {element element' : Schema} {length : Bounds UInt64}
    (hx : info.exempts v = info'.exempts v') (hv : C.part v v')
    (hsite : C.site (.array info element length) v (.array info' element' length) v')
    (h : ∀ w w', C.part w w' → C.Concur element w element' w') :
    C.Concur (.array info element length) v (.array info' element' length) v' := by
  cases C.faces hv with
  | leaf hitems _ =>
    cases v with
    | sequence => simp [Value.items?] at hitems
    | _ => exact .misfit hx hv hsite rfl rfl rfl rfl
  | mapping => exact .misfit hx hv hsite rfl rfl rfl rfl
  | @sequence items items' hitems =>
    have hall : List.Forall₂ (fun item item' => C.Concur element item element' item') items
        items' := hitems.imp h
    refine .of_demands hx hv hsite ?_ ?_ fun _ p p' hp hp' => ?_
    · refine .of_forall₂ ?_
      simp only [demands, List.forall₂_map_left_iff, List.forall₂_map_right_iff]
      refine (forall₂_zipIdx hall 0).imp fun item item' hitem => ?_
      rw [hitem.1]
      exact hitem.2.part _
    · rw [ownCode?, ownCode?, hitems.length_eq]
    · obtain ⟨parts, hparts, -, rfl⟩ := make_array.mp hp
      obtain ⟨parts', hparts', -, rfl⟩ := make_array.mp hp'
      exact C.sequence (forall₂_results (hall.imp fun _ _ h => h.parsed) hparts hparts')

theorem Concur.tuple {positions positions' : List Schema}
    (hx : info.exempts v = info'.exempts v') (hv : C.part v v')
    (hsite : C.site (.tuple info positions) v (.tuple info' positions') v')
    (h : List.Forall₂ (fun position position' => ∀ w w', C.part w w' →
      C.Concur position w position' w') positions positions') :
    C.Concur (.tuple info positions) v (.tuple info' positions') v' := by
  cases C.faces hv with
  | leaf hitems _ =>
    cases v with
    | sequence => simp [Value.items?] at hitems
    | _ => exact .misfit hx hv hsite rfl rfl rfl rfl
  | mapping => exact .misfit hx hv hsite rfl rfl rfl rfl
  | @sequence items items' hitems =>
    have hall : List.Forall₂ (fun pair pair' => C.Concur pair.1 pair.2 pair'.1 pair'.2)
        (positions.zip items) (positions'.zip items') :=
      (forall₂_zip_zip h hitems).imp fun _ _ hpair => hpair.1 _ _ hpair.2
    refine .of_demands hx hv hsite ?_ ?_ fun _ p p' hp hp' => ?_
    · rw [demands, demands, ← hitems.length_eq, ← h.length_eq]
      split
      · refine .of_forall₂ ?_
        simp only [List.forall₂_map_left_iff, List.forall₂_map_right_iff]
        refine (forall₂_zipIdx hall 0).imp fun pair pair' hpair => ?_
        rw [hpair.1]
        exact hpair.2.part _
      · exact .of_forall₂ .nil
    · rw [ownCode?, ownCode?, hitems.length_eq, h.length_eq]
    · obtain ⟨-, parts, hparts, rfl⟩ := make_tuple.mp hp
      obtain ⟨-, parts', hparts', rfl⟩ := make_tuple.mp hp'
      exact C.sequence (forall₂_results (hall.imp fun _ _ h => h.parsed) hparts hparts')

theorem Concur.object {fields fields' : List (String × Schema)}
    (hx : info.exempts v = info'.exempts v') (hv : C.part v v')
    (hsite : C.site (.object info fields) v (.object info' fields') v')
    (h : Matched C.order (Entries.Paired fun field field' => ∀ w w', C.part w w' →
      C.Concur field w field' w') fields fields') :
    C.Concur (.object info fields) v (.object info' fields') v' := by
  cases C.faces hv with
  | leaf _ hentries =>
    cases v with
    | mapping => simp [Value.entries?] at hentries
    | _ => exact .misfit hx hv hsite rfl rfl rfl rfl
  | sequence => exact .misfit hx hv hsite rfl rfl rfl rfl
  | @mapping entries entries' hentries hget =>
    have hundeclared : hasUndeclared fields entries = hasUndeclared fields' entries' := by
      refine hentries.any_eq fun entry entry' hentry => ?_
      rw [hentry.1, Entries.has_eq_of_paired h]
    refine .of_demands hx hv hsite ?_ ?_ fun _ p p' hp hp' => ?_
    · refine h.map fun field field' hfield => ?_
      obtain ⟨hname, hfield⟩ := hfield
      rw [hname]
      exact (hfield _ _ (rel_getD (hget field.1) C.absent)).part _
    · rw [ownCode?, ownCode?, hundeclared]
    · obtain ⟨-, -, rfl⟩ := make_object.mp hp
      obtain ⟨-, -, rfl⟩ := make_object.mp hp'
      refine C.mapping (h.filterMap fun field field' hfield => ?_)
      obtain ⟨hname, hfield⟩ := hfield
      rw [hname]
      exact rel_bind (hget field.1) fun _ _ hpart =>
        rel_map (hfield _ _ hpart).parsed fun _ _ hmade => ⟨rfl, hmade⟩

theorem Concur.record {value value' : Schema} {key key' : Option Schema}
    (hx : info.exempts v = info'.exempts v') (hv : C.part v v')
    (hsite : C.site (.record info value key) v (.record info' value' key') v')
    (hkey : Option.Rel (fun k k' => ∀ name, k.verifyKey name = k'.verifyKey name ∧
      C.site k (.string name) k' (.string name)) key key')
    (h : ∀ w w', C.part w w' → w.isAbsent = false → C.Concur value w value' w') :
    C.Concur (.record info value key) v (.record info' value' key') v' := by
  cases C.faces hv with
  | leaf _ hentries =>
    cases v with
    | mapping => simp [Value.entries?] at hentries
    | _ => exact .misfit hx hv hsite rfl rfl rfl rfl
  | sequence => exact .misfit hx hv hsite rfl rfl rfl rfl
  | @mapping entries entries' hentries _ =>
    refine .of_demands hx hv hsite ?_ rfl fun _ p p' hp hp' => ?_
    · refine hentries.flatMap fun entry entry' hentry => ?_
      obtain ⟨hname, hpart⟩ := hentry
      rw [entryDemands, entryDemands, hname, (C.faces hpart).isAbsent_eq]
      refine .append ?_ ?_
      · cases hkey with
        | none => exact .of_forall₂ .nil
        | some hkey =>
          refine .of_forall₂ (.cons ?_ .nil)
          obtain ⟨hverify, hsite⟩ := hkey entry.1
          rw [Demand.rejections, Demand.rejections, hverify]
          generalize Schema.verifyKey _ _ = code
          cases code with
          | none => exact .of_forall₂ .nil
          | some code => exact .of_forall₂ (.cons ⟨rfl, rfl, hsite⟩ .nil)
      · cases hpresent : entry.2.isAbsent with
        | true => exact .of_forall₂ .nil
        | false => exact .of_forall₂ (.cons ((h _ _ hpart hpresent).part _) .nil)
    · obtain ⟨-, rfl⟩ := make_record.mp hp
      obtain ⟨-, rfl⟩ := make_record.mp hp'
      refine C.mapping (hentries.filterMap fun entry entry' hentry => ?_)
      obtain ⟨hname, hpart⟩ := hentry
      rw [hname, (C.faces hpart).isAbsent_eq]
      cases hpresent : entry.2.isAbsent with
      | true => exact .none
      | false =>
        have hparsed := (h _ _ hpart hpresent).parsed
        have hpresent' := (C.faces hpart).isAbsent_eq.trans hpresent
        generalize hmake : make .rebuild value entry.2 = parsed at hparsed ⊢
        generalize hmake' : make .rebuild value' entry'.2 = parsed' at hparsed ⊢
        cases hparsed with
        | none => exact .none
        | @some a b hmade =>
          -- only what was absent is made an absent value
          have hkept : Policy.rebuild.drops a = false :=
            (isAbsent_of_make_rebuild hmake).trans hpresent
          have hkept' : Policy.rebuild.drops b = false :=
            (isAbsent_of_make_rebuild hmake').trans hpresent'
          simp only [Option.bind_some, hkept, hkept', Bool.false_eq_true, if_false]
          exact .some ⟨rfl, hmade⟩

theorem Concur.union {alternatives alternatives' : List Schema}
    (hx : info.exempts v = info'.exempts v') (hv : C.part v v')
    (hsite : C.site (.union info alternatives) v (.union info' alternatives') v')
    (h : List.Forall₂ (fun alternative alternative' => C.Concur alternative v alternative' v')
      alternatives alternatives') :
    C.Concur (.union info alternatives) v (.union info' alternatives') v' := by
  have hmatched : Matched .kept
      (fun alternative alternative' => C.Concur alternative v alternative' v') alternatives
      alternatives' := h
  have hguard : (alternatives.any fun alternative => guard alternative v) =
      alternatives'.any fun alternative => guard alternative v' :=
    hmatched.any_eq fun _ _ h => h.guard_eq
  -- what alternatives say is left out, so all that shows is whether one of them accepts
  refine .of_demands hx hv hsite (.of_forall₂ .nil) ?_ fun hexempt p p' hp hp' => ?_
  · rw [ownCode?, ownCode?, hguard]
  · have hexempt : info.exempts v = false := hexempt
    rw [make_union hexempt] at hp
    rw [make_union (hx ▸ hexempt)] at hp'
    have hfirst := findSome?_rel (h.imp fun _ _ h => h.parsed)
    rw [hp, hp'] at hfirst
    cases hfirst with
    | some hmade => exact hmade

/-! ## Calls -/

theorem agree_of_rel_make {α β : Type} {P : Policy α} {Q : Policy β} {r : α → β → Prop}
    (hrej : Matched C.order (Rejection.Alike C.site) (s.rejections v) (s'.rejections v'))
    (hmade : Option.Rel r (make P s v) (make Q s' v')) :
    Agree r (Matched C.order (Rejection.Alike C.site)) (visit P s v []).outcome
      (visit Q s' v' []).outcome := by
  rw [outcome_visit, outcome_visit]
  generalize make P s v = made at hmade ⊢
  generalize make Q s' v' = made' at hmade ⊢
  cases hmade with
  | none => exact .error hrej
  | some h => exact .ok h

theorem Concur.agree_validate {r : Value → Value → Prop} (h : C.Concur s v s' v') (hv : r v v') :
    Agree r (Matched C.order (Rejection.Alike C.site)) (s.validate v) (s'.validate v') := by
  refine agree_of_rel_make h.rejections (rel_make h.rejections fun a b ha hb => ?_)
  obtain rfl := eq_of_make_share ha
  obtain rfl := eq_of_make_share hb
  exact hv

theorem Concur.agree_parse (h : C.Concur s v s' v') :
    Agree C.made (Matched C.order (Rejection.Alike C.site)) (s.parse v) (s'.parse v') :=
  agree_of_rel_make h.rejections h.parsed

end Comparison

end Conform
