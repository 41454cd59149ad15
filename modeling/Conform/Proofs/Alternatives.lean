import Conform.Proofs.Edits

/-!
# Unions as sets of alternatives

A union accepts what one of its alternatives accepts, and when none does it says so itself. So it
does not matter to acceptance or to rejections in which order the alternatives stand, whether one of
them stands there twice, or whether some are collected in a union of their own that exempts nothing.
What is parsed may depend on the order, as the first alternative that matches decides which entries
are left out, but these are entries with nothing under them, and the JSON tree does not show them.
Collecting alternatives changes no order and therefore nothing at all (`agree_of_unionEdits`).
-/

namespace Conform

open Schema

/-! ## Edits of unions -/

/-- An alternative that is a union without flags gives way to its own alternatives. -/
inductive Schema.Flattening : Schema → Schema → Prop
  | mk {info inner : Info} {before alternatives after : List Schema}
      (hoptional : inner.optional = false) (hnullable : inner.nullable = false) :
      Flattening (.union info (before ++ .union inner alternatives :: after))
        (.union info (before ++ (alternatives ++ after)))

/-- The alternatives of a union are put in another order, one of them is put in once more, or one of
them gives way to its own alternatives. -/
inductive Schema.UnionEdit : Schema → Schema → Prop
  | permute {info : Info} {alternatives alternatives' : List Schema}
      (h : alternatives.Perm alternatives') :
      UnionEdit (.union info alternatives) (.union info alternatives')
  | duplicate {info : Info} {before after : List Schema} {alternative : Schema}
      (hmem : alternative ∈ before ++ after) :
      UnionEdit (.union info (before ++ after)) (.union info (before ++ alternative :: after))
  | flatten {schema schema' : Schema} (h : Flattening schema schema') : UnionEdit schema schema'

namespace Schema

variable {schema schema' : Schema} {v : Value}

theorem Flattening.verifyKey_eq (h : Flattening schema schema') (name : String) :
    schema'.verifyKey name = schema.verifyKey name := by
  cases h
  rfl

theorem UnionEdit.verifyKey_eq (h : UnionEdit schema schema') (name : String) :
    schema'.verifyKey name = schema.verifyKey name := by
  cases h with
  | flatten h => exact h.verifyKey_eq name
  | _ => rfl

/-- No edit of a union brings in a schema that was not there. -/
theorem UnionEdit.distinctNames (h : UnionEdit schema schema') (hs : schema.DistinctNames) :
    schema'.DistinctNames := by
  intro info fields hpart
  cases h with
  | permute h =>
    cases hpart with
    | alternative hmem hpart => exact hs info fields (.alternative (h.mem_iff.mpr hmem) hpart)
  | duplicate hcopied =>
    cases hpart with
    | alternative hmem hpart =>
      rcases mem_middle.mp hmem with rfl | hmem
      · exact hs info fields (.alternative hcopied hpart)
      · exact hs info fields (.alternative hmem hpart)
  | flatten h =>
    cases h with
    | @mk _ inner before alternatives after _ _ =>
      cases hpart with
      | alternative hmem hpart =>
        simp only [List.mem_append] at hmem
        rcases hmem with hmem | hmem | hmem
        · exact hs info fields (.alternative (mem_middle.mpr (.inr (by simp [hmem]))) hpart)
        · have hinner : PartOf (.object info fields) (.union inner alternatives) :=
            .alternative hmem hpart
          exact hs info fields (.alternative (mem_middle.mpr (.inl rfl)) hinner)
        · exact hs info fields (.alternative (mem_middle.mpr (.inr (by simp [hmem]))) hpart)

end Schema

/-! ## Checks -/

section

variable {strict : Prop} {info : Info} {alternatives alternatives' : List Schema}
  {schema schema' : Schema} {v : Value}

theorem exempts_eq_false (hoptional : info.optional = false) (hnullable : info.nullable = false)
    (v : Value) : info.exempts v = false := by
  simp [Info.exempts, hoptional, hnullable]

theorem guard_union (h : info.exempts v = false) :
    guard (.union info alternatives) v =
      alternatives.any fun alternative => guard alternative v := by
  have haccepts (schema : Schema) :
      guard schema v = true ↔ (make .rebuild schema v).isSome = true := by
    rw [guard_iff_conforms, Option.isSome_iff_exists, exists_make_iff_conforms]
  rw [Bool.eq_iff_iff, haccepts, make_union h, List.findSome?_isSome_iff, List.any_eq_true]
  simp only [haccepts]

/-- Two unions concur if they accept together, and if the same is made of what they accept. -/
theorem concur_union
    (hguard : (alternatives.any fun alternative => guard alternative v) =
      alternatives'.any fun alternative => guard alternative v)
    (hmade : strict → (alternatives.findSome? fun alternative => make .rebuild alternative v) =
      alternatives'.findSome? fun alternative => make .rebuild alternative v) :
    (recheck strict).Concur (.union info alternatives) v (.union info alternatives') v := by
  refine .of_demands rfl rfl rfl (.of_forall₂ .nil) ?_ fun hexempt p p' hp hp' hstrict => ?_
  · rw [ownCode?, ownCode?, hguard]
  · have hexempt : info.exempts v = false := hexempt
    rw [make_union hexempt, hmade hstrict, ← make_union hexempt] at hp
    exact Option.some.inj (hp.symm.trans hp')

/-- A union inside a union may be replaced by its alternatives: verdict, value and errors stay the
same. -/
theorem Schema.Flattening.concur (h : Flattening schema schema') (v : Value) :
    (recheck strict).Concur schema v schema' v := by
  cases h with
  | @mk info inner before alternatives after hoptional hnullable =>
    have hinner := exempts_eq_false hoptional hnullable v
    refine concur_union ?_ fun _ => ?_
    · simp only [List.any_append, List.any_cons, guard_union hinner]
    · -- an inner union that exempts nothing hands on its first alternative that matches
      simp only [List.findSome?_append, List.findSome?_cons, make_union hinner]
      cases alternatives.findSome? fun alternative => make .rebuild alternative v <;> rfl

/-- Every edit of the alternatives keeps the verdict and where it is given. -/
theorem Schema.UnionEdit.concur (h : UnionEdit schema schema') (v : Value) :
    (recheck False).Concur schema v schema' v := by
  cases h with
  | permute h => exact concur_union h.any_eq False.elim
  | duplicate hmem =>
    refine concur_union ?_ False.elim
    rw [List.perm_middle.any_eq, List.any_cons, eq_comm, Bool.or_eq_right_iff_imp]
    exact fun hguard => List.any_eq_true.mpr ⟨_, hmem, hguard⟩
  | flatten h => exact h.concur v

/-- **A union is a set of alternatives, but for what parsing leaves out.** Schemas that differ in
the arrangement of unions accept the same values, and reject others with the same codes, at the same
paths and for the same subjects. What they parse has the same JSON tree, and where alternatives were
but taken out of inner unions it is the same value. -/
theorem agree_of_unionEdits (hs : schema.DistinctNames) (hv : v.DistinctKeys)
    (h : Relation.ReflTransGen (OneEdit UnionEdit) schema schema') :
    Agree Eq (List.Forall₂ Rejection.SamePlace) (schema.validate v) (schema'.validate v) ∧
      Agree (fun p p' => p.toJson = p'.toJson) (List.Forall₂ Rejection.SamePlace) (schema.parse v)
        (schema'.parse v) ∧
      (Relation.ReflTransGen (OneEdit Flattening) schema schema' →
        Agree Eq (List.Forall₂ Rejection.SamePlace) (schema.parse v) (schema'.parse v)) := by
  have hconcur := concur_of_edits (fun _ _ h => h.concur) (fun _ _ h => h.verifyKey_eq) h v
  have hs' : schema'.DistinctNames := distinctNames_of_edits (fun _ _ h => h.distinctNames) h hs
  refine ⟨hconcur.agree_validate rfl, ?_, fun hflat => ?_⟩
  · -- the two parsed values need not be equal, but both have the JSON tree of the subject
    refine Comparison.agree_of_rel_make hconcur.rejections
      (Comparison.rel_make hconcur.rejections fun p p' hp hp' => ?_)
    rw [(trimmed_of_make_rebuild hp hs hv).toJson_eq hv,
      (trimmed_of_make_rebuild hp' hs' hv).toJson_eq hv]
  · have hflat : (recheck True).Concur schema v schema' v :=
      concur_of_edits (fun _ _ h => h.concur) (fun _ _ h => h.verifyKey_eq) hflat v
    exact hflat.agree_parse.imp fun _ _ hmade => hmade trivial

end

/-! ## The pair of flags in another order -/

/-- The alternatives of `pairOfFlags`, the other way round. -/
def swappedPair : Schema :=
  .union .plain
    [.tuple .plain [.object .plain [("x", flag true)], .record .plain (flag false) none],
      .tuple .plain [.record .plain (flag false) none, .object .plain []]]

/-- The first alternative of `pairOfFlags` in a union of its own. -/
def nestedPair : Schema :=
  .union .plain
    [.union .plain [.tuple .plain [.record .plain (flag false) none, .object .plain []]],
      .tuple .plain [.object .plain [("x", flag true)], .record .plain (flag false) none]]

/-- Both alternatives take it. -/
def unsetAndEmpty : Value :=
  .sequence [unsetEntry "x", .mapping []]

theorem wellFormed_nestedPair : nestedPair.WellFormed := by
  simp [nestedPair, flag, WellFormed, WellFormedList, WellFormedFields, Entries.keys]

theorem distinctKeys_unsetAndEmpty : unsetAndEmpty.DistinctKeys := by
  simp [unsetAndEmpty, unsetEntry, Value.DistinctKeys, Value.DistinctKeysItems,
    Value.DistinctKeysEntries, Entries.keys]

theorem flattening_nestedPair : Flattening nestedPair pairOfFlags :=
  @Flattening.mk .plain .plain [] _ _ rfl rfl

theorem unionEdits_nestedPair : Relation.ReflTransGen (OneEdit UnionEdit) nestedPair swappedPair :=
  (Relation.ReflTransGen.single (.here (.flatten flattening_nestedPair))).tail
    (.here (.permute (.swap _ _ [])))

/-- The record leaves the entry out, the object keeps it. -/
theorem agree_of_unionEdits_pairOfFlags :
    nestedPair.DistinctNames ∧ unsetAndEmpty.DistinctKeys ∧
      Relation.ReflTransGen (OneEdit UnionEdit) nestedPair swappedPair ∧
      parse nestedPair unsetAndEmpty = .ok (.sequence [.mapping [], .mapping []]) ∧
      parse swappedPair unsetAndEmpty = .ok unsetAndEmpty ∧
      Agree (fun p p' => p.toJson = p'.toJson) (List.Forall₂ Rejection.SamePlace)
        (parse nestedPair unsetAndEmpty) (parse swappedPair unsetAndEmpty) ∧
      Relation.ReflTransGen (OneEdit Flattening) nestedPair pairOfFlags ∧
      Agree Eq (List.Forall₂ Rejection.SamePlace) (parse nestedPair unsetAndEmpty)
        (parse pairOfFlags unsetAndEmpty) := by
  have hnames := wellFormed_nestedPair.distinctNames
  have hflat : Relation.ReflTransGen (OneEdit Flattening) nestedPair pairOfFlags :=
    .single (.here flattening_nestedPair)
  have hedits : Relation.ReflTransGen (OneEdit UnionEdit) nestedPair pairOfFlags :=
    .single (.here (.flatten flattening_nestedPair))
  exact ⟨hnames, distinctKeys_unsetAndEmpty, unionEdits_nestedPair, rfl, rfl,
    (agree_of_unionEdits hnames distinctKeys_unsetAndEmpty unionEdits_nestedPair).2.1, hflat,
    (agree_of_unionEdits hnames distinctKeys_unsetAndEmpty hedits).2.2 hflat⟩

end Conform
