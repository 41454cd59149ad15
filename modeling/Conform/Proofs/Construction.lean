import Conform.Proofs.Double
import Conform.Proofs.Literal.Members
import Conform.Proofs.Schema
import Conform.Schema.Draft
import Conform.Schema.Literal.Text

/-!
# Constructed schemas

A schema comes from a literal, a tree or a text, or from a draft whose inner schemas have been
constructed before (`Schema.Constructed`). A reader completes a node only from nodes that have been
completed, and a draft takes up schemas only, so what holds of the parts holds of the whole.

* `Decoded.describable`: a schema from a literal is well-formed and has finite numbers only.
* `Constructed.wellFormed`: every constructed schema is well-formed.
* `Blueprint.constructed_of_build`: what a blueprint builds is constructed.
-/

namespace Conform

/-! ## Schemas from literals -/

/-- A schema that a literal can describe. -/
structure Schema.Describable (schema : Schema) : Prop where
  wellFormed : schema.WellFormed
  finiteNumbers : schema.FiniteNumbers

namespace Literal

/-- All schemas in what stands under `of` are describable, with names that are distinct. -/
def Contents.Describable : Contents → Prop
  | constant value => (Leaf.literal value).FiniteNumbers
  | one schema => schema.Describable
  | many schemas => ∀ schema ∈ schemas, schema.Describable
  | named fields => (Entries.keys fields).Nodup ∧ ∀ field ∈ fields, field.2.Describable

/-- All schemas that are read in the tree are describable. -/
def PartsDescribable (j : Json) : Prop :=
  ∀ part schema, Json.PartOf part j → node part = .ok schema → schema.Describable

theorem finite_of_number? {value : Json} {x : Double} (h : number? value = .ok (some x)) :
    x.isFinite = true := by
  unfold number? at h
  split at h <;> cases h
  · exact Double.isFinite_ofInt _
  · assumption

theorem finiteNumbers_of_constant {value : Json} {c : Constant} (h : constant value = .ok c) :
    (Leaf.literal c).FiniteNumbers := by
  unfold constant at h
  split at h <;> cases h
  · trivial
  · exact Double.isFinite_ofInt _
  · assumption

/-- What is read as the contents of a node, under `of`, is made of described parts. -/
theorem describable_of_contentsOf {kind : Kind} {value : Json} {contents : Contents}
    (hvalue : PartsDescribable value) (h : contentsOf kind value = .ok contents) :
    contents.Describable := by
  unfold contentsOf at h
  split at h
  · obtain ⟨c, hc, rfl⟩ := map_eq_ok.mp h
    exact finiteNumbers_of_constant hc
  · obtain ⟨schema, hschema, rfl⟩ := map_eq_ok.mp h
    exact hvalue value schema (.self _) hschema
  · obtain ⟨schemas, hschemas, rfl⟩ := map_eq_ok.mp h
    obtain ⟨items, rfl, hitems⟩ := nodesOf_eq_ok_iff.mp hschemas
    intro schema hmem
    obtain ⟨item, hitem, hnode⟩ := exists_of_mem_forall₂ (nodes_eq_ok_iff.mp hitems).flip hmem
    exact hvalue item schema (.item hitem (.self _)) hnode
  · -- a name may be repeated in a text, and then the last field of that name is kept
    obtain ⟨found, hfound, rfl⟩ := map_eq_ok.mp h
    obtain ⟨members, rfl, hmembers⟩ := fieldsOf_eq_ok_iff.mp hfound
    refine ⟨Entries.nodup_keys_collect found, fun field hfield => ?_⟩
    obtain ⟨member, hmember, -, hnode⟩ :=
      exists_of_mem_forall₂ (fields_eq_ok_iff.mp hmembers).flip (Entries.mem_of_mem_collect hfield)
    exact hvalue member.2 field.2 (.member hmember (.self _)) hnode

section

variable {members : List (String × Json)} {kind : Kind} {b : Body}

/-- A part of the body that is set was said by some member of the node. -/
theorem exists_said (hbody : body kind members .empty = .ok b) (slot : Slot)
    (hset : b.part slot ≠ slot.unset) :
    ∃ member ∈ members, partOf kind slot member.2 = .ok (b.part slot) := by
  rcases said_of_body Body.tidy_empty hbody slot with hunset | hsaid
  · exact absurd (hunset.trans (Body.part_empty slot)) hset
  · exact hsaid

theorem describable_contents (hparts : ∀ member ∈ members, PartsDescribable member.2)
    (hbody : body kind members .empty = .ok b) {contents : Contents}
    (h : b.contents = some contents) : contents.Describable := by
  have hset : b.contents ≠ none := by simp [h]
  obtain ⟨member, hmem, hsaid⟩ := exists_said hbody .contents hset
  have hread : (contentsOf kind member.2).map some = .ok (some contents) := h ▸ hsaid
  obtain ⟨_, hcontents, ⟨⟩⟩ := map_eq_ok.mp hread
  exact describable_of_contentsOf (hparts member hmem) hcontents

theorem describable_key (hparts : ∀ member ∈ members, PartsDescribable member.2)
    (hbody : body kind members .empty = .ok b) {key : Schema} (h : b.key = some key) :
    key.Describable := by
  have hset : b.key ≠ none := by simp [h]
  obtain ⟨member, hmem, hsaid⟩ := exists_said hbody .key hset
  have hread : keyOf member.2 = .ok (some key) := h ▸ hsaid
  rw [keyOf] at hread
  split at hread
  · cases hread
  · obtain ⟨_, hschema, ⟨⟩⟩ := map_eq_ok.mp hread
    exact hparts member hmem member.2 key (.self _) hschema

theorem finiteNumbers_range (hbody : body kind members .empty = .ok b) :
    (Leaf.number b.range).FiniteNumbers := by
  constructor
  · intro x hx
    have hset : b.range.min ≠ none := by simp [hx]
    obtain ⟨member, -, hsaid⟩ := exists_said hbody .min hset
    exact finite_of_number? (hx ▸ hsaid : number? member.2 = .ok (some x))
  · intro x hx
    have hset : b.range.max ≠ none := by simp [hx]
    obtain ⟨member, -, hsaid⟩ := exists_said hbody .max hset
    exact finite_of_number? (hx ▸ hsaid : number? member.2 = .ok (some x))

/-- A node is describable if its parts are. -/
theorem describable_of_complete {info : Info} {schema : Schema}
    (hparts : ∀ member ∈ members, PartsDescribable member.2)
    (hbody : body kind members .empty = .ok b) (h : complete info kind b = .ok schema) :
    schema.Describable := by
  obtain ⟨hassemble, hdefect⟩ := complete_eq_ok_iff.mp h
  unfold assemble at hassemble
  split at hassemble <;> cases hassemble
  · exact ⟨trivial, trivial⟩
  · exact ⟨trivial, finiteNumbers_range hbody⟩
  · exact ⟨trivial, trivial⟩
  · exact ⟨trivial, trivial⟩
  · rename_i value hcontents
    exact ⟨trivial, describable_contents hparts hbody hcontents⟩
  · rename_i element hcontents
    obtain ⟨hwell, hfinite⟩ := describable_contents hparts hbody hcontents
    exact ⟨hwell, hfinite⟩
  · rename_i positions hcontents
    have hall := describable_contents hparts hbody hcontents
    exact ⟨Schema.wellFormed_tuple.mpr fun position hmem => (hall position hmem).wellFormed,
      Schema.finiteNumbers_tuple.mpr fun position hmem => (hall position hmem).finiteNumbers⟩
  · rename_i fields hcontents
    obtain ⟨hnames, hall⟩ := describable_contents hparts hbody hcontents
    exact ⟨Schema.wellFormed_object.mpr ⟨hnames, fun field hmem => (hall field hmem).wellFormed⟩,
      Schema.finiteNumbers_object.mpr fun field hmem => (hall field hmem).finiteNumbers⟩
  · rename_i value hcontents
    obtain ⟨hwell, hfinite⟩ := describable_contents hparts hbody hcontents
    exact ⟨Schema.wellFormed_record.mpr ⟨hwell, Schema.defect?_record.mp hdefect⟩,
      Schema.finiteNumbers_record.mpr
        ⟨hfinite, fun key hkey => (describable_key hparts hbody hkey).finiteNumbers⟩⟩
  · rename_i alternatives hcontents
    have hall := describable_contents hparts hbody hcontents
    exact ⟨Schema.wellFormed_union.mpr ⟨Schema.defect?_union.mp hdefect,
        fun alternative hmem => (hall alternative hmem).wellFormed⟩,
      Schema.finiteNumbers_union.mpr fun alternative hmem => (hall alternative hmem).finiteNumbers⟩

end

/-- Every schema read from a JSON tree can be described by a literal again. -/
theorem describable_of_node {j : Json} {schema : Schema} (h : node j = .ok schema) :
    schema.Describable := by
  induction j using Json.strong_induction generalizing schema with
  | h j ih =>
    cases j with
    | scalar s => cases h
    | array items => cases h
    | object members =>
      have hparts : ∀ member ∈ members, PartsDescribable member.2 := by
        intro member hmem part schema hpart hschema
        exact ih part (Nat.lt_of_le_of_lt hpart.sizeOf_le (Json.sizeOf_member_lt hmem)) hschema
      simp only [node, bind_eq_ok] at h
      obtain ⟨header, -, kind, -, b, hbody, hcomplete⟩ := h
      exact describable_of_complete hparts hbody hcomplete

/-! ### Text -/

theorem describable_of_endNode {header : Header} {others : List (String × Json)} {schema : Schema}
    (h : endNode header others = .ok schema) : schema.Describable := by
  simp only [endNode, bind_eq_ok] at h
  obtain ⟨kind, -, b, hbody, hcomplete⟩ := h
  exact describable_of_complete (fun _ _ _ _ _ hnode => describable_of_node hnode) hbody hcomplete

/-- A node that is complete after a token has been read to its end. -/
theorem endNode_of_readToken {token : Json.Token} {reading : Reading} {schema : Schema}
    (h : readToken token reading = .ok (.complete schema)) :
    ∃ header others, endNode header others = .ok schema := by
  unfold readToken at h
  split at h
  · split at h
    · split at h
      · obtain ⟨_, -, h⟩ := bind_eq_ok.mp h
        cases h
      · cases h
    · rename_i header others _ _
      obtain ⟨schema', hend, h⟩ := bind_eq_ok.mp h
      cases h
      exact ⟨header, others, hend⟩
  · obtain ⟨_, -, h⟩ := bind_eq_ok.mp h
    cases h
  · split at h <;> cases h

theorem describable_of_readNode {stream : Json.Stream} {reading : Reading} {schema : Schema}
    (h : readNode reading stream = .ok schema) : schema.Describable := by
  induction stream generalizing reading with
  | done => cases h
  | fault f => cases h
  | next token rest ih =>
    obtain ⟨outcome, htoken, hrest⟩ := bind_eq_ok.mp h
    cases outcome with
    | pending reading => exact ih hrest
    | complete schema' =>
      obtain ⟨header, others, hend⟩ := endNode_of_readToken htoken
      dsimp only at hrest
      split at hrest <;> cases hrest
      exact describable_of_endNode hend

/-- So can every schema read from a text. -/
theorem describable_of_readLiteral {stream : Json.Stream} {schema : Schema}
    (h : readLiteral stream = .ok schema) : schema.Describable := by
  unfold readLiteral at h
  split at h
  · exact describable_of_readNode h
  all_goals cases h

end Literal

/-! ## Schemas from drafts -/

section

variable {σ τ : Type}

/-- The inner schemas of a start. -/
def Start.parts : Start σ → List σ
  | .array element => [element]
  | .tuple positions => positions
  | .record value => [value]
  | .union alternatives => alternatives
  | .string | .number | .bigint | .boolean | .literal _ | .object => []

/-- The inner schemas of a call. -/
def Call.parts : Call σ → List σ
  | .field _ schema | .key schema => [schema]
  | .optional | .nullable | .description _ | .brand _ | .minLength _ | .maxLength _ => []
  | .min _ | .max _ => []

end

namespace Draft

variable {d : Draft}

/-- What has been declared so far is in order. -/
structure Sound (d : Draft) : Prop where
  start : ∀ part ∈ d.start.parts, part.WellFormed
  names : (Entries.keys d.fields).Nodup
  fields : ∀ field ∈ d.fields, field.2.WellFormed

theorem sound_ofStart {start : Start Schema} (h : ∀ part ∈ start.parts, part.WellFormed) :
    (ofStart start).Sound where
  start := h
  names := by simp [ofStart, Entries.keys]
  fields := by simp [ofStart]

theorem Sound.assign (h : d.Sound) {assigned : Draft} (h' : assigned.Sound) (modifier : Modifier)
    (isSet : Bool) : (d.assign modifier isSet assigned).Sound := by
  cases isSet with
  | true => exact ⟨h.start, h.names, h.fields⟩
  | false => exact h'

/-- A builder call keeps a draft sound, whether it is recorded or diagnosed. -/
theorem Sound.call (h : d.Sound) {c : Call Schema} (hparts : ∀ part ∈ c.parts, part.WellFormed) :
    (d.call c).Sound := by
  cases c with
  | field name schema =>
    by_cases hname : Entries.has name d.fields = true
    · rw [Draft.call, if_pos hname]
      exact ⟨h.start, h.names, h.fields⟩
    · rw [Draft.call, if_neg hname]
      have hnew : name ∉ Entries.keys d.fields := mt Entries.has_iff.mpr hname
      refine ⟨h.start, ?_, ?_⟩
      · rw [Entries.keys_append]
        exact h.names.append (List.nodup_singleton name) (List.disjoint_singleton.mpr hnew)
      · intro field hmem
        rcases List.mem_append.mp hmem with hold | hlast
        · exact h.fields field hold
        · obtain rfl := List.mem_singleton.mp hlast
          exact hparts schema (List.mem_singleton.mpr rfl)
  | _ =>
    refine Sound.assign h ?_ _ _
    exact ⟨h.start, h.names, h.fields⟩

theorem sound_calls {calls : List (Call Schema)}
    (hparts : ∀ c ∈ calls, ∀ part ∈ c.parts, part.WellFormed) (h : d.Sound) :
    (calls.foldl Draft.call d).Sound := by
  induction calls generalizing d with
  | nil => exact h
  | cons c rest ih =>
    obtain ⟨hc, hrest⟩ := List.forall_mem_cons.mp hparts
    exact ih hrest (h.call hc)

/-- A sound draft builds nothing but well-formed schemas. -/
theorem wellFormed_of_build (h : d.Sound) {schema : Schema} (hbuild : d.build = .ok schema) :
    schema.WellFormed := by
  have hstart := h.start
  unfold build at hbuild
  split at hbuild
  · cases hbuild
  split at hbuild <;> cases hbuild
  rename_i hdefect
  unfold Draft.schema at hdefect ⊢
  split at hdefect <;> rename_i heq <;> simp only [heq, Start.parts] at hstart ⊢
  · trivial
  · trivial
  · trivial
  · trivial
  · trivial
  · have helement := List.forall_mem_singleton.mp hstart
    exact helement
  · exact Schema.wellFormed_tuple.mpr hstart
  · exact Schema.wellFormed_object.mpr ⟨h.names, h.fields⟩
  · exact Schema.wellFormed_record.mpr
      ⟨List.forall_mem_singleton.mp hstart, Schema.defect?_record.mp hdefect⟩
  · exact Schema.wellFormed_union.mpr ⟨Schema.defect?_union.mp hdefect, hstart⟩

end Draft

/-! ## Constructed schemas -/

namespace Schema

/-- The schema is read from a JSON tree or from a text. -/
inductive Decoded : Schema → Prop
  | tree {j : Json} {schema : Schema} (h : ofJson j = .ok schema) : Decoded schema
  | text {text : String} {schema : Schema} (h : ofText text = .ok schema) : Decoded schema

/-- The schema is decoded, or built by calls on a draft; the schemas that a draft starts from and
those that it is called with are constructed themselves. -/
inductive Constructed : Schema → Prop
  | decoded {schema : Schema} (h : Decoded schema) : Constructed schema
  | built {start : Start Schema} {calls : List (Call Schema)} {schema : Schema}
      (hstart : ∀ part ∈ start.parts, Constructed part)
      (hcalls : ∀ c ∈ calls, ∀ part ∈ c.parts, Constructed part)
      (h : (calls.foldl Draft.call (.ofStart start)).build = .ok schema) : Constructed schema

theorem Decoded.describable {schema : Schema} (h : Decoded schema) : schema.Describable := by
  cases h with
  | tree h => exact Literal.describable_of_node h
  | text h => exact Literal.describable_of_readLiteral h

/-- Every schema a program can construct is well formed, whichever way it was constructed. -/
theorem Constructed.wellFormed {schema : Schema} (h : Constructed schema) : schema.WellFormed := by
  induction h with
  | decoded h => exact h.describable.wellFormed
  | built hstart hcalls h ihstart ihcalls =>
    exact Draft.wellFormed_of_build (Draft.sound_calls ihcalls (Draft.sound_ofStart ihstart)) h

end Schema

/-! ### Blueprints -/

namespace Blueprint

open Schema (Constructed)

mutual

theorem constructed_of_build :
    ∀ {blueprint : Blueprint} {schema : Schema}, build blueprint = .ok schema → Constructed schema
  | .mk start calls, schema, h => by
    simp only [build, bind_eq_ok] at h
    obtain ⟨start', hstart, draft, hrun, hbuild⟩ := h
    obtain ⟨calls', hcalls, rfl⟩ := exists_calls_of_run hrun
    exact .built (constructed_of_buildStart hstart) hcalls hbuild

theorem constructed_of_buildStart : ∀ {start : Start Blueprint} {start' : Start Schema},
    buildStart start = .ok start' → ∀ part ∈ start'.parts, Constructed part
  | .string, _, h | .number, _, h | .bigint, _, h | .boolean, _, h | .object, _, h => by
    cases h
    simp [Start.parts]
  | .literal value, _, h => by
    cases h
    simp [Start.parts]
  | .array element, _, h => by
    obtain ⟨schema, hschema, h⟩ := bind_eq_ok.mp h
    cases h
    exact List.forall_mem_singleton.mpr (constructed_of_build hschema)
  | .tuple positions, _, h => by
    obtain ⟨schemas, hschemas, h⟩ := bind_eq_ok.mp h
    cases h
    exact constructed_of_buildList hschemas
  | .record value, _, h => by
    obtain ⟨schema, hschema, h⟩ := bind_eq_ok.mp h
    cases h
    exact List.forall_mem_singleton.mpr (constructed_of_build hschema)
  | .union alternatives, _, h => by
    obtain ⟨schemas, hschemas, h⟩ := bind_eq_ok.mp h
    cases h
    exact constructed_of_buildList hschemas

theorem constructed_of_buildList : ∀ {blueprints : List Blueprint} {schemas : List Schema},
    buildList blueprints = .ok schemas → ∀ schema ∈ schemas, Constructed schema
  | [], _, h => by
    cases h
    simp
  | blueprint :: rest, _, h => by
    obtain ⟨schema, hschema, h⟩ := bind_eq_ok.mp h
    obtain ⟨schemas, hrest, h⟩ := bind_eq_ok.mp h
    cases h
    exact List.forall_mem_cons.mpr ⟨constructed_of_build hschema, constructed_of_buildList hrest⟩

/-- A run of calls with blueprints in them is a run of calls with the schemas these build. -/
theorem exists_calls_of_run : ∀ {calls : List (Call Blueprint)} {draft draft' : Draft},
    run calls draft = .ok draft' → ∃ calls' : List (Call Schema),
      (∀ c ∈ calls', ∀ part ∈ c.parts, Constructed part) ∧ calls'.foldl Draft.call draft = draft'
  | [], _, _, h => by
    cases h
    exact ⟨[], by simp, rfl⟩
  | c :: rest, draft, _, h => by
    obtain ⟨c', hc, h⟩ := bind_eq_ok.mp h
    obtain ⟨calls', hparts, hfold⟩ := exists_calls_of_run h
    exact ⟨c' :: calls', List.forall_mem_cons.mpr ⟨constructed_of_buildCall hc, hparts⟩, hfold⟩

theorem constructed_of_buildCall : ∀ {c : Call Blueprint} {c' : Call Schema},
    buildCall c = .ok c' → ∀ part ∈ c'.parts, Constructed part
  | .optional, _, h | .nullable, _, h => by
    cases h
    simp [Call.parts]
  | .description _, _, h | .brand _, _, h | .minLength _, _, h | .maxLength _, _, h => by
    cases h
    simp [Call.parts]
  | .min _, _, h | .max _, _, h => by
    cases h
    simp [Call.parts]
  | .field name blueprint, _, h => by
    obtain ⟨schema, hschema, h⟩ := bind_eq_ok.mp h
    cases h
    exact List.forall_mem_singleton.mpr (constructed_of_build hschema)
  | .key blueprint, _, h => by
    obtain ⟨schema, hschema, h⟩ := bind_eq_ok.mp h
    cases h
    exact List.forall_mem_singleton.mpr (constructed_of_build hschema)

end

end Blueprint

end Conform
