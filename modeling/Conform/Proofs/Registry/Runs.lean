import Conform.Proofs.Construction
import Conform.Proofs.Entries.Sorted
import Conform.Proofs.Text.Bytes
import Conform.Registry

/-!
# Runs of a registry

A registry is opened and then answers one request after the other (`Registry.run`). A request that
registers a schema (`Request.registration?`) writes this schema under its name, and every other
request, a literal that describes no schema included, leaves the registry as it is (`after_eq`). So
all that can be seen of a registry is told by the registrations so far (`Observed`).

* `Holds.after`, `Holds.run`: one request, and a run of them.
* `ofLiterals_eq_ok_iff`, `ofLiterals_of_ok`, `ofLiterals_of_error`: a registry of literals is the
  one that registers them in order, unless one of them describes no schema.
* `observed_of_registry`: the whole of it.
-/

namespace Conform

open Schema (Constructed)

namespace Registry

/-! ## Requests -/

/-- What a registry can be asked. -/
inductive Request where
  | register (name literal : String)
  | registerSchema (name : String) (schema : Schema)
  | validate (name : String) (payload : ByteArray)
  | validateValue (name : String) (subject : Value)
  | parse (name : String) (payload : ByteArray)
  | get (name : String)
  | has (name : String)
  | names
  | config

/-- The registry after a request. -/
def after (registry : Registry) : Request → Registry
  | .register name literal => (registry.register name literal).registry
  | .registerSchema name schema => (registry.registerSchema name schema).result
  | .validate .. | .validateValue .. | .parse .. => registry
  | .get _ | .has _ | .names | .config => registry

/-- The registry after all requests. -/
def run (registry : Registry) (requests : List Request) : Registry :=
  requests.foldl after registry

/-- How a registry is opened. -/
inductive Opening where
  | default
  | config (config : Config)
  | literals (literals : List (String × String))

namespace Opening

/-- The registry that is opened, or why there is none. -/
def registry : Opening → Except RegistryError Registry
  | default => .ok empty
  | config c => .ok (ofConfig c)
  | literals list => ofLiterals list

/-- The configuration that the registry is opened with. -/
def chosen : Opening → Config
  | default | literals _ => .default
  | config c => c

end Opening

/-! ## Registrations -/

/-- What the request registers, if it does. -/
def Request.registration? : Request → Option (String × Schema)
  | register name literal => (Schema.ofText literal).toOption.map fun schema => (name, schema)
  | registerSchema name schema => some (name, schema)
  | validate .. | validateValue .. | parse .. => none
  | get _ | has _ | names | config => none

/-- The literals of an opening are registered one by one. -/
def registrations (literals : List (String × String)) : List Request :=
  literals.map fun entry => .register entry.1 entry.2

/-- The registrations that the opening makes. -/
def Opening.requests : Opening → List Request
  | default | config _ => []
  | literals list => registrations list

/-- The schema of the last request that registers one under the name. -/
def latest? (name : String) (requests : List Request) : Option Schema :=
  Entries.get? name (requests.filterMap Request.registration?).reverse

/-- The last of the requests decides, if it registers the name. -/
theorem latest?_concat (name : String) (requests : List Request) (request : Request) :
    latest? name (requests ++ [request]) =
      (Entries.get? name request.registration?.toList).or (latest? name requests) := by
  rw [latest?, latest?, List.filterMap_append, List.reverse_append, Entries.get?_append]
  cases h : request.registration? <;> simp [h]

variable {registry : Registry} {name literal : String}

/-- A registration that fails hands the registry back as it was. -/
theorem register_of_error {fault : LiteralFault} (h : Schema.ofText literal = .error fault) :
    registry.register name literal = ⟨[], .error (.compileFailed name fault), registry⟩ := by
  rw [register, h]

/-- A literal that can be read is registered under the name, and one event says so. -/
theorem register_of_ok {schema : Schema} (h : Schema.ofText literal = .ok schema) :
    registry.register name literal =
      ⟨[.registered name schema.kind], .ok (), (registry.registerSchema name schema).result⟩ := by
  rw [register, h]
  rfl

/-- All that a request can do to a registry. -/
theorem after_eq (registry : Registry) (request : Request) :
    registry.after request = request.registration?.elim registry fun entry =>
      (registry.registerSchema entry.1 entry.2).result := by
  cases request with
  | register name literal =>
    rw [after, Request.registration?]
    cases h : Schema.ofText literal with
    | error fault =>
      rw [register_of_error h]
      rfl
    | ok schema =>
      rw [register_of_ok h]
      rfl
  | _ => rfl

/-- After a request the schema under a name is the one registered by it, or else the one before. -/
theorem get?_after (registry : Registry) (request : Request) (name : String) :
    (registry.after request).get? name =
      (Entries.get? name request.registration?.toList).or (registry.get? name) := by
  rw [after_eq]
  cases request.registration? with
  | none => rfl
  | some entry =>
    simp only [Option.elim_some, registerSchema, get?, Entries.get?_put, Option.toList_some,
      Entries.get?]
    split <;> rfl

/-! ## What a registry holds -/

/-- The registry holds the latest schemas that the requests register, one under each name. -/
structure Holds (registry : Registry) (config : Config) (requests : List Request) : Prop where
  get? : ∀ name, registry.get? name = latest? name requests
  distinct : (Entries.keys registry.schemas).Nodup
  config : registry.config = config

section

variable {config : Config} {requests : List Request}

theorem holds_ofConfig (config : Config) : Holds (ofConfig config) config [] where
  get? _ := rfl
  distinct := List.nodup_nil
  config := rfl

/-- The step of the run. -/
theorem Holds.after (h : Holds registry config requests) (request : Request) :
    Holds (registry.after request) config (requests ++ [request]) where
  get? name := by rw [get?_after, latest?_concat, h.get?]
  distinct := by
    rw [after_eq]
    cases request.registration? with
    | none => exact h.distinct
    | some entry => exact Entries.nodup_keys_put h.distinct
  config := by
    rw [after_eq]
    cases request.registration? <;> exact h.config

/-- What holds of a registry and its history holds after any further requests. -/
theorem Holds.run (h : Holds registry config requests) (more : List Request) :
    Holds (registry.run more) config (requests ++ more) := by
  induction more generalizing registry requests with
  | nil => simpa [Registry.run] using h
  | cons request rest ih => simpa [Registry.run] using ih (h.after request)

end

/-! ## Sorted names -/

theorem perm_names (registry : Registry) :
    registry.names.Perm (Entries.keys registry.schemas) :=
  List.mergeSort_perm _ _

theorem names_le (registry : Registry) : registry.names.Pairwise fun s t => s ≤ t := by
  have htrans (s t u : String) (hst : decide (s ≤ t) = true) (htu : decide (t ≤ u) = true) :
      decide (s ≤ u) = true :=
    decide_eq_true (String.le_trans (of_decide_eq_true hst) (of_decide_eq_true htu))
  have htotal (s t : String) : (decide (s ≤ t) || decide (t ≤ s)) = true := by
    simpa using String.le_total s t
  have hsorted := List.pairwise_mergeSort htrans htotal (Entries.keys registry.schemas)
  simpa only [names, decide_eq_true_eq] using hsorted

/-- Distinct names are sorted strictly. -/
theorem names_lt (h : (Entries.keys registry.schemas).Nodup) :
    registry.names.Pairwise fun s t => s < t := by
  have hdistinct : registry.names.Nodup := registry.perm_names.nodup_iff.mpr h
  refine registry.names_le.imp₂ (fun s t hle hne => ?_) hdistinct
  apply String.not_le.mp
  intro hge
  exact hne (String.le_antisymm hle hge)

/-- The order in which the schemas are kept does not show in the names. -/
theorem names_eq {other : Registry} (h : (Entries.keys registry.schemas).Nodup)
    (h' : (Entries.keys other.schemas).Nodup)
    (hget : ∀ name, registry.get? name = other.get? name) : registry.names = other.names := by
  have hperm : (Entries.keys registry.schemas).Perm (Entries.keys other.schemas) :=
    (Entries.perm_of_get? h h' hget).map _
  refine List.Perm.eq_of_pairwise (fun s t _ _ hst hts => String.le_antisymm hst hts)
    registry.names_le other.names_le ?_
  exact registry.perm_names.trans (hperm.trans other.perm_names.symm)

/-! ## Registries of literals -/

theorem foldlM_register_of_ok {literals : List (String × String)}
    (h : ∀ entry ∈ literals, ∃ schema, Schema.ofText entry.2 = .ok schema) (registry : Registry) :
    literals.foldlM (fun registry entry => (registry.register entry.1 entry.2).result) registry =
      .ok (registry.run (registrations literals)) := by
  induction literals generalizing registry with
  | nil => rfl
  | cons entry rest ih =>
    obtain ⟨⟨schema, hschema⟩, hrest⟩ := List.forall_mem_cons.mp h
    have hresult : (registry.register entry.1 entry.2).result =
        .ok (registry.after (.register entry.1 entry.2)) := by
      rw [after, register_of_ok hschema]
      rfl
    rw [List.foldlM_cons, hresult]
    exact ih hrest _

theorem ofLiterals_of_ok {literals : List (String × String)}
    (h : ∀ entry ∈ literals, ∃ schema, Schema.ofText entry.2 = .ok schema) :
    ofLiterals literals = .ok (empty.run (registrations literals)) :=
  foldlM_register_of_ok h empty

/-- The first literal that cannot be read decides the error. -/
theorem ofLiterals_of_error {before after : List (String × String)} {fault : LiteralFault}
    (hbefore : ∀ entry ∈ before, ∃ schema, Schema.ofText entry.2 = .ok schema)
    (h : Schema.ofText literal = .error fault) :
    ofLiterals (before ++ (name, literal) :: after) = .error (.compileFailed name fault) := by
  rw [ofLiterals, List.foldlM_append, foldlM_register_of_ok hbefore]
  simp only [bind, Except.bind, List.foldlM_cons, register_of_error h]
  rfl

/-- Either all literals describe schemas, or there is a first one that does not. -/
theorem all_or_first_error (literals : List (String × String)) :
    (∀ entry ∈ literals, ∃ schema, Schema.ofText entry.2 = .ok schema) ∨
      ∃ before name literal after fault, literals = before ++ (name, literal) :: after ∧
        (∀ entry ∈ before, ∃ schema, Schema.ofText entry.2 = .ok schema) ∧
        Schema.ofText literal = .error fault := by
  induction literals with
  | nil => exact .inl (by simp)
  | cons entry rest ih =>
    cases h : Schema.ofText entry.2 with
    | error fault => exact .inr ⟨[], entry.1, entry.2, rest, fault, rfl, by simp, h⟩
    | ok schema =>
      rcases ih with hall | ⟨before, name, literal, after, fault, rfl, hbefore, hfault⟩
      · exact .inl (List.forall_mem_cons.mpr ⟨⟨schema, h⟩, hall⟩)
      · exact .inr ⟨entry :: before, name, literal, after, fault, rfl,
          List.forall_mem_cons.mpr ⟨⟨schema, h⟩, hbefore⟩, hfault⟩

/-- A registry is opened from literals exactly when all of them can be read. -/
theorem ofLiterals_eq_ok_iff {literals : List (String × String)} :
    (∃ registry, ofLiterals literals = .ok registry) ↔
      ∀ entry ∈ literals, ∃ schema, Schema.ofText entry.2 = .ok schema := by
  constructor
  · rintro ⟨registry, h⟩
    rcases all_or_first_error literals with
      hall | ⟨before, name, literal, after, fault, rfl, hbefore, hfault⟩
    · exact hall
    · rw [ofLiterals_of_error hbefore hfault] at h
      cases h
  · exact fun h => ⟨_, ofLiterals_of_ok h⟩

theorem eq_run_of_ofLiterals {literals : List (String × String)}
    (h : ofLiterals literals = .ok registry) : registry = empty.run (registrations literals) := by
  rw [ofLiterals_of_ok (ofLiterals_eq_ok_iff.mp ⟨registry, h⟩), Except.ok.injEq] at h
  exact h.symm

/-- A registry that has just been opened. -/
theorem holds_of_opening {opening : Opening} (h : opening.registry = .ok registry) :
    Holds registry opening.chosen opening.requests := by
  cases opening with
  | default =>
    cases h
    exact holds_ofConfig .default
  | config c =>
    cases h
    exact holds_ofConfig c
  | literals list =>
    rw [eq_run_of_ofLiterals h]
    exact (holds_ofConfig .default).run (registrations list)

/-! ## What can be seen -/

/-- What can be seen of a registry with the configuration after the registrations among the
requests. -/
structure Observed (registry : Registry) (config : Config) (requests : List Request) : Prop where
  get? : ∀ name, registry.get? name = latest? name requests
  has : ∀ name, registry.has name = true ↔ ∃ schema, registry.get? name = some schema
  names : registry.names.Pairwise fun s t => Text.bytes s < Text.bytes t
  mem_names : ∀ name, name ∈ registry.names ↔ ∃ schema, registry.get? name = some schema
  config : registry.config = config

/-- What is observed of a registry follows from its history. -/
theorem Holds.observed {config : Config} {requests : List Request}
    (h : Holds registry config requests) : Observed registry config requests where
  get? := h.get?
  has _ := Option.isSome_iff_exists
  names := (names_lt h.distinct).imp Text.bytes_lt_bytes
  mem_names _ := (registry.perm_names.mem_iff.trans Entries.get?_isSome_iff.symm).trans
    Option.isSome_iff_exists
  config := h.config

/-- A registration that fails is reported under its name, and nothing that can be seen changes. -/
theorem register_refused (registry : Registry) (name : String) {fault : LiteralFault}
    (h : Schema.ofText literal = .error fault) :
    (registry.register name literal).outcome = .error (.compileFailed name fault) ∧
      (registry.register name literal).registry = registry ∧
      (registry.register name literal).events = [] ∧
      (RegistryError.compileFailed name fault).message =
        "failed to compile schema: " ++ (name ++ (": " ++ fault.message)) := by
  rw [register_of_error h]
  refine ⟨rfl, rfl, rfl, ?_⟩
  rw [← String.append_assoc, ← String.append_assoc]
  rfl

/-- **A registry shows its latest registrations.** So it does after any requests, however it was
opened; a literal that describes no schema is refused under its name, which changes nothing. A list
of literals opens the registry that registers them one by one, or fails with the first of them that
describes no schema. -/
theorem observed_of_registry {opening : Opening} (h : opening.registry = .ok registry)
    (requests : List Request) :
    Observed (registry.run requests) opening.chosen (opening.requests ++ requests) ∧
    (∀ name literal fault, Schema.ofText literal = .error fault →
      ((registry.run requests).register name literal).outcome =
          .error (.compileFailed name fault) ∧
        ((registry.run requests).register name literal).registry = registry.run requests ∧
        ((registry.run requests).register name literal).events = [] ∧
        (RegistryError.compileFailed name fault).message =
          "failed to compile schema: " ++ (name ++ (": " ++ fault.message))) ∧
    (∀ literals : List (String × String),
      ((∃ opened, ofLiterals literals = .ok opened) ↔
        ∀ entry ∈ literals, ∃ schema, Schema.ofText entry.2 = .ok schema) ∧
      (∀ opened, ofLiterals literals = .ok opened →
        opened = empty.run (registrations literals)) ∧
      ∀ before name literal after fault, literals = before ++ (name, literal) :: after →
        (∀ entry ∈ before, ∃ schema, Schema.ofText entry.2 = .ok schema) →
        Schema.ofText literal = .error fault →
        ofLiterals literals = .error (.compileFailed name fault)) := by
  refine ⟨((holds_of_opening h).run requests).observed, ?_, fun literals => ⟨?_, ?_, ?_⟩⟩
  · exact fun name literal fault hfault => register_refused _ name hfault
  · exact ofLiterals_eq_ok_iff
  · exact fun opened hopened => eq_run_of_ofLiterals hopened
  · rintro before name literal after fault rfl hbefore hfault
    exact ofLiterals_of_error hbefore hfault

/-! ### A registry of flags and labels -/

/-- Two names with their literals, the later name first. -/
def flagsAndLabels : List (String × String) :=
  [("label", "\x7b\"type\":\"string\"\x7d"), ("flag", "\x7b\"type\":\"boolean\"\x7d")]

/-- A request to replace the schema of labels fails, and one to replace that of flags does not. -/
def replacements : List Request :=
  [.register "label" "\x7b\x7d", .names, .registerSchema "flag" (.leaf .plain .bigint none),
    .validate "label" "1".toUTF8]

theorem registry_flagsAndLabels : (Opening.literals flagsAndLabels).registry =
    .ok ⟨.default, [("label", .leaf .plain (.string .unset) none),
      ("flag", .leaf .plain .boolean none)]⟩ := by
  have hlabel : Schema.ofText "\x7b\"type\":\"string\"\x7d" =
      .ok (.leaf .plain (.string .unset) none) := by
    simp only [Schema.ofText, Text.glyphs, String.reduceToList]
    rfl
  have hflag : Schema.ofText "\x7b\"type\":\"boolean\"\x7d" = .ok (.leaf .plain .boolean none) := by
    simp only [Schema.ofText, Text.glyphs, String.reduceToList]
    rfl
  simp only [flagsAndLabels, Opening.registry, ofLiterals, List.foldlM_cons, register_of_ok hlabel,
    register_of_ok hflag, List.foldlM_nil, bind, Except.bind]
  rfl

theorem ofText_kindless : Schema.ofText "\x7b\x7d" = .error (.missingKey "type") := by
  simp only [Schema.ofText, Text.glyphs, String.reduceToList]
  rfl

theorem observed_of_registry_flagsAndLabels :
    ∃ registry, (Opening.literals flagsAndLabels).registry = .ok registry ∧
      Observed (registry.run replacements) .default
        (registrations flagsAndLabels ++ replacements) ∧
      ((registry.run replacements).register "flag" "\x7b\x7d").registry =
        registry.run replacements ∧
      ofLiterals (flagsAndLabels ++ [("other", "\x7b\x7d"), ("more", "")]) =
        .error (.compileFailed "other" (.missingKey "type")) := by
  obtain ⟨hobserved, hrefused, hliterals⟩ :=
    observed_of_registry registry_flagsAndLabels replacements
  have hall := (hliterals flagsAndLabels).1.mp ⟨_, registry_flagsAndLabels⟩
  exact ⟨_, registry_flagsAndLabels, hobserved, (hrefused "flag" _ _ ofText_kindless).2.1,
    (hliterals _).2.2 flagsAndLabels "other" _ _ _ rfl hall ofText_kindless⟩

end Registry

end Conform
