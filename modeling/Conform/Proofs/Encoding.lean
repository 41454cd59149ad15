import Conform.Proofs.Export

/-!
# Values handed to an encoder

An encoder is called once for each leaf, and for a container once to open it, once for every part
and once to close it. Any of these calls may fail. `Encoder.Lawful` asks of an encoder for JSON only
what it does with containers that take as many parts as were announced, so that it can be used for a
value only if every count is right: `announced_of_partOf_encode`.

`run_encode` goes through a value in step with `Value.toJson`. Both leave out the entries with
nothing under them, and a leaf that has no tree of its own becomes null in both.
-/

namespace Conform

/-- The calls of an encoder that makes trees; `σ` and `τ` are what it keeps of an open array and of
an open object. -/
structure Encoder (ε σ τ : Type) where
  unit : Except ε Json
  bool (b : Bool) : Except ε Json
  signed (n : Int64) : Except ε Json
  unsigned (n : UInt64) : Except ε Json
  float (x : Double) : Except ε Json
  text (t : String) : Except ε Json
  openItems (announced : Nat) : Except ε σ
  item (done : σ) (tree : Json) : Except ε σ
  closeItems (done : σ) : Except ε Json
  openEntries (announced : Nat) : Except ε τ
  entry (done : τ) (member : String × Json) : Except ε τ
  closeEntries (done : τ) : Except ε Json

namespace Encoder

variable {ε σ τ : Type} {encoder : Encoder ε σ τ}

mutual

/-- The calls for what is handed over, up to the first that fails. -/
def run (encoder : Encoder ε σ τ) : Encoded → Except ε Json
  | .unit => encoder.unit
  | .bool b => encoder.bool b
  | .signed n => encoder.signed n
  | .unsigned n => encoder.unsigned n
  | .float x => encoder.float x
  | .text t => encoder.text t
  | .items announced list => do
    let done ← encoder.openItems announced
    let done ← runItems encoder list done
    encoder.closeItems done
  | .entries announced list => do
    let done ← encoder.openEntries announced
    let done ← runEntries encoder list done
    encoder.closeEntries done

/-- The items are encoded one by one and handed to the open sequence. -/
def runItems (encoder : Encoder ε σ τ) : List Encoded → σ → Except ε σ
  | [], done => .ok done
  | item :: rest, done => do
    let tree ← run encoder item
    let done ← encoder.item done tree
    runItems encoder rest done

/-- What stands under each key is encoded and handed to the open mapping with its key. -/
def runEntries (encoder : Encoder ε σ τ) : List (String × Encoded) → τ → Except ε τ
  | [], done => .ok done
  | (key, value) :: rest, done => do
    let tree ← run encoder value
    let done ← encoder.entry done (key, tree)
    runEntries encoder rest done

end

/-- What is known of an encoder for JSON. Nothing is said of numbers that are not finite, nor of
containers that do not keep to the announced count. -/
structure Lawful (encoder : Encoder ε σ τ) : Prop where
  unit : encoder.unit = .ok .null
  bool (b : Bool) : encoder.bool b = .ok (.bool b)
  signed (n : Int64) : encoder.signed n = .ok (.scalar (.integer (.ofInt64 n)))
  unsigned (n : UInt64) : encoder.unsigned n = .ok (.scalar (.integer (.ofUInt64 n)))
  float (x : Double) (h : x.isFinite = true) : encoder.float x = .ok (.scalar (.float x h))
  text (t : String) : encoder.text t = .ok (.string t)
  items (trees : List Json) :
    (do
      let done ← encoder.openItems trees.length
      let done ← trees.foldlM encoder.item done
      encoder.closeItems done) = .ok (.array trees)
  /-- Objects are sorted, and the last of the members that share a key stays. -/
  entries (members : List (String × Json)) :
    (do
      let done ← encoder.openEntries members.length
      let done ← members.foldlM encoder.entry done
      encoder.closeEntries done) = .ok (.object (Entries.sorted members))

/-- If every item has a tree, the calls for all of them only hand these trees on. -/
theorem runItems_eq_foldlM {list : List Encoded} {trees : List Json}
    (h : List.Forall₂ (fun item tree => encoder.run item = .ok tree) list trees) (done : σ) :
    encoder.runItems list done = trees.foldlM encoder.item done := by
  induction h generalizing done with
  | nil => rfl
  | cons hitem _ ih =>
    rw [runItems, hitem, List.foldlM_cons]
    exact bind_congr ih

/-- Entries whose values are written one by one are a fold of `entry` over what they were written
as. -/
theorem runEntries_eq_foldlM {list : List (String × Encoded)} {members : List (String × Json)}
    (h : List.Forall₂ (fun entry member => member.1 = entry.1 ∧ encoder.run entry.2 = .ok member.2)
      list members) (done : τ) :
    encoder.runEntries list done = members.foldlM encoder.entry done := by
  induction h generalizing done with
  | nil => rfl
  | @cons entry member _ _ hentry _ ih =>
    obtain ⟨hkey, hvalue⟩ := hentry
    rw [runEntries, hvalue, ← hkey, List.foldlM_cons]
    exact bind_congr ih

end Encoder

/-! ## What is handed over -/

namespace Encoded

/-- The first is the second or is handed over as a part of it, at some depth. -/
inductive PartOf : Encoded → Encoded → Prop
  | self (e : Encoded) : PartOf e e
  | item {part item : Encoded} {announced : Nat} {list : List Encoded} (hmem : item ∈ list)
      (h : PartOf part item) : PartOf part (.items announced list)
  | entry {part : Encoded} {announced : Nat} {list : List (String × Encoded)}
      {entry : String × Encoded} (hmem : entry ∈ list) (h : PartOf part entry.2) :
      PartOf part (.entries announced list)

/-- A container announces as many parts as it hands over. -/
def Announced : Encoded → Prop
  | .items announced list => announced = list.length
  | .entries announced list => announced = list.length
  | _ => True

end Encoded

namespace Value

variable {items : List Value} {entries : List (String × Value)}

/-- The entries of a mapping that have something under them. -/
def present (entries : List (String × Value)) : List (String × Value) :=
  entries.filter fun entry => !entry.2.isAbsent

theorem mem_present {entry : String × Value} :
    entry ∈ present entries ↔ entry ∈ entries ∧ entry.2 ≠ .absent := by
  rw [present, List.mem_filter, Bool.not_eq_true', isAbsent_eq_false]

theorem entriesToJson_eq_map_present (entries : List (String × Value)) :
    entriesToJson entries = (present entries).map fun entry => (entry.1, entry.2.toJson) := by
  rw [entriesToJson_eq_filterMap, present, ← List.filterMap_eq_map, List.filterMap_filter]
  refine List.filterMap_congr fun entry _ => ?_
  cases entry.2.isAbsent <;> rfl

theorem encodeItems_eq_map (items : List Value) : encodeItems items = items.map encode := by
  induction items with
  | nil => rfl
  | cons item rest ih => rw [encodeItems, ih, List.map_cons]

theorem encodeEntries_eq_map_present (entries : List (String × Value)) :
    encodeEntries entries = (present entries).map fun entry => (entry.1, entry.2.encode) := by
  induction entries with
  | nil => rfl
  | cons entry rest ih =>
    rw [encodeEntries, ih]
    simp only [present, List.filter_cons]
    by_cases habsent : entry.2.isAbsent = true <;> simp [habsent]

theorem encode_sequence (items : List Value) :
    encode (.sequence items) = .items items.length (items.map encode) := by
  rw [encode, encodeItems_eq_map]

theorem encode_mapping (entries : List (String × Value)) :
    encode (.mapping entries) = .entries (present entries).length
      ((present entries).map fun entry => (entry.1, entry.2.encode)) := by
  rw [encode, encodeEntries_eq_map_present, List.countP_eq_length_filter, present]

/-- Nothing is lost on the way but absent values, so every mapping is handed over. -/
theorem partOf_encode {part v : Value} (h : PartOf part v) (hpart : part ≠ .absent) :
    Encoded.PartOf part.encode v.encode := by
  induction h with
  | self => exact .self _
  | item hmem _ ih =>
    rw [encode_sequence]
    exact .item (List.mem_map_of_mem hmem) ih
  | @entry entries entry hmem h ih =>
    have hentry : entry.2 ≠ .absent := by
      intro habsent
      rw [habsent, partOf_absent_iff] at h
      exact hpart h
    rw [encode_mapping]
    exact .entry (List.mem_map_of_mem (mem_present.mpr ⟨hmem, hentry⟩)) ih

theorem announced_of_partOf_encodeBigInt {part : Encoded} {n : BigInt}
    (h : Encoded.PartOf part (encodeBigInt n)) : part.Announced := by
  unfold encodeBigInt at h
  split at h <;> cases h <;> trivial

/-- In all that a value is encoded as, every count announced is the number of what follows. -/
theorem announced_of_partOf_encode {part : Encoded} {v : Value} :
    Encoded.PartOf part v.encode → part.Announced := by
  induction v using Value.induction with
  | leaf v hitems hentries =>
    intro h
    cases v with
    | absent | null | bool | string => cases h; trivial
    | number x =>
      rw [encode] at h
      split at h <;> cases h <;> trivial
    | bigInt n => exact announced_of_partOf_encodeBigInt h
    | sequence => simp [items?] at hitems
    | mapping => simp [entries?] at hentries
  | sequence items ih =>
    intro h
    rw [encode_sequence] at h
    cases h with
    | self => exact (List.length_map _).symm
    | item hmem h =>
      obtain ⟨item, hitem, rfl⟩ := List.mem_map.mp hmem
      exact ih item hitem h
  | mapping entries ih =>
    intro h
    rw [encode_mapping] at h
    cases h with
    | self => exact (List.length_map _).symm
    | entry hmem h =>
      obtain ⟨entry, hentry, rfl⟩ := List.mem_map.mp hmem
      exact ih entry (mem_present.mp hentry).1 h

end Value

/-! ## The tree of an encoder -/

namespace Encoder

variable {ε σ τ : Type} {encoder : Encoder ε σ τ}

theorem Lawful.run_encodeBigInt (h : encoder.Lawful) (n : BigInt) :
    encoder.run (Value.encodeBigInt n) = .ok (.ofBigInt n) := by
  rw [Value.encodeBigInt, Json.ofBigInt]
  cases n.toInt64? with
  | some word => exact h.signed word
  | none =>
    cases n.toUInt64? with
    | some word => exact h.unsigned word
    | none => exact h.text _

theorem Lawful.run_encode_number (h : encoder.Lawful) (x : Double) :
    encoder.run (Value.number x).encode = .ok (.ofDouble x) := by
  rw [Value.encode, Json.ofDouble]
  by_cases hx : x.isFinite = true
  · rw [if_pos hx, dif_pos hx]
    exact h.float x hx
  · rw [if_neg hx, dif_neg hx]
    exact h.unit

/-- A lawful encoder writes of any value the JSON tree of this value. -/
theorem Lawful.run_encode (h : encoder.Lawful) (v : Value) :
    encoder.run v.encode = .ok v.toJson := by
  induction v using Value.induction with
  | leaf v hitems hentries =>
    cases v with
    | absent | null => exact h.unit
    | bool b => exact h.bool b
    | number x => exact h.run_encode_number x
    | bigInt n => exact h.run_encodeBigInt n
    | string t => exact h.text t
    | sequence => simp [Value.items?] at hitems
    | mapping => simp [Value.entries?] at hentries
  | sequence items ih =>
    have hparts : List.Forall₂ (fun item tree => encoder.run item = .ok tree)
        (items.map Value.encode) (items.map Value.toJson) := by
      rw [List.forall₂_map_left_iff, List.forall₂_map_right_iff, List.forall₂_same]
      exact ih
    rw [Value.encode_sequence, run, Value.toJson, Value.itemsToJson_eq_map]
    simp only [runItems_eq_foldlM hparts]
    rw [← h.items, List.length_map]
  | mapping entries ih =>
    have hparts : List.Forall₂
        (fun entry member => member.1 = entry.1 ∧ encoder.run entry.2 = .ok member.2)
        ((Value.present entries).map fun entry => (entry.1, entry.2.encode))
        ((Value.present entries).map fun entry => (entry.1, entry.2.toJson)) := by
      rw [List.forall₂_map_left_iff, List.forall₂_map_right_iff, List.forall₂_same]
      exact fun entry hentry => ⟨rfl, ih entry (Value.mem_present.mp hentry).1⟩
    rw [Value.encode_mapping, run, Value.toJson, Value.entriesToJson_eq_map_present]
    simp only [runEntries_eq_foldlM hparts]
    rw [← h.entries, List.length_map]

/-- An encoder that takes counts for nothing and never fails. -/
def plain : Encoder Empty (List Json) (List (String × Json)) where
  unit := .ok .null
  bool b := .ok (.bool b)
  signed n := .ok (.scalar (.integer (.ofInt64 n)))
  unsigned n := .ok (.scalar (.integer (.ofUInt64 n)))
  float x := .ok (.ofDouble x)
  text t := .ok (.string t)
  openItems _ := .ok []
  item done tree := .ok (done ++ [tree])
  closeItems done := .ok (.array done)
  openEntries _ := .ok []
  entry done member := .ok (Entries.insert member.1 member.2 done)
  closeEntries done := .ok (.object done)

theorem foldlM_item_plain (trees done : List Json) :
    trees.foldlM plain.item done = .ok (done ++ trees) := by
  induction trees generalizing done with
  | nil => simp [pure, Except.pure]
  | cons tree rest ih =>
    calc (tree :: rest).foldlM plain.item done
        = rest.foldlM plain.item (done ++ [tree]) := rfl
      _ = .ok (done ++ tree :: rest) := by rw [ih, List.append_assoc, List.singleton_append]

theorem foldlM_entry_plain (members done : List (String × Json)) :
    members.foldlM plain.entry done =
      .ok (members.foldl (fun done member => Entries.insert member.1 member.2 done) done) := by
  induction members generalizing done with
  | nil => rfl
  | cons member rest ih => exact ih _

/-- The encoder into JSON trees keeps the laws, so they can be kept. -/
theorem lawful_plain : plain.Lawful where
  unit := rfl
  bool _ := rfl
  signed _ := rfl
  unsigned _ := rfl
  float x h := by simp [plain, Json.ofDouble, h]
  text _ := rfl
  items trees := by
    show (trees.foldlM plain.item [] >>= plain.closeItems) = _
    rw [foldlM_item_plain]
    rfl
  entries members := by
    show (members.foldlM plain.entry [] >>= plain.closeEntries) = _
    rw [foldlM_entry_plain]
    rfl

mutual

/-- `Encoded.toJson` is the tree of the plain encoder, but for the order of members. -/
theorem run_plain (e : Encoded) : plain.run e = .ok e.toJson.normalize := by
  cases e with
  | unit | bool | signed | unsigned | text => rfl
  | float x =>
    show Except.ok (Json.ofDouble x) = .ok (Json.ofDouble x).normalize
    unfold Json.ofDouble
    split <;> rfl
  | items announced list =>
    show (plain.runItems list [] >>= plain.closeItems) = _
    rw [runItems_plain, List.nil_append]
    rfl
  | entries announced list =>
    show (plain.runEntries list [] >>= plain.closeEntries) = _
    rw [runEntries_plain]
    rfl

theorem runItems_plain (list : List Encoded) (done : List Json) :
    plain.runItems list done = .ok (done ++ Json.normalizeItems (Encoded.itemsToJson list)) := by
  cases list with
  | nil => simp [runItems, Encoded.itemsToJson, Json.normalizeItems]
  | cons item rest =>
    rw [runItems, run_plain item]
    show plain.runItems rest (done ++ [item.toJson.normalize]) = _
    rw [runItems_plain rest, List.append_assoc]
    rfl

theorem runEntries_plain (list : List (String × Encoded)) (done : List (String × Json)) :
    plain.runEntries list done =
      .ok ((Json.normalizeMembers (Encoded.entriesToJson list)).foldl
        (fun done member => Entries.insert member.1 member.2 done) done) := by
  match list with
  | [] => rfl
  | (key, value) :: rest =>
    rw [runEntries, run_plain value]
    show plain.runEntries rest (Entries.insert key value.toJson.normalize done) = _
    rw [runEntries_plain rest]
    rfl

end

end Encoder

namespace Value

/-- What a value is encoded as, read as a JSON tree, is the JSON tree of the value. -/
theorem normalize_toJson_encode (v : Value) : v.encode.toJson.normalize = v.toJson := by
  have hplain := Encoder.run_plain v.encode
  rw [Encoder.lawful_plain.run_encode v] at hplain
  exact (Except.ok.inj hplain).symm

/-- **The two ways to JSON agree.** An encoder for JSON never fails on a value and makes the same
tree as `toJson`; every mapping is handed over, and what it announces is the number of entries that
follow. -/
theorem exports_agree {ε σ τ : Type} {encoder : Encoder ε σ τ} (h : encoder.Lawful) (v : Value) :
    encoder.run v.encode = .ok v.toJson ∧ v.encode.toJson.normalize = v.toJson ∧
    (∀ entries, PartOf (.mapping entries) v → ∃ written : List (String × Encoded),
      encode (.mapping entries) = .entries written.length written ∧
        Encoded.PartOf (.entries written.length written) v.encode) ∧
    ∀ part, Encoded.PartOf part v.encode → part.Announced := by
  refine ⟨h.run_encode v, normalize_toJson_encode v, ?_, fun part => announced_of_partOf_encode⟩
  intro entries hpart
  refine ⟨(present entries).map fun entry => (entry.1, entry.2.encode), ?_, ?_⟩
  · rw [encode_mapping, List.length_map]
  · rw [List.length_map, ← encode_mapping]
    exact partOf_encode hpart (by simp)

/-- An item and an entry with nothing in them, a number that is not finite, and a big integer on
either side of the largest word. -/
def hardlyJson : Value :=
  .sequence [.absent, .mapping [("b", .number .nan), ("a", .absent),
    ("A", .bigInt (.ofUnsigned 0x8000000000000000#64)),
    ("0", .bigInt (.ofUnsigned 0x10000000000000000#65))]]

theorem exports_agree_hardlyJson :
    Encoder.plain.Lawful ∧
    Encoder.plain.run hardlyJson.encode = .ok (.array [.null, .object [
      ("0", .string "18446744073709551616"),
      ("A", .scalar (.integer ⟨0x8000000000000000, by decide, by decide⟩)), ("b", .null)]]) ∧
    ∀ part, Encoded.PartOf part hardlyJson.encode → part.Announced := by
  obtain ⟨hrun, -, -, hannounced⟩ := exports_agree Encoder.lawful_plain hardlyJson
  have htree : hardlyJson.toJson = .array [.null, .object [
      ("0", .string "18446744073709551616"),
      ("A", .scalar (.integer ⟨0x8000000000000000, by decide, by decide⟩)), ("b", .null)]] := by
    rfl
  exact ⟨Encoder.lawful_plain, htree ▸ hrun, hannounced⟩

end Value

end Conform
