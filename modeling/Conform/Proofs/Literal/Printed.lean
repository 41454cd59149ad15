import Conform.Proofs.Equality
import Conform.Proofs.Json.Rendering
import Conform.Proofs.Literal.RoundTrip
import Conform.Proofs.Literal.Text

/-!
# Literals printed and read back

`toText` writes the literal of a schema with the fields of an object in the order of their
declaration, and `ofText` declares them in the order of the text. Nothing on the way sorts them: the
text has the very tree that was printed (`Json.treeOfText_render`), and this tree is read as the
very schema (`Literal.node_toLiteral`). The way through `toJson` gives up the order and keeps
equality only.

Strings, keys and integers are read back always, and a double if the reader of numbers, which rounds
more than once, happens to meet it again (`Json.ReadBack`). The doubles in a literal are the bounds
and constants of the schema (`mentions_of_toLiteral`), so it is these that have to be read back.

* `ofText_toText`: what is printed of a constructed schema is read as the same schema, if its
  numbers are read back.
-/

namespace Conform

namespace Json

theorem treeOfText_render {tree : Json} (hfloats : ∀ x, tree.Mentions x → ReadBack x)
    (h : tree.depth ≤ maxDepth) : treeOfText tree.render = .ok tree := by
  rw [treeOfText, tokens_render hfloats h]
  exact ofStream_after (advances_place .text tree)

end Json

namespace Literal

variable {x : Double} {member : String × Json}

theorem mem_member? {key : String} {value : Option Json} (h : member ∈ member? key value) :
    value = some member.2 := by
  cases value with
  | none => cases h
  | some value =>
    obtain rfl := List.mem_singleton.mp h
    rfl

/-! ## Numbers in a literal -/

theorem not_mentions_infoMembers {info : Info} (hmem : member ∈ infoMembers info) :
    ¬ member.2.Mentions x := by
  have hflag {key : String} {b : Bool} (h : member ∈ flag? key b) : member.2 = .bool true := by
    cases b with
    | false => cases h
    | true => exact congrArg Prod.snd (List.mem_singleton.mp h)
  rcases List.mem_append.mp hmem with hmem | hmem
  · have hvalue : member.2 = .bool true := (List.mem_append.mp hmem).elim hflag hflag
    rw [hvalue]
    exact Json.not_mentions_scalar nofun
  · obtain ⟨text, -, hvalue⟩ := Option.map_eq_some_iff.mp (mem_member? hmem)
    rw [← hvalue]
    exact Json.not_mentions_scalar nofun

/-- The numbers of a node stand under the keys of its kind. -/
theorem exists_own_of_mentions {kind : Kind} {own : List (String × Json)} {info : Info}
    (h : (nodeJson kind own info).Mentions x) : ∃ member ∈ own, member.2.Mentions x := by
  obtain ⟨member, hmem, hmentions⟩ := Json.mentions_object_iff.mp h
  rcases List.mem_append.mp hmem with hmem | hmem
  · rcases List.mem_cons.mp hmem with rfl | hmem
    · exact absurd hmentions (Json.not_mentions_scalar nofun)
    · exact ⟨member, hmem, hmentions⟩
  · exact absurd hmentions (not_mentions_infoMembers hmem)

theorem not_mentions_lengthMembers {length : Bounds UInt64} (hmem : member ∈ lengthMembers length) :
    ¬ member.2.Mentions x := by
  have hbound {key : String} {bound : Option UInt64}
      (h : member ∈ member? key (bound.map .ofUInt64)) : ∃ n, member.2 = .ofUInt64 n := by
    obtain ⟨n, -, hvalue⟩ := Option.map_eq_some_iff.mp (mem_member? h)
    exact ⟨n, hvalue.symm⟩
  obtain ⟨n, hvalue⟩ := (List.mem_append.mp hmem).elim hbound hbound
  rw [hvalue]
  exact Json.not_mentions_scalar nofun

theorem not_mentions_brand {brand : Option Brand}
    (hmem : member ∈ member? "brand" (brand.map brandJson)) : ¬ member.2.Mentions x := by
  obtain ⟨b, -, hvalue⟩ := Option.map_eq_some_iff.mp (mem_member? hmem)
  rw [← hvalue]
  intro h
  obtain ⟨item, hitem, hmentions⟩ := Json.mentions_array_iff.mp h
  rcases List.mem_cons.mp hitem with rfl | hitem
  · exact absurd hmentions (Json.not_mentions_scalar nofun)
  · obtain rfl := List.mem_singleton.mp hitem
    exact absurd hmentions (Json.not_mentions_scalar nofun)

/-- The doubles among the members of a leaf are its bounds or its constant. -/
theorem mem_numbers_of_mentions {l : Leaf} {brand : Option Brand}
    (hmem : member ∈ leafMembers l brand) (h : member.2.Mentions x) : x ∈ l.numbers := by
  rcases List.mem_append.mp hmem with hmem | hmem
  · cases l with
    | string length => exact absurd h (not_mentions_lengthMembers hmem)
    | number range =>
      have hbound {key : String} {bound : Option Double}
          (hmem : member ∈ member? key (bound.map .ofDouble)) : x ∈ bound.toList := by
        obtain ⟨y, hy, hvalue⟩ := Option.map_eq_some_iff.mp (mem_member? hmem)
        rw [← hvalue] at h
        rw [Json.eq_of_mentions_ofDouble h, hy]
        exact List.mem_singleton_self y
      rcases List.mem_append.mp hmem with hmem | hmem
      · exact List.mem_append_left _ (hbound hmem)
      · exact List.mem_append_right _ (hbound hmem)
    | bigint | boolean => cases hmem
    | literal value =>
      obtain rfl := List.mem_singleton.mp hmem
      cases value with
      | string text => exact absurd h (Json.not_mentions_scalar nofun)
      | number y => exact List.mem_singleton.mpr (Json.eq_of_mentions_ofDouble h)
  · exact absurd h (not_mentions_brand hmem)

end Literal

namespace Schema

open Literal

variable {x : Double}

theorem exists_of_mentions_toLiterals {schemas : List Schema} {key : String}
    (h : ∃ member ∈ [(key, Json.array (toLiterals schemas))], Json.Mentions x member.2) :
    ∃ schema ∈ schemas, schema.toLiteral.Mentions x := by
  obtain ⟨member, hmem, hmentions⟩ := h
  obtain rfl := List.mem_singleton.mp hmem
  rw [toLiterals_eq_map] at hmentions
  obtain ⟨item, hitem, hmentions⟩ := Json.mentions_array_iff.mp hmentions
  obtain ⟨schema, hschema, rfl⟩ := List.mem_map.mp hitem
  exact ⟨schema, hschema, hmentions⟩

/-- The numbers in the literal of a schema are its bounds and constants. -/
theorem mentions_of_toLiteral {schema : Schema} (h : schema.toLiteral.Mentions x) :
    schema.Mentions x := by
  induction schema using parts_induction with
  | h schema ih =>
    have hinside {part : Schema} (hmem : part ∈ schema.parts) (hpart : part.toLiteral.Mentions x) :
        schema.Mentions x := .inside hmem (ih part hmem hpart)
    cases schema with
    | leaf info l brand =>
      obtain ⟨member, hmem, hmentions⟩ := exists_own_of_mentions h
      exact .here (mem_numbers_of_mentions hmem hmentions)
    | array info element length =>
      obtain ⟨member, hmem, hmentions⟩ := exists_own_of_mentions h
      rcases List.mem_cons.mp hmem with rfl | hmem
      · exact hinside (List.mem_singleton_self element) hmentions
      · exact absurd hmentions (not_mentions_lengthMembers hmem)
    | tuple info positions =>
      obtain ⟨position, hmem, hposition⟩ := exists_of_mentions_toLiterals (exists_own_of_mentions h)
      exact hinside hmem hposition
    | object info fields =>
      obtain ⟨member, hmem, hmentions⟩ := exists_own_of_mentions h
      obtain rfl := List.mem_singleton.mp hmem
      rw [fieldLiterals_eq_map] at hmentions
      obtain ⟨literal, hliteral, hmentions⟩ := Json.mentions_object_iff.mp hmentions
      obtain ⟨field, hfield, rfl⟩ := List.mem_map.mp hliteral
      exact hinside (List.mem_map_of_mem hfield) hmentions
    | record info value key =>
      cases key with
      | none =>
        obtain ⟨member, hmem, hmentions⟩ := exists_own_of_mentions h
        obtain rfl := List.mem_singleton.mp hmem
        exact hinside List.mem_cons_self hmentions
      | some key =>
        obtain ⟨member, hmem, hmentions⟩ := exists_own_of_mentions h
        rcases List.mem_cons.mp hmem with rfl | hmem
        · exact hinside List.mem_cons_self hmentions
        · obtain rfl := List.mem_singleton.mp hmem
          exact hinside (key_mem_parts rfl) hmentions
    | union info alternatives =>
      obtain ⟨alternative, hmem, halternative⟩ :=
        exists_of_mentions_toLiterals (exists_own_of_mentions h)
      exact hinside hmem halternative

/-! ## The whole way -/

/-- **Printing keeps the order of fields.** A constructed schema with finite numbers, whose literal
is not nested deeper than a text may be and whose numbers are read back one by one, is read back
from its text as the same schema, and so gives every value the same answer, rejections in the same
order. -/
theorem ofText_toText {schema : Schema} (h : schema.Constructed) (hfinite : schema.FiniteNumbers)
    (hdepth : schema.toLiteral.depth ≤ Json.maxDepth)
    (hnumbers : ∀ x, schema.Mentions x → Json.ReadBack x) :
    ∃ schema', ofText schema.toText = .ok schema' ∧ schema' = schema ∧
      ∀ v, schema'.validate v = schema.validate v := by
  have hread := Literal.node_toLiteral h.wellFormed hfinite
  have htree : Json.treeOfText schema.toLiteral.render = .ok schema.toLiteral :=
    Json.treeOfText_render (fun x hx => hnumbers x (mentions_of_toLiteral hx)) hdepth
  have htext : ofText schema.toText = .ok schema :=
    ofText_eq_ok_iff.mpr ⟨schema.toLiteral, htree, hread⟩
  exact ⟨schema, htext, rfl, fun _ => rfl⟩

/-- A price between `0.1` and `99.95`, and a discount that can only be `0.5`. -/
def priced : Blueprint :=
  .mk .object
    [.field "unit" (.mk .string [.minLength 1, .brand ⟨"unit", "of"⟩]),
     .field "price" (.mk .number [.min (.nearest false 1 (-1)), .max (.nearest false 9995 (-2))]),
     .field "discount" (.mk (.literal (.number (.nearest false 5 (-1)))) [.optional])]

/-- The fields are not declared in the order of their names. -/
def priceFields : Schema :=
  .object .plain
    [("unit", .leaf .plain (.string ⟨some 1, none⟩) (some ⟨"unit", "of"⟩)),
     ("price", .leaf .plain
       (.number ⟨some (.nearest false 1 (-1)), some (.nearest false 9995 (-2))⟩) none),
     ("discount", .leaf ⟨true, false, none⟩ (.literal (.number (.nearest false 5 (-1)))) none)]

theorem build_priced : priced.build = .ok priceFields :=
  rfl

theorem mentions_priceFields_iff {x : Double} :
    priceFields.Mentions x ↔
      x = .nearest false 1 (-1) ∨ x = .nearest false 9995 (-2) ∨ x = .nearest false 5 (-1) := by
  simp [priceFields, mentions_object_iff, mentions_leaf_iff, Leaf.numbers, or_assoc]

theorem ofText_toText_priceFields :
    priceFields.Constructed ∧ priceFields.FiniteNumbers ∧
      priceFields.toLiteral.depth = 4 ∧
      (∀ x, priceFields.Mentions x → Json.ReadBack x) ∧
      ∃ schema', ofText priceFields.toText = .ok schema' ∧ schema' = priceFields ∧
        ∀ v, schema'.validate v = priceFields.validate v := by
  have hbuilt := Blueprint.constructed_of_build build_priced
  have hleast : (Double.nearest false 1 (-1)).isFinite = true := by decide +kernel
  have hmost : (Double.nearest false 9995 (-2)).isFinite = true := by decide +kernel
  have hhalf : (Double.nearest false 5 (-1)).isFinite = true := by decide +kernel
  have hfinite : priceFields.FiniteNumbers := by
    simp [priceFields, FiniteNumbers, FiniteNumbersFields, Leaf.FiniteNumbers, hleast, hmost, hhalf]
  have hdepth : priceFields.toLiteral.depth = 4 := by decide +kernel
  have hshallow : priceFields.toLiteral.depth ≤ Json.maxDepth := by
    rw [hdepth]
    decide
  have hnumbers (x : Double) (h : priceFields.Mentions x) : Json.ReadBack x := by
    -- all three are short: the longest text is that of `99.95`
    rcases mentions_priceFields_iff.mp h with rfl | rfl | rfl
    · exact Json.readBack_of_short hleast (by decide +kernel) (by decide +kernel)
    · exact Json.readBack_of_short hmost (by decide +kernel) (by decide +kernel)
    · exact Json.readBack_of_short hhalf (by decide +kernel) (by decide +kernel)
  exact ⟨hbuilt, hfinite, hdepth, hnumbers, ofText_toText hbuilt hfinite hshallow hnumbers⟩

end Schema

end Conform
