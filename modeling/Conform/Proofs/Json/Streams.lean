import Conform.Proofs.Json
import Conform.Proofs.Json.Tokens

/-!
# The tokens of a tree

`toTokens` lists what a text of the tree is scanned as. Frames hold what earlier tokens have led to
(`framesTokens`), and each token that fits adds itself to this list (`toTokens_feed`), so a tree is
only put together from its own tokens; and it is, wherever a value is due (`advances_place`).

* `ofStream_eq_ok_iff`: a stream whose tokens fit has a tree exactly if it consists of the tokens of
  this tree.
-/

namespace Conform.Json

mutual

/-- The tokens that a tree is put together from. -/
def toTokens : Json → List Token
  | .scalar s => [.scalar s]
  | .array items => .openArray :: (itemsTokens items ++ [.close])
  | .object members => .openObject :: (membersTokens members ++ [.close])

/-- The tokens of the items, one after the other. -/
def itemsTokens : List Json → List Token
  | [] => []
  | item :: rest => toTokens item ++ itemsTokens rest

/-- The tokens of the members, each behind its key. -/
def membersTokens : List (String × Json) → List Token
  | [] => []
  | (key, value) :: rest => .key key :: (toTokens value ++ membersTokens rest)

end

theorem itemsTokens_eq_flatMap (items : List Json) :
    itemsTokens items = items.flatMap toTokens := by
  induction items with
  | nil => rfl
  | cons item rest ih => rw [itemsTokens, ih, List.flatMap_cons]

theorem membersTokens_eq_flatMap (members : List (String × Json)) :
    membersTokens members = members.flatMap fun member => .key member.1 :: member.2.toTokens := by
  induction members with
  | nil => rfl
  | cons member rest ih => rw [membersTokens, ih, List.flatMap_cons, List.cons_append]

theorem itemsTokens_append (items items' : List Json) :
    itemsTokens (items ++ items') = itemsTokens items ++ itemsTokens items' := by
  simp only [itemsTokens_eq_flatMap, List.flatMap_append]

theorem membersTokens_append (members members' : List (String × Json)) :
    membersTokens (members ++ members') = membersTokens members ++ membersTokens members' := by
  simp only [membersTokens_eq_flatMap, List.flatMap_append]

/-! ## Tokens that have led to frames -/

/-- The tokens that have opened a container and filled it so far. -/
def Frame.toTokens : Frame → List Token
  | .array items => .openArray :: itemsTokens items.reverse
  | .object members => .openObject :: membersTokens members.reverse
  | .member members key => .openObject :: (membersTokens members.reverse ++ [.key key])

/-- The tokens of all open containers, the outermost first. -/
def framesTokens : List Frame → List Token
  | [] => []
  | frame :: outer => framesTokens outer ++ frame.toTokens

/-- The tokens that have led there. -/
def Progress.toTokens : Progress → List Token
  | .pending frames => framesTokens frames
  | .complete tree => tree.toTokens

/-- A value is due below the innermost frame. -/
def Nested : List Frame → Prop
  | [] => True
  | _ :: outer => Receptive outer

/-- As long as the tree is not complete, the frames fit into one another. -/
def Progress.Nested : Progress → Prop
  | .pending frames => Json.Nested frames
  | .complete _ => True

variable {frames : List Frame} {token : Token} {tree : Json} {stream : Stream}

theorem Nested.receptive (h : Nested frames) (hfits : Fits frames token) (hbegins : token.Begins) :
    Receptive frames := by
  cases frames with
  | nil => exact .text
  | cons frame outer =>
    cases frame with
    | array items => exact .array h
    | member members key => exact .member h
    | object members => cases token <;> trivial

theorem nested_place (h : Receptive frames) (tree : Json) : (place tree frames).Nested := by
  cases h with
  | text => trivial
  | array h => exact h
  | member h => exact h

/-- A tree put where one is due adds its tokens to those that came before. -/
theorem toTokens_place (h : Receptive frames) (tree : Json) :
    (place tree frames).toTokens = framesTokens frames ++ tree.toTokens := by
  cases h with
  | text => rfl
  | array => simp [place, Progress.toTokens, framesTokens, Frame.toTokens, itemsTokens_append,
      itemsTokens]
  | member => simp [place, Progress.toTokens, framesTokens, Frame.toTokens, membersTokens_append,
      membersTokens]

/-- A token that fits leaves the frames nested. -/
theorem nested_feed (h : Nested frames) (hfits : Fits frames token) :
    (feed frames token).Nested := by
  cases token with
  | scalar s => exact nested_place (h.receptive hfits trivial) _
  | openArray => exact h.receptive hfits trivial
  | openObject => exact h.receptive hfits trivial
  | key key =>
    cases frames with
    | nil => trivial
    | cons frame outer => cases frame <;> exact h
  | close =>
    cases frames with
    | nil => trivial
    | cons frame outer => cases frame <;> exact nested_place h _

/-- A token that fits is added to those that have led to the frames. -/
theorem toTokens_feed (h : Nested frames) (hfits : Fits frames token) :
    (feed frames token).toTokens = framesTokens frames ++ [token] := by
  cases token with
  | scalar s => exact toTokens_place (h.receptive hfits trivial) _
  | openArray | openObject => rfl
  | key key =>
    cases frames with
    | nil => exact hfits.elim
    | cons frame outer =>
      cases frame with
      | object members => simp [feed, setKey, Progress.toTokens, framesTokens, Frame.toTokens]
      | array | member => exact hfits.elim
  | close =>
    cases frames with
    | nil => exact hfits.elim
    | cons frame outer =>
      cases frame with
      | array items =>
        rw [feed, closeFrame, toTokens_place h]
        simp [framesTokens, Frame.toTokens, toTokens]
      | object members =>
        rw [feed, closeFrame, toTokens_place h]
        simp [framesTokens, Frame.toTokens, toTokens]
      | member => exact hfits.elim

theorem finish_eq_ok_iff : stream.finish = .ok () ↔ stream = .done := by
  cases stream <;> simp [Stream.finish]

/-- The induction over the rest of the stream. -/
theorem eq_after_of_ofStream (hnested : Nested frames) (horderly : Orderly (.pending frames) stream)
    (h : ofStream frames stream = .ok tree) :
    ∃ tokens, stream = Stream.after tokens .done ∧
      framesTokens frames ++ tokens = tree.toTokens := by
  induction stream generalizing frames with
  | done => cases h
  | fault f => cases h
  | next token rest ih =>
    obtain ⟨hfits, hrest⟩ := horderly
    have hnested' := nested_feed hnested hfits
    have htokens := toTokens_feed hnested hfits
    rw [ofStream] at h
    cases hfeed : feed frames token with
    | pending frames' =>
      rw [hfeed] at h hrest hnested' htokens
      obtain ⟨tokens, rfl, hsame⟩ := ih hnested' hrest h
      refine ⟨token :: tokens, rfl, ?_⟩
      rw [← hsame, ← List.singleton_append, ← List.append_assoc, ← htokens]
      rfl
    | complete found =>
      rw [hfeed] at h htokens
      cases hfinish : rest.finish with
      | error f =>
        rw [hfinish] at h
        cases h
      | ok u =>
        rw [hfinish] at h
        cases h
        exact ⟨[token], by rw [finish_eq_ok_iff.mp hfinish]; rfl, htokens.symm⟩

/-! ## Trees from their tokens -/

theorem Advances.append {p p' p'' : Progress} {tokens tokens' : List Token}
    (h : Advances p tokens p') (h' : Advances p' tokens' p'') :
    Advances p (tokens ++ tokens') p'' := by
  induction tokens generalizing p with
  | nil =>
    obtain rfl : p = p' := h
    exact h'
  | cons token rest ih =>
    cases p with
    | complete tree => exact h.elim
    | pending frames => exact ⟨h.1, ih h.2⟩

/-- The tokens of the items add these to the array that is open. -/
theorem advances_items {items : List Json} (outer : List Frame)
    (h : ∀ item ∈ items, ∀ done, Advances (.pending (.array done :: outer)) item.toTokens
      (.pending (.array (item :: done) :: outer))) (done : List Json) :
    Advances (.pending (.array done :: outer)) (itemsTokens items)
      (.pending (.array (items.reverse ++ done) :: outer)) := by
  induction items generalizing done with
  | nil => exact rfl
  | cons item rest ih =>
    rw [itemsTokens, List.reverse_cons, List.append_assoc]
    refine (h item List.mem_cons_self done).append ?_
    exact ih (fun other hmem => h other (List.mem_cons_of_mem _ hmem)) (item :: done)

/-- The tokens of the members add these to the object that is open. -/
theorem advances_members {members : List (String × Json)} (outer : List Frame)
    (h : ∀ member ∈ members, ∀ done, Advances (.pending (.member done member.1 :: outer))
      member.2.toTokens (.pending (.object (member :: done) :: outer)))
    (done : List (String × Json)) :
    Advances (.pending (.object done :: outer)) (membersTokens members)
      (.pending (.object (members.reverse ++ done) :: outer)) := by
  induction members generalizing done with
  | nil => exact rfl
  | cons member rest ih =>
    rw [membersTokens, List.reverse_cons, List.append_assoc]
    refine ⟨trivial, (h member List.mem_cons_self done).append ?_⟩
    exact ih (fun other hmem => h other (List.mem_cons_of_mem _ hmem)) (member :: done)

/-- Where a value is due, the tokens of a tree put it together. -/
theorem advances_place (h : Receptive frames) (tree : Json) :
    Advances (.pending frames) tree.toTokens (place tree frames) := by
  induction tree using strong_induction generalizing frames with
  | h tree ih =>
    cases tree with
    | scalar s => exact ⟨h.fits trivial, rfl⟩
    | array items =>
      have hitems := advances_items frames
        (fun item (hmem : item ∈ items) done => ih item (sizeOf_item_lt hmem) (.array h)) []
      rw [List.append_nil] at hitems
      have hclose : Advances (.pending (.array items.reverse :: frames)) [.close]
          (place (.array items) frames) :=
        ⟨trivial, by rw [feed, closeFrame, List.reverse_reverse]; rfl⟩
      exact ⟨h.fits trivial, hitems.append hclose⟩
    | object members =>
      have hmembers := advances_members frames
        (fun member (hmem : member ∈ members) done => ih _ (sizeOf_member_lt hmem) (.member h)) []
      rw [List.append_nil] at hmembers
      have hclose : Advances (.pending (.object members.reverse :: frames)) [.close]
          (place (.object members) frames) :=
        ⟨trivial, by rw [feed, closeFrame, List.reverse_reverse]; rfl⟩
      exact ⟨h.fits trivial, hmembers.append hclose⟩

/-- A stream that advances to a complete tree is this tree. -/
theorem ofStream_after {tokens : List Token}
    (h : Advances (.pending frames) tokens (.complete tree)) :
    ofStream frames (Stream.after tokens .done) = .ok tree := by
  induction tokens generalizing frames with
  | nil => cases h
  | cons token rest ih =>
    obtain ⟨-, h⟩ := h
    rw [Stream.after, List.foldr_cons, ofStream]
    cases hfeed : feed frames token with
    | pending frames' =>
      rw [hfeed] at h
      exact ih h
    | complete found =>
      rw [hfeed] at h
      cases rest with
      | nil =>
        cases h
        rfl
      | cons => exact h.elim

/-- A stream whose tokens fit has the tree exactly if it consists of the tokens of the tree. -/
theorem ofStream_eq_ok_iff (horderly : Orderly (.pending []) stream) :
    ofStream [] stream = .ok tree ↔ stream = Stream.after tree.toTokens .done := by
  constructor
  · intro h
    have hstart : Nested [] := trivial
    obtain ⟨tokens, rfl, rfl⟩ := eq_after_of_ofStream hstart horderly h
    rfl
  · rintro rfl
    exact ofStream_after (advances_place .text tree)

end Conform.Json
