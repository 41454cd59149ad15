import Conform.Proofs.Json.Streams
import Conform.Proofs.Literal.Members
import Conform.Schema.Literal.Text

/-!
# Literals read from text

The text of a literal has a tree, members in text order and repeated keys kept
(`Json.treeOfText`). The reader does not wait for this tree: it looks at shared keys as they come
and keeps only the other members. `Follows` says what its state has to do with the frames of the
tree, and every token keeps this up, so what the reader ends with is what the tree is read as. The
other way round, the stream of a tree is known token by token, and the reader is followed along it.

* `ofText_eq_ok_iff`: a text is read as a schema exactly if it has a tree that is read as this
  schema; faults in the text and in the literal may come in another order, but no text is let
  through for it.
-/

namespace Conform

/-! ## Frames below others -/

namespace Json

/-- The progress with more frames below. -/
def Progress.over (outer : List Frame) : Progress → Progress
  | .pending frames => .pending (frames ++ outer)
  | .complete tree => place tree outer

variable {inner outer : List Frame} {token : Token}

theorem place_append (tree : Json) (inner outer : List Frame) :
    place tree (inner ++ outer) = (place tree inner).over outer := by
  cases inner with
  | nil => rfl
  | cons frame rest => cases frame <;> rfl

theorem Fits.of_append_member {told : List (String × Json)} {key : String}
    (h : Fits (inner ++ .member told key :: outer) token) : Fits inner token := by
  cases inner with
  | nil => cases token <;> exact h
  | cons frame rest => cases frame <;> cases token <;> exact h

/-- What a token does to the inner frames does not depend on those below. -/
theorem feed_append (h : Fits inner token) :
    feed (inner ++ outer) token = (feed inner token).over outer := by
  cases token with
  | scalar s => exact place_append _ inner outer
  | openArray | openObject => rfl
  | key key =>
    cases inner with
    | nil => exact h.elim
    | cons frame rest => cases frame <;> rfl
  | close =>
    cases inner with
    | nil => exact h.elim
    | cons frame rest => cases frame <;> exact place_append _ rest outer

/-- The tree of a text, members in text order and repeated keys kept. -/
def treeOfText (text : String) : Except Fault Json :=
  ofStream [] (tokens (Text.glyphs text))

end Json

namespace Literal

open Json (Fits Frame Orderly Stream Token)

/-! ## Members that no shared key names -/

/-- No shared key names the member. -/
def unshared (member : String × Json) : Bool :=
  (Shared.ofName? member.1).isNone

theorem filter_cons_shared {key : String} {m : Shared} (hkey : Shared.ofName? key = some m)
    (value : Json) (told : List (String × Json)) :
    ((key, value) :: told).filter unshared = told.filter unshared :=
  List.filter_cons_of_neg (by simp [unshared, hkey])

theorem filter_cons_other {key : String} (hkey : Shared.ofName? key = none) (value : Json)
    (told : List (String × Json)) :
    ((key, value) :: told).filter unshared = (key, value) :: told.filter unshared :=
  List.filter_cons_of_pos (by simp [unshared, hkey])

theorem findKind_filter (members : List (String × Json)) (found : Option Kind) :
    findKind (members.filter unshared) found = findKind members found := by
  induction members generalizing found with
  | nil => rfl
  | cons member rest ih =>
    obtain ⟨key, value⟩ := member
    cases hshared : unshared (key, value) with
    | true =>
      rw [List.filter_cons_of_pos hshared]
      simp only [findKind, ih]
    | false =>
      have hne : key ≠ tagKey := by
        rintro rfl
        cases hshared
      rw [List.filter_cons_of_neg (by simp [hshared]), ih]
      simp only [findKind, hne, if_false]

theorem body_filter (kind : Kind) (members : List (String × Json)) (done : Body) :
    body kind (members.filter unshared) done = body kind members done := by
  induction members generalizing done with
  | nil => rfl
  | cons member rest ih =>
    obtain ⟨key, value⟩ := member
    cases hshared : unshared (key, value) with
    | true =>
      rw [List.filter_cons_of_pos hshared]
      simp only [body, ih]
    | false =>
      have hcommon : isCommon key = true := by
        simp only [unshared, Option.isNone_eq_false_iff] at hshared
        simp [isCommon, hshared]
      rw [List.filter_cons_of_neg (by simp [hshared]), ih, body, if_pos hcommon]

/-- The end of the node as the end of its tree. -/
theorem endNode_eq_node {told : List (String × Json)} {header : Header}
    (h : Header.ofMembers told.reverse = .ok header) :
    endNode header (told.filter unshared) = node (.object told.reverse) := by
  rw [endNode, node, h, ← List.filter_reverse, findKind_filter]
  simp only [body_filter]
  rfl

/-! ## The reader and the tree -/

theorem ofMembers_reverse_cons {told : List (String × Json)} {header : Header}
    (h : Header.ofMembers told.reverse = .ok header) (member : String × Json) :
    Header.ofMembers (member :: told).reverse = header.take member := by
  rw [Header.ofMembers] at h
  rw [Header.ofMembers, List.reverse_cons, List.foldlM_append, h]
  cases hmember : header.take member <;> simp [bind, Except.bind, hmember, pure, Except.pure]

/-- The reader has been told the same members, last first, as the frames of the tree hold. -/
inductive Follows : Reading → List Frame → Prop
  | members {header : Header} {told : List (String × Json)}
      (h : Header.ofMembers told.reverse = .ok header) :
      Follows (.members header (told.filter unshared)) [.object told]
  | shared {header : Header} {told : List (String × Json)} {m : Shared}
      (h : Header.ofMembers told.reverse = .ok header) (hnew : header.declare m = .ok ()) :
      Follows (.shared header (told.filter unshared) m) [.member told m.name]
  | value {header : Header} {told : List (String × Json)} {key : String} (inner : List Frame)
      (h : Header.ofMembers told.reverse = .ok header) (hkey : Shared.ofName? key = none) :
      Follows (.value header (told.filter unshared) key inner) (inner ++ [.member told key])

section

variable {header header' : Header} {told : List (String × Json)} {key : String}

/-- A member with a shared key is done. -/
theorem follows_shared {m : Shared} {s : Json.Scalar}
    (h : Header.ofMembers told.reverse = .ok header) (hnew : header.declare m = .ok ())
    (hassign : header.assign m (.scalar s) = .ok header') :
    Follows (.members header' (told.filter unshared)) [.object ((m.name, .scalar s) :: told)] := by
  have hname := Shared.ofName?_eq_some_iff.mpr (Eq.refl m.name)
  rw [← filter_cons_shared hname (.scalar s)]
  refine .members ?_
  rw [ofMembers_reverse_cons h, Header.take, hname]
  simpa [hnew, bind, Except.bind, Json.sight] using hassign

/-- A member with another key is done. -/
theorem follows_other {tree : Json} (h : Header.ofMembers told.reverse = .ok header)
    (hkey : Shared.ofName? key = none) :
    Follows (.members header ((key, tree) :: told.filter unshared))
      [.object ((key, tree) :: told)] := by
  rw [← filter_cons_other hkey]
  refine .members ?_
  rw [ofMembers_reverse_cons h, Header.take, hkey]

end

variable {reading reading' : Reading} {frames : List Frame} {token : Token} {schema : Schema}

/-- A token that the node goes on after. -/
theorem follows_of_pending (h : Follows reading frames) (hfits : Fits frames token)
    (htoken : readToken token reading = .ok (.pending reading')) :
    ∃ frames', Json.feed frames token = .pending frames' ∧ Follows reading' frames' := by
  cases h with
  | @members header told h =>
    cases token with
    | key key =>
      cases hkey : Shared.ofName? key with
      | none =>
        simp only [readToken, hkey, pure, Except.pure, Except.ok.injEq, Outcome.pending.injEq]
          at htoken
        subst htoken
        exact ⟨_, rfl, .value [] h hkey⟩
      | some m =>
        simp only [readToken, hkey, bind_eq_ok] at htoken
        obtain ⟨_, hnew, ⟨⟩⟩ := htoken
        obtain rfl := Shared.ofName?_eq_some_iff.mp hkey
        exact ⟨_, rfl, .shared h hnew⟩
    | close =>
      obtain ⟨schema, -, ⟨⟩⟩ := bind_eq_ok.mp htoken
    | scalar | openArray | openObject => exact hfits.elim
  | @shared header told m h hnew =>
    obtain ⟨header', hassign, ⟨⟩⟩ := bind_eq_ok.mp htoken
    cases token with
    | scalar s => exact ⟨_, rfl, follows_shared h hnew hassign⟩
    | openArray | openObject => cases m <;> cases hassign
    | key | close => exact hfits.elim
  | @value header told key inner h hkey =>
    rw [Json.feed_append hfits.of_append_member]
    cases hfeed : Json.feed inner token with
    | pending frames' =>
      simp only [readToken, hfeed] at htoken
      cases htoken
      exact ⟨_, rfl, .value frames' h hkey⟩
    | complete tree =>
      simp only [readToken, hfeed] at htoken
      cases htoken
      exact ⟨_, rfl, follows_other h hkey⟩

/-- A token that the node ends with. -/
theorem tree_of_complete (h : Follows reading frames) (hfits : Fits frames token)
    (htoken : readToken token reading = .ok (.complete schema)) :
    ∃ tree, Json.feed frames token = .complete tree ∧ node tree = .ok schema := by
  cases h with
  | @members header told h =>
    cases token with
    | key key =>
      cases hkey : Shared.ofName? key with
      | none => simp [readToken, hkey, pure, Except.pure] at htoken
      | some m =>
        simp only [readToken, hkey, bind_eq_ok] at htoken
        obtain ⟨_, -, ⟨⟩⟩ := htoken
    | close =>
      obtain ⟨schema, hend, ⟨⟩⟩ := bind_eq_ok.mp htoken
      exact ⟨_, rfl, endNode_eq_node h ▸ hend⟩
    | scalar | openArray | openObject => exact hfits.elim
  | shared =>
    obtain ⟨header', -, ⟨⟩⟩ := bind_eq_ok.mp htoken
  | @value header told key inner =>
    cases hfeed : Json.feed inner token <;> simp [readToken, hfeed, pure, Except.pure] at htoken

/-- The run over the rest of the node. -/
theorem exists_tree_of_readNode {stream : Stream} (h : Follows reading frames)
    (horderly : Orderly (.pending frames) stream) (hread : readNode reading stream = .ok schema) :
    ∃ tree, Json.ofStream frames stream = .ok tree ∧ node tree = .ok schema := by
  induction stream generalizing reading frames with
  | done => cases hread
  | fault f => cases hread
  | next token rest ih =>
    obtain ⟨hfits, hrest⟩ := horderly
    obtain ⟨outcome, htoken, hread⟩ := bind_eq_ok.mp hread
    cases outcome with
    | pending reading' =>
      obtain ⟨frames', hfeed, hfollows⟩ := follows_of_pending h hfits htoken
      rw [hfeed] at hrest
      obtain ⟨tree, htree, hnode⟩ := ih hfollows hrest hread
      exact ⟨tree, by rw [Json.ofStream, hfeed]; exact htree, hnode⟩
    | complete found =>
      obtain ⟨tree, hfeed, hnode⟩ := tree_of_complete h hfits htoken
      dsimp only at hread
      split at hread
      · cases hread
      · rename_i hfinish
        cases hread
        exact ⟨tree, by rw [Json.ofStream, hfeed, hfinish]; rfl, hnode⟩

/-- The run over the whole literal. -/
theorem exists_tree_of_readLiteral {stream : Stream} (horderly : Orderly (.pending []) stream)
    (hread : readLiteral stream = .ok schema) :
    ∃ tree, Json.ofStream [] stream = .ok tree ∧ node tree = .ok schema := by
  have hempty : Header.ofMembers ([] : List (String × Json)).reverse = .ok .empty := rfl
  have hstart : Follows (.members .empty []) [.object []] := .members hempty
  unfold readLiteral at hread
  split at hread
  · obtain ⟨-, hrest⟩ := horderly
    obtain ⟨tree, htree, hnode⟩ := exists_tree_of_readNode hstart hrest hread
    exact ⟨tree, htree, hnode⟩
  all_goals cases hread

/-! ## The reader along the tokens of a tree -/

/-- A value that no shared key names is read as a whole. -/
theorem readNode_value {header : Header} {others : List (String × Json)} {key : String}
    {inner : List Frame} {tokens : List Token} {value : Json} (rest : Stream)
    (h : Json.Advances (.pending inner) tokens (.complete value)) :
    readNode (.value header others key inner) (rest.after tokens) =
      readNode (.members header ((key, value) :: others)) rest := by
  induction tokens generalizing inner with
  | nil => cases h
  | cons token tokens ih =>
    obtain ⟨-, h⟩ := h
    rw [Stream.after, List.foldr_cons, readNode]
    cases hfeed : Json.feed inner token with
    | pending inner' =>
      rw [hfeed] at h
      simp only [readToken, hfeed]
      exact ih h
    | complete found =>
      rw [hfeed] at h
      simp only [readToken, hfeed]
      cases tokens with
      | nil =>
        cases h
        rfl
      | cons => exact h.elim

theorem readNode_other {header : Header} {others : List (String × Json)} {key : String}
    (hkey : Shared.ofName? key = none) (value : Json) (rest : Stream) :
    readNode (.members header others) (rest.after (.key key :: value.toTokens)) =
      readNode (.members header ((key, value) :: others)) rest := by
  have hvalue : Json.Advances (.pending []) value.toTokens (.complete value) :=
    Json.advances_place .text value
  rw [← readNode_value rest hvalue, Stream.after, List.foldr_cons, readNode]
  simp only [readToken, hkey]
  rfl

/-- The value of a shared key is a scalar, or is refused at its first token. -/
theorem readNode_shared {header header' : Header} {others : List (String × Json)} {m : Shared}
    {value : Json} (htake : header.take (m.name, value) = .ok header') (rest : Stream) :
    readNode (.members header others) (rest.after (.key m.name :: value.toTokens)) =
      readNode (.members header' others) rest := by
  have hname := Shared.ofName?_eq_some_iff.mpr (Eq.refl m.name)
  simp only [Header.take, hname, bind_eq_ok] at htake
  obtain ⟨_, hnew, hassign⟩ := htake
  cases value with
  | scalar s =>
    have hvalue : header.assign m (sightOf (.scalar s)) = .ok header' := hassign
    simp only [Json.toTokens, Stream.after, List.foldr_cons, List.foldr_nil, readNode, readToken,
      hname, hnew, hvalue, bind, Except.bind, pure, Except.pure]
  | array | object => cases m <;> cases hassign

theorem exists_take_of_node {told members : List (String × Json)} {member : String × Json}
    {header : Header} (h : Header.ofMembers told.reverse = .ok header)
    (hnode : node (.object (told.reverse ++ member :: members)) = .ok schema) :
    ∃ header', header.take member = .ok header' := by
  rw [node] at hnode
  obtain ⟨whole, hwhole, -⟩ := bind_eq_ok.mp hnode
  rw [Header.ofMembers, List.foldlM_append] at hwhole
  obtain ⟨header', hheader', hwhole⟩ := bind_eq_ok.mp hwhole
  obtain rfl : header' = header := Except.ok.inj (hheader'.symm.trans h)
  rw [List.foldlM_cons] at hwhole
  obtain ⟨next, htake, -⟩ := bind_eq_ok.mp hwhole
  exact ⟨next, htake⟩

/-- The run over the members that are left of a node. -/
theorem readNode_members {told members : List (String × Json)} {header : Header}
    (h : Header.ofMembers told.reverse = .ok header)
    (hnode : node (.object (told.reverse ++ members)) = .ok schema) :
    readNode (.members header (told.filter unshared))
      (Stream.done.after (Json.membersTokens members ++ [.close])) = .ok schema := by
  induction members generalizing told header with
  | nil =>
    rw [List.append_nil, ← endNode_eq_node h] at hnode
    have hclose : readToken .close (.members header (told.filter unshared)) =
        .ok (.complete schema) := by
      simp only [readToken, hnode]
      rfl
    rw [Json.membersTokens, List.nil_append, Stream.after, List.foldr_cons, List.foldr_nil,
      readNode, hclose]
    rfl
  | cons member members ih =>
    obtain ⟨key, value⟩ := member
    have hnext : ((key, value) :: told).reverse ++ members =
        told.reverse ++ (key, value) :: members := by simp
    obtain ⟨header', htake⟩ := exists_take_of_node h hnode
    have hlater := ih (by rwa [ofMembers_reverse_cons h]) (by rwa [hnext])
    rw [Json.membersTokens, ← List.cons_append, List.append_assoc, Stream.after_append]
    cases hkey : Shared.ofName? key with
    | none =>
      obtain rfl : header = header' := by simpa [Header.take, hkey] using htake
      rwa [readNode_other hkey, ← filter_cons_other hkey]
    | some m =>
      obtain rfl := Shared.ofName?_eq_some_iff.mp hkey
      rwa [readNode_shared htake, ← filter_cons_shared hkey value]

theorem readLiteral_toTokens {tree : Json} (h : node tree = .ok schema) :
    readLiteral (Stream.done.after tree.toTokens) = .ok schema := by
  cases tree with
  | scalar | array => cases h
  | object members =>
    have hempty : Header.ofMembers ([] : List (String × Json)).reverse = .ok .empty := rfl
    exact readNode_members hempty h

theorem readLiteral_eq_ok_iff {stream : Stream} (horderly : Orderly (.pending []) stream) :
    readLiteral stream = .ok schema ↔
      ∃ tree, Json.ofStream [] stream = .ok tree ∧ node tree = .ok schema := by
  constructor
  · exact exists_tree_of_readLiteral horderly
  · rintro ⟨tree, htree, hnode⟩
    rw [(Json.ofStream_eq_ok_iff horderly).mp htree]
    exact readLiteral_toTokens hnode

end Literal

namespace Schema

/-- The text of a literal is read exactly as its tree is. -/
theorem ofText_eq_ok_iff {text : String} {schema : Schema} :
    ofText text = .ok schema ↔
      ∃ tree, Json.treeOfText text = .ok tree ∧ ofJson tree = .ok schema :=
  Literal.readLiteral_eq_ok_iff (Json.orderly_tokens _)

end Schema

end Conform
