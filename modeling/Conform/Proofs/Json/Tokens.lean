import Conform.Json.Read

/-!
# Token streams of texts

The scanner checks the grammar, and the tree is put together from the tokens without another check.
So it matters that a token only stands where its frames can take it up (`Fits`): a key or the end in
an object, a value where one is due. `Poised` ties the open containers and the mode of the scanner
to the frames that the tokens so far have led to; every glyph keeps this up (`leads_step`).

* `orderly_tokens`: all tokens of a text fit.
-/

namespace Conform.Json

/-! ## Tokens that fit -/

/-- The token is a value or begins one. -/
def Token.Begins : Token → Prop
  | .scalar _ | .openArray | .openObject => True
  | .key _ | .close => False

/-- The innermost frame can take up the token. -/
def Fits : List Frame → Token → Prop
  | .object _ :: _, .key _ | .object _ :: _, .close | .array _ :: _, .close => True
  | .object _ :: _, _ => False
  | [], token | .array _ :: _, token | .member _ _ :: _, token => token.Begins

/-- A value is due in each of the frames. -/
inductive Receptive : List Frame → Prop
  | text : Receptive []
  | array {outer : List Frame} {items : List Json} (h : Receptive outer) :
      Receptive (.array items :: outer)
  | member {outer : List Frame} {members : List (String × Json)} {key : String}
      (h : Receptive outer) : Receptive (.member members key :: outer)

theorem Receptive.fits {frames : List Frame} (h : Receptive frames) {token : Token}
    (hbegins : token.Begins) : Fits frames token := by
  cases h <;> cases token <;> trivial

/-- The tokens fit, one after the other, and lead from one place to another. -/
def Advances : Progress → List Token → Progress → Prop
  | p, [], p' => p = p'
  | .pending frames, token :: rest, p' => Fits frames token ∧ Advances (feed frames token) rest p'
  | .complete _, _ :: _, _ => False

/-- All tokens fit, up to the end of the tree. -/
def Orderly : Progress → Stream → Prop
  | .pending frames, .next token rest => Fits frames token ∧ Orderly (feed frames token) rest
  | _, _ => True

theorem Stream.after_append (tokens tokens' : List Token) (rest : Stream) :
    rest.after (tokens ++ tokens') = (rest.after tokens').after tokens := by
  rw [Stream.after, List.foldr_append]
  rfl

/-- Tokens that advance, in front of an orderly stream, leave it orderly. -/
theorem Orderly.after {p p' : Progress} {rest : Stream} (hrest : Orderly p' rest)
    {tokens : List Token} (h : Advances p tokens p') : Orderly p (rest.after tokens) := by
  induction tokens generalizing p with
  | nil =>
    obtain rfl : p = p' := h
    exact hrest
  | cons token tokens ih =>
    cases p with
    | complete tree => exact h.elim
    | pending frames => exact ⟨h.1, ih h.2⟩

/-! ## Where the scanner stands -/

/-- A value is due in the innermost of the open containers. -/
inductive Awaits : List Opened → List Frame → Prop
  | text : Awaits [] []
  | item {opened : List Opened} {frames : List Frame} {items : List Json}
      (h : Awaits opened frames) : Awaits (.array :: opened) (.array items :: frames)
  | member {opened : List Opened} {frames : List Frame} {members : List (String × Json)}
      {key : String} (h : Awaits opened frames) :
      Awaits (.object :: opened) (.member members key :: frames)

/-- The innermost of the open containers may end. -/
inductive Settled : List Opened → Progress → Prop
  | text (tree : Json) : Settled [] (.complete tree)
  | item {opened : List Opened} {frames : List Frame} {items : List Json}
      (h : Awaits opened frames) : Settled (.array :: opened) (.pending (.array items :: frames))
  | member {opened : List Opened} {frames : List Frame} {members : List (String × Json)}
      (h : Awaits opened frames) :
      Settled (.object :: opened) (.pending (.object members :: frames))

/-- A value is due inside the open containers. -/
inductive Expects : List Opened → Progress → Prop
  | mk {opened : List Opened} {frames : List Frame} (h : Awaits opened frames) :
      Expects opened (.pending frames)

/-- What the scanner is in the middle of agrees with what the reader has. -/
def Poised (opened : List Opened) : Mode → Progress → Prop
  | .due .separator, p => Settled opened p
  | .due .firstItem, p => Settled opened p ∧ opened.head? = some .array
  | .due .firstKey, p | .due .key, p | .string true _ _ _, p =>
    Settled opened p ∧ opened.head? = some .object
  | .due .value, p | .due .item, p | .due .colon, p | .word _ _, p | .number _, p
  | .string false _ _ _, p => Expects opened p

variable {opened : List Opened} {frames : List Frame} {p : Progress} {mode : Mode} {d : Due}

theorem Settled.expects (h : Settled (.array :: opened) p) : Expects (.array :: opened) p := by
  cases h with
  | item h => exact ⟨.item h⟩

/-- A value in its place leaves the containers settled. -/
theorem settled_place (h : Awaits opened frames) (tree : Json) :
    Settled opened (place tree frames) := by
  cases h with
  | text => exact .text tree
  | item h => exact .item h
  | member h => exact .member h

/-! ## Steps -/

/-- The tokens of the step fit, and it leaves the scanner poised. -/
def Leads (p : Progress) (step : Step) : Prop :=
  ∃ p', Advances p step.tokens p' ∧
    ∀ opened mode, step.next = .ok (opened, mode) → Poised opened mode p'

theorem leads_go (h : Poised opened mode p) : Leads p (.go opened mode) := by
  refine ⟨p, rfl, ?_⟩
  rintro _ _ ⟨⟩
  exact h

theorem leads_halt (p : Progress) (f : Fault) : Leads p (.halt f) :=
  ⟨p, rfl, by rintro _ _ ⟨⟩⟩

/-- A token that fits leads on, if the mode it leaves is prepared for what follows. -/
theorem leads_emit {token : Token} (hfits : Fits frames token)
    (h : Poised opened (.due d) (feed frames token)) :
    Leads (.pending frames) (.emit token opened d) := by
  refine ⟨feed frames token, ⟨hfits, rfl⟩, ?_⟩
  rintro _ _ ⟨⟩
  exact h

theorem Awaits.receptive (h : Awaits opened frames) : Receptive frames := by
  induction h with
  | text => exact .text
  | item _ ih => exact .array ih
  | member _ ih => exact .member ih

theorem leads_scalar (h : Expects opened p) (s : Scalar) :
    Leads p (.emit (.scalar s) opened .separator) := by
  obtain ⟨h⟩ := h
  exact leads_emit (h.receptive.fits trivial) (settled_place h _)

/-- Opening a container where a value is expected leads on. -/
theorem leads_openContainer (h : Expects opened p) (container : Opened) :
    Leads p (openContainer opened container) := by
  obtain ⟨h⟩ := h
  unfold openContainer
  split
  · cases container with
    | array => exact leads_emit (h.receptive.fits trivial) ⟨.item h, rfl⟩
    | object => exact leads_emit (h.receptive.fits trivial) ⟨.member h, rfl⟩
  · exact leads_halt _ _

/-- So does closing the innermost container once it is settled. -/
theorem leads_close {container : Opened} {outer : List Opened}
    (h : Settled (container :: outer) p) : Leads p (.emit .close outer .separator) := by
  cases h with
  | item h => exact leads_emit trivial (settled_place h _)
  | member h => exact leads_emit trivial (settled_place h _)

theorem leads_beginValue (h : Expects opened p) (g : Text.Glyph) :
    Leads p (beginValue opened g) := by
  unfold beginValue
  split
  case h_5 => exact leads_openContainer h .array
  case h_6 => exact leads_openContainer h .object
  case h_8 =>
    split
    · exact leads_go h
    · exact leads_go h
    · exact leads_halt _ _
  all_goals exact leads_go h

theorem leads_afterValue (h : Settled opened p) (g : Text.Glyph) :
    Leads p (afterValue opened g) := by
  unfold afterValue
  split
  · exact leads_halt _ _
  · split
    · exact leads_go h.expects
    · split
      · exact leads_close h
      · exact leads_halt _ _
  · split
    · exact leads_go ⟨h, rfl⟩
    · split
      · exact leads_close h
      · exact leads_halt _ _

/-- A step between tokens leads on, whatever is due. -/
theorem leads_stepDue (h : Poised opened (.due d) p) (g : Text.Glyph) :
    Leads p (stepDue opened d g) := by
  unfold stepDue
  split
  · exact leads_go h
  cases d with
  | value => exact leads_beginValue h g
  | firstItem =>
    obtain ⟨hsettled, hhead⟩ := h
    obtain ⟨outer, rfl⟩ := List.head?_eq_some_iff.mp hhead
    dsimp only
    split
    · exact leads_close hsettled
    · exact leads_beginValue hsettled.expects g
  | item =>
    dsimp only
    split
    · exact leads_halt _ _
    · exact leads_beginValue h g
  | firstKey =>
    obtain ⟨hsettled, hhead⟩ := h
    obtain ⟨outer, rfl⟩ := List.head?_eq_some_iff.mp hhead
    dsimp only
    split
    · exact leads_go ⟨hsettled, hhead⟩
    · split
      · exact leads_close hsettled
      · exact leads_halt _ _
  | key =>
    dsimp only
    split
    · exact leads_go h
    · split <;> exact leads_halt _ _
  | colon =>
    dsimp only
    split
    · exact leads_go h
    · exact leads_halt _ _
  | separator => exact leads_afterValue h g

theorem leads_stepWord (h : Expects opened p) (left : List Char) (meaning : Scalar)
    (g : Text.Glyph) : Leads p (stepWord opened left meaning g) := by
  unfold stepWord
  split
  · exact leads_halt _ _
  · split
    · split
      · exact leads_scalar h meaning
      · exact leads_go h
    · exact leads_halt _ _

/-- The glyph that ends a number may end its container, too. -/
theorem leads_stepNumber (h : Expects opened p) (n : Numeral) (g : Text.Glyph) :
    Leads p (stepNumber opened n g) := by
  unfold stepNumber
  split
  · exact leads_go h
  · exact leads_halt _ _
  · split
    · exact leads_halt _ _
    · obtain ⟨h⟩ := h
      obtain ⟨p', hadvances, hnext⟩ := leads_stepDue (d := .separator) (settled_place h _) g
      exact ⟨p', ⟨h.receptive.fits trivial, hadvances⟩, hnext⟩

section

variable {isKey : Bool} {phase : StringPhase} {body : List Char} {wellFormed : Bool}

/-- Where a string stands does not depend on how far it has been read. -/
theorem poised_string (h : Poised opened (.string isKey phase body wellFormed) p)
    (phase' : StringPhase) (body' : List Char) (wellFormed' : Bool) :
    Poised opened (.string isKey phase' body' wellFormed') p := by
  cases isKey <;> exact h

theorem leads_endString (h : Poised opened (.string isKey phase body wellFormed) p)
    (wellFormed' : Bool) : Leads p (endString opened isKey body wellFormed') := by
  unfold endString
  split
  · cases isKey with
    | false => exact leads_scalar h _
    | true =>
      obtain ⟨hsettled, hhead⟩ := h
      obtain ⟨outer, rfl⟩ := List.head?_eq_some_iff.mp hhead
      cases hsettled with
      | member h => exact leads_emit trivial ⟨.member h⟩
  · exact leads_halt _ _

theorem leads_stepUnit (h : Poised opened (.string isKey phase body wellFormed) p)
    (high : Option Nat) (unit : Nat) :
    Leads p (stepUnit opened isKey body wellFormed high unit) := by
  unfold stepUnit
  split
  · split
    · exact leads_halt _ _
    · split <;> exact leads_go (poised_string h _ _ _)
  · split
    · exact leads_go (poised_string h _ _ _)
    · exact leads_halt _ _

/-- A step inside a text leads on. -/
theorem leads_stepString (h : Poised opened (.string isKey phase body wellFormed) p)
    (g : Text.Glyph) : Leads p (stepString opened isKey phase body wellFormed g) := by
  have hgo := fun phase' body' wellFormed' => leads_go (poised_string h phase' body' wellFormed')
  cases phase with
  | plain =>
    unfold stepString
    dsimp only
    split
    · exact hgo _ _ _
    · exact leads_endString h _
    · exact hgo _ _ _
    · split
      · exact leads_halt _ _
      · exact hgo _ _ _
  | backslash =>
    unfold stepString
    dsimp only
    split
    · exact hgo _ _ _
    · split
      · exact hgo _ _ _
      · exact leads_halt _ _
  | hex bytes unit high =>
    unfold stepString
    dsimp only
    split
    · exact hgo _ _ _
    · split
      · exact leads_halt _ _
      · exact leads_stepUnit h _ _
  | high unit | highBackslash unit =>
    unfold stepString
    dsimp only
    split
    · exact hgo _ _ _
    · exact leads_halt _ _

end

theorem leads_step (h : Poised opened mode p) (g : Text.Glyph) : Leads p (step opened mode g) := by
  cases mode with
  | due d => exact leads_stepDue h g
  | word left meaning => exact leads_stepWord h left meaning g
  | number n => exact leads_stepNumber h n g
  | string isKey phase body wellFormed => exact leads_stepString h g

/-! ## The whole text -/

theorem orderly_endAfterValue (opened : List Opened) (p : Progress) :
    Orderly p (endAfterValue opened) := by
  cases p <;> cases opened with
  | nil => trivial
  | cons container outer => cases container <;> trivial

/-- At the end of the text no token is out of order. -/
theorem orderly_scanEnd (h : Poised opened mode p) : Orderly p (scanEnd opened mode) := by
  unfold scanEnd
  split
  case h_1 => exact orderly_endAfterValue opened p
  case h_10 n =>
    obtain ⟨h⟩ : Expects opened p := h
    split
    · split
      · trivial
      · exact ⟨h.receptive.fits trivial, orderly_endAfterValue _ _⟩
    · trivial
  all_goals cases p <;> trivial

/-- The run over the rest of the text. -/
theorem orderly_scan (h : Poised opened mode p) (text : List Text.Glyph) :
    Orderly p (scan opened mode text) := by
  induction text generalizing opened mode p with
  | nil => exact orderly_scanEnd h
  | cons g rest ih =>
    obtain ⟨p', hadvances, hnext⟩ := leads_step h g
    rw [scan]
    refine Orderly.after ?_ hadvances
    cases hstep : (step opened mode g).next with
    | error f => cases p' <;> trivial
    | ok next => exact ih (hnext next.1 next.2 hstep)

/-- Every token of a text stands where it can be taken up. -/
theorem orderly_tokens (text : List Text.Glyph) : Orderly (.pending []) (tokens text) := by
  have hstart : Poised [] (.due .value) (.pending []) := Expects.mk .text
  exact orderly_scan hstart text

end Conform.Json
