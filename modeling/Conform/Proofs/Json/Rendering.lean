import Conform.Proofs.Json.Numerals
import Conform.Proofs.Json.Streams

/-!
# Texts of trees

What is written for a tree is scanned as its tokens: strings character by character, numbers up to
what stands behind them, containers item by item with a comma in between. A number ends only at the
next glyph, so a value is followed through its text together with what closes it (`Closing`). The
scanner admits so many open containers and no more, hence the bound on the depth of the tree.

Strings, keys and integers are read as they were written. A double may be missed by a unit in the
last place, since its reader rounds more than once: that it is met (`ReadBack`) is asked for each
double in the tree, and holds of those whose text is short.

* `readBack_of_short`: a number of at most sixteen characters, without an exponent, is read back.
* `scan_renderChars`: wherever a value may stand, the text of a tree is scanned as its tokens.
* `tokens_render`: a tree that is not too deep is scanned from its text.
-/

namespace Conform.Json

open Text (Glyph)

variable {opened opened' : List Opened} {mode mode' : Mode} {d d' : Due} {g : Glyph}
  {rest : List Glyph} {token : Token}

/-! ## Single steps -/

/-- A step without a token goes on to the next glyph. -/
theorem scan_of_go (h : step opened mode g = .go opened' mode') :
    scan opened mode (g :: rest) = scan opened' mode' rest := by
  simp only [scan, h]
  rfl

/-- A step with a token yields it and goes on to what is due next. -/
theorem scan_of_emit (h : step opened mode g = .emit token opened' d') :
    scan opened mode (g :: rest) = .next token (scan opened' (.due d') rest) := by
  simp only [scan, h]
  rfl

/-- A value may stand next. -/
def Due.Admits : Due → Prop
  | .value | .firstItem | .item => True
  | .firstKey | .key | .colon | .separator => False

theorem step_of_admits (hd : d.Admits) (hblank : isBlank g = false) (hclose : g ≠ some ']') :
    step opened (.due d) g = beginValue opened g := by
  unfold step stepDue
  rw [hblank]
  cases d with
  | value => rfl
  | firstItem | item => exact if_neg hclose
  | _ => exact hd.elim

/-- What may stand right behind a value: a comma, the end of its container or nothing. -/
def Closing (rest : List Glyph) : Prop :=
  ∀ g, rest.head? = some g → g = some ',' ∨ g = some ']' ∨ g = some '\x7d'

theorem closing_nil : Closing [] := by
  rintro g ⟨⟩

theorem closing_cons (h : g = some ',' ∨ g = some ']' ∨ g = some '\x7d') :
    Closing (g :: rest) := by
  rintro _ ⟨⟩
  exact h

/-! ## Words -/

/-- The rest of `null`, `true` or `false` is read as this constant. -/
theorem scan_word {left : List Char} (h : left ≠ []) (meaning : Scalar) :
    scan opened (.word left meaning) (left.map some ++ rest) =
      .next (.scalar meaning) (scan opened (.due .separator) rest) := by
  induction left with
  | nil => exact absurd rfl h
  | cons c left ih =>
    rw [List.map_cons, List.cons_append]
    by_cases hleft : left = []
    · subst hleft
      exact scan_of_emit (by simp [step, stepWord])
    · have hnext : step opened (.word (c :: left) meaning) (some c) =
          .go opened (.word left meaning) := by simp [step, stepWord, hleft]
      rw [scan_of_go hnext]
      exact ih hleft

/-! ## Strings -/

section

variable {isKey : Bool} {body : List Char}

theorem size_digitChar : ∀ n < 16, Glyph.size (some (Nat.digitChar n)) = 1 := by
  decide

theorem hexDigit?_digitChar : ∀ n < 16, hexDigit? (some (Nat.digitChar n)) = some n := by
  decide

theorem step_digitChar (opened : List Opened) (isKey : Bool) (body : List Char) {n : Nat}
    (hn : n < 16) (bytes unit : Nat) :
    step opened (.string isKey (.hex bytes (some unit) none) body true)
        (some (Nat.digitChar n)) =
      if bytes + 1 < 4 then
        .go opened (.string isKey (.hex (bytes + 1) (some (unit * 16 + n)) none) body true)
      else stepUnit opened isKey body true none (unit * 16 + n) := by
  simp [step, stepString, size_digitChar n hn, hexDigit?_digitChar n hn]

theorem escapedControl_eq : ∀ n < 0x20, escapedControl n =
    ['\\', 'u', Nat.digitChar 0, Nat.digitChar 0, Nat.digitChar (n / 16),
      Nat.digitChar (n % 16)] := by
  decide

/-- The four digits of a control make its number. -/
theorem scan_escapedControl {c : Char} (hc : c.toNat < 0x20) :
    scan opened (.string isKey .plain body true) ((escapedControl c.toNat).map some ++ rest) =
      scan opened (.string isKey .plain (c :: body) true) rest := by
  have hdigit {bytes unit n : Nat} (hn : n < 16) (hbytes : bytes + 1 < 4) :=
    (step_digitChar opened isKey body hn bytes unit).trans (if_pos hbytes)
  have hunit : (0 * 16 + c.toNat / 16) * 16 + c.toNat % 16 = c.toNat := by omega
  have hlast : stepUnit opened isKey body true none c.toNat =
      .go opened (.string isKey .plain (c :: body) true) := by
    have hlow : isLowSurrogate c.toNat = false := by
      simp only [isLowSurrogate, Bool.and_eq_false_iff, decide_eq_false_iff_not]
      omega
    have hhigh : isHighSurrogate c.toNat = false := by
      simp only [isHighSurrogate, Bool.and_eq_false_iff, decide_eq_false_iff_not]
      omega
    simp [stepUnit, hlow, hhigh, Char.ofNat_toNat]
  have hlow := step_digitChar opened isKey body (Nat.mod_lt c.toNat (show 0 < 16 by decide)) 3
    (0 * 16 + c.toNat / 16)
  rw [hunit, hlast, if_neg (by decide)] at hlow
  rw [escapedControl_eq _ hc]
  simp only [List.map_cons, List.map_nil, List.cons_append, List.nil_append]
  calc scan opened (.string isKey .plain body true) _
      = scan opened (.string isKey (.hex 0 (some 0) none) body true) _ :=
        (scan_of_go rfl).trans (scan_of_go rfl)
    _ = scan opened (.string isKey (.hex 2 (some 0) none) body true) _ :=
        (scan_of_go (hdigit (by decide) (by decide))).trans
          (scan_of_go (hdigit (by decide) (by decide)))
    _ = scan opened (.string isKey (.hex 3 (some (0 * 16 + c.toNat / 16)) none) body true) _ :=
        scan_of_go (hdigit (by omega) (by decide))
    _ = scan opened (.string isKey .plain (c :: body) true) rest := scan_of_go hlow

/-- What is written for a character is read as the character. -/
theorem scan_escaped (c : Char) :
    scan opened (.string isKey .plain body true) ((escaped c).map some ++ rest) =
      scan opened (.string isKey .plain (c :: body) true) rest := by
  unfold escaped
  iterate 7
    split
    · rename_i hc
      subst hc
      rfl
  split
  · rename_i hc
    exact scan_escapedControl hc
  · rename_i hcontrol
    exact scan_of_go (by simp [step, stepString, hcontrol])

theorem scan_flatMap_escaped (text : List Char) :
    scan opened (.string isKey .plain body true) ((text.flatMap escaped).map some ++ rest) =
      scan opened (.string isKey .plain (text.reverse ++ body) true) rest := by
  induction text generalizing body with
  | nil => rfl
  | cons c text ih =>
    rw [List.flatMap_cons, List.map_append, List.append_assoc, scan_escaped, ih, List.reverse_cons,
      List.append_assoc, List.singleton_append]

/-- A string up to its end, the quote in front already read. -/
theorem scan_body (text : String) :
    scan opened (stringMode isKey) ((text.toList.flatMap escaped).map some ++ some '"' :: rest) =
      .next (if isKey then .key text else .scalar (.string text))
        (scan opened (.due (if isKey then .colon else .separator)) rest) := by
  rw [stringMode, scan_flatMap_escaped, List.append_nil]
  cases isKey <;> exact scan_of_emit (by simp [step, stepString, endString])

theorem map_renderString_append (text : String) :
    (renderString text).map some ++ rest =
      some '"' :: ((text.toList.flatMap escaped).map some ++ some '"' :: rest) := by
  simp [renderString]

end

/-- A text where a value may stand is read as it was written. -/
theorem scan_string (hd : d.Admits) (text : String) :
    scan opened (.due d) ((renderString text).map some ++ rest) =
      .next (.scalar (.string text)) (scan opened (.due .separator) rest) := by
  have hbegin : step opened (.due d) (some '"') = .go opened (stringMode false) :=
    step_of_admits hd rfl (by decide)
  rw [map_renderString_append, scan_of_go hbegin]
  exact scan_body text

/-- A key where one may stand is read as it was written. -/
theorem scan_key (hd : d = .firstKey ∨ d = .key) (key : String) :
    scan opened (.due d) ((renderString key).map some ++ rest) =
      .next (.key key) (scan opened (.due .colon) rest) := by
  have hbegin : step opened (.due d) (some '"') = .go opened (stringMode true) := by
    rcases hd with rfl | rfl <;> rfl
  rw [map_renderString_append, scan_of_go hbegin]
  exact scan_body key

/-! ## Numbers -/

section

variable {n n' : Numeral} {text : List Char} {s : Scalar}

theorem extend_of_closing (hcomplete : n.isComplete = true)
    (hg : g = some ',' ∨ g = some ']' ∨ g = some '\x7d') : n.extend g = .ended := by
  obtain ⟨phase, _, _, _, _, _⟩ := n
  cases phase with
  | minus | point | exponentMark | exponentSign => exact absurd hcomplete Bool.false_ne_true
  | _ => rcases hg with rfl | rfl | rfl <;> rfl

theorem scan_run (hrun : n.run text = some n') :
    scan opened (.number n) (text.map some ++ rest) = scan opened (.number n') rest := by
  induction text generalizing n with
  | nil =>
    obtain rfl : n = n' := Option.some.inj hrun
    rfl
  | cons c text ih =>
    rw [Numeral.run] at hrun
    rw [List.map_cons, List.cons_append]
    cases hextend : n.extend (some c) with
    | more next =>
      rw [hextend] at hrun
      have hnext : step opened (.number n) (some c) = .go opened (.number next) := by
        rw [step, stepNumber, hextend]
      rw [scan_of_go hnext]
      exact ih hrun
    | ended | invalid =>
      rw [hextend] at hrun
      cases hrun

/-- A complete number ends where nothing or the end of a value follows. -/
theorem scan_complete (hcomplete : n.isComplete = true) (hvalue : n.value = .ok s)
    (hclosing : Closing rest) :
    scan opened (.number n) rest = .next (.scalar s) (scan opened (.due .separator) rest) := by
  cases rest with
  | nil => simp only [scan, scanEnd, hcomplete, hvalue, if_true]
  | cons g rest =>
    have hended := extend_of_closing hcomplete (hclosing g rfl)
    simp only [scan, step, stepNumber, hended, hvalue]
    rfl

/-- A number without a sign begins as one behind its sign goes on. -/
theorem beginValue_of_extend (opened : List Opened) {c : Char}
    (h : (Numeral.start .minus false 0).extend (some c) = .more n) :
    c.isDigit = true ∧ beginValue opened (some c) = .go opened (.number n) := by
  cases hc : c.isDigit with
  | false =>
    have hnone : Numeral.digit? (some c) = none := by simp [Numeral.digit?, BigInt.isDigit_eq, hc]
    simp [Numeral.extend, Numeral.start, hnone] at h
  | true =>
    refine ⟨rfl, ?_⟩
    have hdigit := Numeral.digit?_of_isDigit hc
    simp only [Numeral.extend, Numeral.start, hdigit, Numeral.Extension.more.injEq] at h
    subst h
    unfold beginValue
    split
    case h_8 =>
      rw [hdigit]
      cases BigInt.digitValue c <;> rfl
    all_goals
      rename_i heq
      obtain rfl := Option.some.inj heq
      cases hc

/-- The text of a number is scanned by a run over what follows its sign. -/
theorem scan_signed {negative : Bool} {unsigned : List Char}
    (hrun : (Numeral.start .minus negative 0).run unsigned = some n)
    (hcomplete : n.isComplete = true) (hd : d.Admits) :
    scan opened (.due d) ((Numeral.signed negative unsigned).map some ++ rest) =
      scan opened (.number n) rest := by
  cases negative with
  | true =>
    have hbegin : step opened (.due d) (some '-') = .go opened (.number (.start .minus true 0)) :=
      step_of_admits hd rfl (by decide)
    rw [Numeral.signed, if_pos rfl, List.map_cons, List.cons_append, scan_of_go hbegin]
    exact scan_run hrun
  | false =>
    rw [Numeral.signed, if_neg Bool.false_ne_true]
    cases unsigned with
    | nil =>
      obtain rfl := Option.some.inj hrun
      cases hcomplete
    | cons c unsigned =>
      rw [Numeral.run] at hrun
      cases hextend : (Numeral.start .minus false 0).extend (some c) with
      | more next =>
        rw [hextend] at hrun
        obtain ⟨hc, hbegin⟩ := beginValue_of_extend opened hextend
        have hblank : isBlank (some c) = false := by
          rw [isBlank]
          simp only [Option.some.injEq, Bool.or_eq_false_iff, decide_eq_false_iff_not]
          refine ⟨⟨⟨?_, ?_⟩, ?_⟩, ?_⟩ <;> rintro rfl <;> cases hc
        have hclose : some c ≠ some ']' := by
          rintro ⟨⟩
          cases hc
        rw [List.map_cons, List.cons_append,
          scan_of_go ((step_of_admits hd hblank hclose).trans hbegin)]
        exact scan_run hrun
      | ended | invalid =>
        rw [hextend] at hrun
        cases hrun

theorem scan_reads {negative : Bool} {unsigned : List Char}
    (h : Numeral.Reads negative unsigned s) (hd : d.Admits) (hclosing : Closing rest) :
    scan opened (.due d) ((Numeral.signed negative unsigned).map some ++ rest) =
      .next (.scalar s) (scan opened (.due .separator) rest) := by
  obtain ⟨n, hrun, hcomplete, hvalue⟩ := h
  exact (scan_signed hrun hcomplete hd).trans (scan_complete hcomplete hvalue hclosing)

/-- The double is read back from its text. -/
def ReadBack (x : Double) : Prop :=
  ofText x.text = .ok (.ofDouble x)

/-- The text by itself shows what is read of it wherever it stands. -/
theorem readBack_iff {x : Double} (hfinite : x.isFinite = true) :
    ReadBack x ↔ ∃ unsigned, x.text.toList = Numeral.signed x.negative unsigned ∧
      Numeral.Reads x.negative unsigned (.float x hfinite) := by
  have hscanned {unsigned : List Char}
      (htext : x.text.toList = Numeral.signed x.negative unsigned) :
      ReadBack x ↔
        (ofStream [] (scan [] (.due .value)
          ((Numeral.signed x.negative unsigned).map some ++ []))).map normalize =
            .ok (.scalar (.float x hfinite)) := by
    rw [ReadBack, ofText, ofGlyphs, tokens, Text.glyphs, htext, List.append_nil, ofDouble,
      dif_pos hfinite]
  have hadmits : Due.value.Admits := trivial
  constructor
  · intro h
    obtain ⟨unsigned, n, htext, hrun, hcomplete, -⟩ := Numeral.exists_numeral hfinite
    refine ⟨unsigned, htext, n, hrun, hcomplete, ?_⟩
    rw [hscanned htext, scan_signed hrun hcomplete hadmits] at h
    cases hvalue : n.value with
    | error f => simp [scan, scanEnd, hcomplete, hvalue, ofStream, Except.map] at h
    | ok s =>
      simp only [scan, scanEnd, hcomplete, hvalue, if_true, ofStream, feed, place, endAfterValue,
        Stream.finish, Except.map, normalize, Except.ok.injEq, Json.scalar.injEq] at h
      rw [h]
  · intro h
    obtain ⟨unsigned, htext, hreads⟩ := h
    rw [hscanned htext, scan_reads hreads hadmits closing_nil]
    rfl

/-- A number written without an exponent in at most sixteen characters is read back: its digits fit
a double exactly, and so does the power of ten that divides them. -/
theorem readBack_of_short {x : Double} (hfinite : x.isFinite = true)
    (hexponent : 'e' ∉ x.text.toList) (hlength : x.text.toList.length ≤ 16) : ReadBack x :=
  (readBack_iff hfinite).mpr (Numeral.reads_short hfinite hexponent hlength)

/-- A scalar is read as it was written, if its number is read back. -/
theorem scan_scalar (s : Scalar) (hfloat : ∀ x finite, s = .float x finite → ReadBack x)
    (hd : d.Admits) (hclosing : Closing rest) :
    scan opened (.due d) (s.render.map some ++ rest) =
      .next (.scalar s) (scan opened (.due .separator) rest) := by
  have hbegin {c : Char} {mode : Mode} (h : beginValue opened (some c) = .go opened mode)
      (hblank : isBlank (some c) = false) (hclose : some c ≠ some ']') (text : List Char) :
      scan opened (.due d) ((c :: text).map some ++ rest) =
        scan opened mode (text.map some ++ rest) :=
    scan_of_go ((step_of_admits hd hblank hclose).trans h)
  cases s with
  | null => exact (hbegin rfl rfl (by decide) _).trans (scan_word (List.cons_ne_nil _ _) _)
  | bool b =>
    cases b <;> exact (hbegin rfl rfl (by decide) _).trans (scan_word (List.cons_ne_nil _ _) _)
  | integer i =>
    obtain ⟨unsigned, htext, hreads⟩ := Numeral.reads_integer i
    rw [Scalar.render, htext]
    exact scan_reads hreads hd hclosing
  | float x finite =>
    obtain ⟨unsigned, htext, hreads⟩ := (readBack_iff finite).mp (hfloat x finite rfl)
    rw [Scalar.render, htext]
    exact scan_reads hreads hd hclosing
  | string text => exact scan_string hd text

end

/-! ## Containers -/

mutual

/-- How many containers of the tree stand in one another at most. -/
def depth : Json → Nat
  | .scalar _ => 0
  | .array items => itemsDepth items + 1
  | .object members => membersDepth members + 1

def itemsDepth : List Json → Nat
  | [] => 0
  | item :: rest => max (depth item) (itemsDepth rest)

def membersDepth : List (String × Json) → Nat
  | [] => 0
  | (_, value) :: rest => max (depth value) (membersDepth rest)

end

theorem depth_le_itemsDepth {items : List Json} {item : Json} (h : item ∈ items) :
    item.depth ≤ itemsDepth items := by
  induction items with
  | nil => cases h
  | cons other rest ih =>
    rw [itemsDepth]
    rcases List.mem_cons.mp h with rfl | h
    · exact Nat.le_max_left _ _
    · exact Nat.le_trans (ih h) (Nat.le_max_right _ _)

theorem membersDepth_eq (members : List (String × Json)) :
    membersDepth members = itemsDepth (members.map Prod.snd) := by
  induction members with
  | nil => rfl
  | cons member rest ih => rw [membersDepth, ih, List.map_cons, itemsDepth]

theorem depth_le_membersDepth {members : List (String × Json)} {member : String × Json}
    (h : member ∈ members) : member.2.depth ≤ membersDepth members := by
  rw [membersDepth_eq]
  exact depth_le_itemsDepth (List.mem_map_of_mem h)

theorem renderItems_eq_map (items : List Json) : renderItems items = items.map renderChars := by
  induction items with
  | nil => rfl
  | cons item rest ih => rw [renderItems, ih, List.map_cons]

theorem renderMembers_eq_map (members : List (String × Json)) :
    renderMembers members =
      members.map fun member => renderString member.1 ++ ':' :: renderChars member.2 := by
  induction members with
  | nil => rfl
  | cons member rest ih => rw [renderMembers, ih, List.map_cons]

/-- What is due in a container that has just been opened, and after a comma. -/
def Opened.first : Opened → Due
  | .array => .firstItem
  | .object => .firstKey

/-- What is due after a comma. -/
def Opened.later : Opened → Due
  | .array => .item
  | .object => .key

/-- What ends the container. -/
def Opened.bracket : Opened → Char
  | .array => ']'
  | .object => '\x7d'

/-- In the innermost container the text is scanned as the tokens, up to what separates or closes. -/
def Scanned (opened : List Opened) (container : Opened) (text : List Char) (tokens : List Token) :
    Prop :=
  ∀ {d : Due} {rest : List Glyph}, d = container.first ∨ d = container.later → Closing rest →
    scan (container :: opened) (.due d) (text.map some ++ rest) =
      Stream.after tokens (scan (container :: opened) (.due .separator) rest)

section

variable {α : Type} {container : Opened} {text : α → List Char} {tokens : α → List Token} {part : α}
  {parts : List α}

theorem scan_bracket (hd : d = container.first ∨ d = .separator) :
    scan (container :: opened) (.due d) (some container.bracket :: rest) =
      .next .close (scan opened (.due .separator) rest) := by
  apply scan_of_emit
  cases container <;> rcases hd with rfl | rfl <;> rfl

theorem scan_comma :
    scan (container :: opened) (.due .separator) (some ',' :: rest) =
      scan (container :: opened) (.due container.later) rest := by
  apply scan_of_go
  cases container <;> rfl

theorem closing_bracket : Closing (some container.bracket :: rest) := by
  cases container with
  | array => exact closing_cons (.inr (.inl rfl))
  | object => exact closing_cons (.inr (.inr rfl))

/-- Parts with commas in between are read one after the other, up to the closing bracket. -/
theorem scan_parts
    (h : ∀ other ∈ part :: parts, Scanned opened container (text other) (tokens other))
    (hd : d = container.first ∨ d = container.later) :
    scan (container :: opened) (.due d)
        ((commas ((part :: parts).map text)).map some ++ some container.bracket :: rest) =
      Stream.after ((part :: parts).flatMap tokens ++ [.close])
        (scan opened (.due .separator) rest) := by
  induction parts generalizing part d with
  | nil =>
    rw [List.map_singleton, commas, h part List.mem_cons_self hd closing_bracket,
      scan_bracket (.inr rfl), List.flatMap_singleton, Stream.after_append]
    rfl
  | cons next parts ih =>
    have htext : commas ((part :: next :: parts).map text) =
        text part ++ ',' :: commas ((next :: parts).map text) := rfl
    rw [htext, List.map_append, List.append_assoc, List.map_cons, List.cons_append,
      h part List.mem_cons_self hd (closing_cons (.inl rfl)), scan_comma,
      ih (fun other hmem => h other (List.mem_cons_of_mem _ hmem)) (.inr rfl),
      List.flatMap_cons (x := part), List.append_assoc, Stream.after_append (tokens part)]

/-- So are the contents of a container, which may be empty. -/
theorem scan_commas (h : ∀ part ∈ parts, Scanned opened container (text part) (tokens part)) :
    scan (container :: opened) (.due container.first)
        ((commas (parts.map text)).map some ++ some container.bracket :: rest) =
      Stream.after (parts.flatMap tokens ++ [.close]) (scan opened (.due .separator) rest) := by
  cases parts with
  | nil => exact scan_bracket (.inl rfl)
  | cons part parts => exact scan_parts h (.inl rfl)

end

theorem scan_openArray (hd : d.Admits) (hopened : opened.length < maxDepth) :
    scan opened (.due d) (some '[' :: rest) =
      .next .openArray (scan (.array :: opened) (.due .firstItem) rest) :=
  scan_of_emit ((step_of_admits hd rfl (by decide)).trans (if_pos hopened))

theorem scan_openObject (hd : d.Admits) (hopened : opened.length < maxDepth) :
    scan opened (.due d) (some '\x7b' :: rest) =
      .next .openObject (scan (.object :: opened) (.due .firstKey) rest) :=
  scan_of_emit ((step_of_admits hd rfl (by decide)).trans (if_pos hopened))

/-! ## The whole tree -/

/-- Wherever a value may stand, the text of a tree is scanned as its tokens. -/
theorem scan_renderChars {tree : Json} (hfloats : ∀ x, tree.Mentions x → ReadBack x)
    (hdepth : opened.length + tree.depth ≤ maxDepth) (hd : d.Admits) (hclosing : Closing rest) :
    scan opened (.due d) ((renderChars tree).map some ++ rest) =
      Stream.after tree.toTokens (scan opened (.due .separator) rest) := by
  -- one more container is open around each part, and the part is less deep by one at least
  induction tree using strong_induction generalizing opened d rest with
  | h tree ih =>
    cases tree with
    | scalar s =>
      refine scan_scalar s (fun x finite hs => ?_) hd hclosing
      exact hfloats x (mentions_scalar_iff.mpr ⟨finite, hs⟩)
    | array items =>
      rw [depth] at hdepth
      have hitems : ∀ item ∈ items, Scanned opened .array (renderChars item) item.toTokens := by
        intro item hmem d rest hd hclosing
        have hitem := depth_le_itemsDepth hmem
        have hadmits : d.Admits := by rcases hd with rfl | rfl <;> trivial
        have hfloats' (x : Double) (hx : item.Mentions x) : ReadBack x :=
          hfloats x (mentions_array_iff.mpr ⟨item, hmem, hx⟩)
        exact ih item (sizeOf_item_lt hmem) hfloats' (by rw [List.length_cons]; omega) hadmits
          hclosing
      have htext : (renderChars (.array items)).map some ++ rest =
          some '[' :: ((commas (items.map renderChars)).map some ++ some ']' :: rest) := by
        simp [renderChars, renderItems_eq_map]
      rw [htext, scan_openArray hd (by omega), toTokens, itemsTokens_eq_flatMap]
      exact congrArg (Stream.next .openArray) (scan_commas hitems)
    | object members =>
      rw [depth] at hdepth
      have hmembers : ∀ member ∈ members, Scanned opened .object
          (renderString member.1 ++ ':' :: renderChars member.2)
          (.key member.1 :: member.2.toTokens) := by
        intro member hmem d rest hd hclosing
        have hmember := depth_le_membersDepth hmem
        have hcolon {rest : List Glyph} :
            scan (.object :: opened) (.due .colon) (some ':' :: rest) =
              scan (.object :: opened) (.due .value) rest := scan_of_go rfl
        have hadmits : Due.value.Admits := trivial
        have hfloats' (x : Double) (hx : member.2.Mentions x) : ReadBack x :=
          hfloats x (mentions_object_iff.mpr ⟨member, hmem, hx⟩)
        have hvalue := @ih member.2 (sizeOf_member_lt hmem) (.object :: opened) .value rest hfloats'
          (by rw [List.length_cons]; omega) hadmits hclosing
        rw [List.map_append, List.append_assoc, List.map_cons, List.cons_append, scan_key hd,
          hcolon, hvalue]
        rfl
      have htext : (renderChars (.object members)).map some ++ rest =
          some '\x7b' :: ((commas (members.map fun member =>
            renderString member.1 ++ ':' :: renderChars member.2)).map some ++
              some '\x7d' :: rest) := by
        simp [renderChars, renderMembers_eq_map]
      rw [htext, scan_openObject hd (by omega), toTokens, membersTokens_eq_flatMap]
      exact congrArg (Stream.next .openObject) (scan_commas hmembers)

theorem tokens_render {tree : Json} (hfloats : ∀ x, tree.Mentions x → ReadBack x)
    (h : tree.depth ≤ maxDepth) :
    tokens (Text.glyphs tree.render) = Stream.done.after tree.toTokens := by
  have hdepth : ([] : List Opened).length + tree.depth ≤ maxDepth := by simpa using h
  have hadmits : Due.value.Admits := trivial
  have hscan := scan_renderChars hfloats hdepth hadmits closing_nil
  rw [List.append_nil] at hscan
  rw [tokens, Text.glyphs, render, String.toList_ofList]
  exact hscan

end Conform.Json
