import Mathlib.Data.Bool.AllAny
import Mathlib.Data.List.Chain
import QueryFacts.Proofs.ItemBorders
import QueryFacts.Proofs.PlainText
import QueryFacts.Proofs.SpacedTokens

/-! Taking the comments out of a text leaves its tokens as they are. What the lexer passes over
is what is left out, and each item that it reads is kept whole. -/

namespace QueryFacts.Lexer

/-- An operator in front of a star that together would look like the start of a comment. -/
def Item.endsInSlash : Item → Bool
  | .lexical .operator value none => value.getLast? == some '/'
  | _ => false

/-- Items that a text is segmented around as they are read. -/
structure Ordinary (items : List Item) : Prop where
  each : ∀ item ∈ items, item.isOrdinary = true
  apart : items.IsChain fun first next => first.endsInSlash = true → next ≠ .lexical .wildcard ['*'] none

theorem Ordinary.tail {item : Item} {items : List Item} (ordinary : Ordinary (item :: items)) : Ordinary items :=
  ⟨fun other member => ordinary.each other (List.mem_cons_of_mem _ member), ordinary.apart.tail⟩

end QueryFacts.Lexer

namespace QueryFacts.Proofs.CommentRemoval
open Text Lexer Layout LiteralText ItemBorders

/-- Up to `after` a text has no gap. -/
def Solid (text after : List Char) : Prop := ∃ part, text = part ++ after ∧ layout text = part.map some ++ layout after

namespace Solid
variable {c : Char} {text middle after : List Char}

theorem trans (first : Solid text middle) (second : Solid middle after) : Solid text after := by
  obtain ⟨part, rfl, before⟩ := first
  obtain ⟨more, rfl, behind⟩ := second
  exact ⟨part ++ more, (List.append_assoc part more after).symm,
    by rw [before, behind, List.map_append, List.append_assoc]⟩

theorem inert {part : List Char} (inert : ∀ c ∈ part, isInert c = true) (after : List Char) :
    Solid (part ++ after) after :=
  ⟨part, rfl, layout_inert inert after⟩

theorem code (solid : isBlank c = false) (code : SegmentKind.opening? c after = none) : Solid (c :: after) after :=
  ⟨[c], rfl, by rw [layout_code code, solid]; rfl⟩

end Solid

section Gaps
open Segment

variable {text after : List Char}

private theorem throughBlockEnd_eq (found : afterBlockComment text = some after) :
    (throughBlockEnd text).2 = after := by
  fun_induction afterBlockComment text with
  | case1 => cases found
  | case2 => cases found
  | case3 c d rest closes =>
    rw [throughBlockEnd, if_pos closes]
    exact Option.some.inj found
  | case4 c d rest opened ih =>
    rw [throughBlockEnd, if_neg opened]
    exact ih found

private theorem throughNewline_eq (text : List Char) :
    (throughNewline text).2 = (text.dropWhile (· ≠ '\n')).drop 1 := by
  fun_induction throughNewline text with
  | case1 => rfl
  | case2 rest => simp
  | case3 c rest other ih => rw [List.dropWhile_cons_of_pos (by simpa using other), ← ih]; rfl

end Gaps

section Lexical

theorem numeric_lexical (text : List Char) : (numeric text).1 ≠ .gap := by
  unfold numeric number wordFrom
  dsimp only
  repeat' split
  all_goals
    intro none
    cases none

theorem atSign_lexical (rest : List Char) : (atSign rest).1 ≠ .gap := by
  unfold atSign wordFrom
  repeat' split
  all_goals
    intro none
    cases none

theorem symbol_lexical (c : Char) (rest : List Char) : (symbol c rest).1 ≠ .gap := by
  unfold symbol
  split
  all_goals
    intro none
    cases none

theorem string?_lexical {c : Char} {rest after : List Char} {item : Item}
    (read : string? c rest = some (.ok (item, after))) :
    item ≠ .gap := by
  unfold string? at read
  repeat' split at read
  all_goals first | cases read | skip
  all_goals
    obtain ⟨inner, -, rfl⟩ := quotedItem_eq_ok.mp (Option.some.inj read)
    intro none
    cases none

end Lexical

section Items

variable {c : Char} {text rest after : List Char} {item : Item}

private theorem word_isOrdinary (text : List Char) : (word text).isOrdinary = text.all isInert := by
  unfold word
  split <;> rfl

theorem word_solid {first more : List Char} (ordinary : (wordFrom first more).1.isOrdinary = true) :
    Solid (first ++ more) (wordFrom first more).2 := by
  have letters : ∀ c ∈ first ++ more.takeWhile isIdentifierPart, isInert c = true :=
    List.all_eq_true.mp ((word_isOrdinary _).symm.trans ordinary)
  have solid := Solid.inert letters (more.dropWhile isIdentifierPart)
  rwa [List.append_assoc, List.takeWhile_append_dropWhile] at solid

private theorem isInert_of_isDigit (digit : c.isDigit = true) : isInert c = true :=
  isInert_of (·.isDigit) digit (by decide)

private theorem mantissa_solid (text : List Char) : Solid text (text.drop (mantissa text).length) := by
  have inert : ∀ c ∈ mantissa text, isInert c = true := by
    intro c member
    rcases digit_or_point_of_mem_mantissa c member with digit | rfl
    · exact isInert_of_isDigit digit
    · decide
  have solid := Solid.inert inert (text.drop (mantissa text).length)
  rwa [List.prefix_iff_eq_append.mp (mantissa_begins text)] at solid

private theorem exponent_solid (text : List Char) : Solid text (text.drop (exponent text).length) := by
  have whole := List.prefix_iff_eq_append.mp (exponent_begins text)
  generalize text.drop (exponent text).length = after at whole ⊢
  rw [← whole]
  rcases exponent_cases text with none | ⟨e, sign, digits, written, letter, signed, some, all⟩
  · rw [none]
    exact .inert (List.forall_mem_nil _) after
  · have first : isInert e = true := by rcases letter with rfl | rfl <;> decide
    have later : Solid (digits ++ after) after := .inert (fun c member => isInert_of_isDigit (all c member)) after
    rw [written, List.cons_append, List.append_assoc]
    refine Solid.trans (.inert (List.forall_mem_singleton.mpr first) _) (Solid.trans ?_ later)
    rcases signed with rfl | rfl | rfl
    · exact .inert (List.forall_mem_nil _) _
    · exact .inert (List.forall_mem_singleton.mpr (by decide)) _
    · obtain ⟨d, more, rfl⟩ := List.exists_cons_of_ne_nil some
      have noDash : d ≠ '-' := by
        rintro rfl
        exact absurd (all '-' List.mem_cons_self) (by decide)
      refine .code
        (by decide) (opening?_eq_none.mpr ⟨by decide, fun found => absurd found.1 (by decide), fun found => ?_⟩)
      exact noDash (Option.some.inj found.2)

theorem number_solid (ordinary : (number text).1.isOrdinary = true) : Solid text (number text).2 := by
  have start := mantissa_solid text
  have whole := List.prefix_iff_eq_append.mp (mantissa_begins text)
  unfold number at ordinary ⊢
  dsimp only at ordinary ⊢
  split
  next => exact start
  next noPoint =>
  rw [if_neg noPoint] at ordinary
  split
  next word =>
    rw [if_pos word] at ordinary
    have solid := word_solid ordinary
    rwa [whole] at solid
  next =>
    refine start.trans ((exponent_solid _).trans ?_)
    dsimp only
    split
    next suffix =>
      obtain ⟨more, same⟩ := List.head?_eq_some_iff.mp suffix
      rw [same]
      exact .inert (List.forall_mem_singleton.mpr (by decide)) more
    next => exact .inert (List.forall_mem_nil _) _

theorem numeric_solid (ordinary : (numeric text).1.isOrdinary = true) : Solid text (numeric text).2 := by
  unfold numeric at ordinary ⊢
  split
  next digits =>
    have hex : ∀ c ∈ '0' :: 'x' :: digits.takeWhile isHexDigit, isInert c = true := by
      refine List.forall_mem_cons.mpr ⟨by decide, List.forall_mem_cons.mpr ⟨by decide, fun c member => ?_⟩⟩
      exact isInert_of isHexDigit (List.all_eq_true.mp List.all_takeWhile c member) (by decide)
    have solid := Solid.inert hex (digits.dropWhile isHexDigit)
    rwa [List.cons_append, List.cons_append, List.takeWhile_append_dropWhile] at solid
  next other => exact number_solid (by simpa only [other] using ordinary)

theorem atSign_solid (ordinary : (atSign rest).1.isOrdinary = true) : Solid ('@' :: rest) (atSign rest).2 := by
  have sign (after : List Char) : Solid ('@' :: after) after := .inert (List.forall_mem_singleton.mpr (by decide)) after
  unfold atSign at ordinary ⊢
  split
  next => exact sign []
  next after => exact (sign _).trans (.inert (List.forall_mem_singleton.mpr (by decide)) after)
  next after => exact (sign _).trans (.inert (List.forall_mem_singleton.mpr (by decide)) after)
  next => exact (sign _).trans (sign [])
  next d more =>
    simp only at ordinary
    split
    next => exact (sign _).trans (sign _)
    next apart =>
      rw [if_neg apart] at ordinary
      exact word_solid ordinary
  next d more noGreater noMark noLast noSign =>
    split
    next => exact sign _
    next apart =>
      have read : (wordFrom ['@', d] more).1.isOrdinary = true := by
        simpa only [if_neg apart] using ordinary
      exact word_solid read

private theorem numerals_inert :
    ([singleQuote, doubleQuote, backtick, '#', '/', '-'] ++ blanks).any Text.isNumeral = false := by
  decide

private theorem placeholder_solid (rest : List Char) : Solid ('?' :: rest) (rest.dropWhile Text.isNumeral) := by
  have inert : ∀ c ∈ '?' :: rest.takeWhile Text.isNumeral, isInert c = true :=
    List.forall_mem_cons.mpr ⟨by decide, fun c member =>
      isInert_of Text.isNumeral (List.all_eq_true.mp List.all_takeWhile c member) numerals_inert⟩
  have solid := Solid.inert inert (rest.dropWhile Text.isNumeral)
  rwa [List.cons_append, List.takeWhile_append_dropWhile] at solid

private theorem unquoted_of_string? (free : string? c rest = none) :
    c ≠ singleQuote ∧ c ≠ doubleQuote ∧ c ≠ backtick := by
  refine ⟨?_, ?_, ?_⟩ <;> rintro rfl <;> cases free

private theorem longOperators_inert : ∀ known ∈ longOperators,
    known.all isInert = true ∨ known ∈ [['-', '>', '>'], ['-', '>'], ['|', '|', '/'], ['|', '/']] := by decide

private theorem operator_solid {known : List Char} (member : known ∈ longOperators)
    (border : known.getLast? = some '/' → after.head? ≠ some '*') : Solid (known ++ after) after := by
  rcases longOperators_inert known member with inert | other
  · exact .inert (List.all_eq_true.mp inert) after
  · have arrow (rest : List Char) : Solid ('-' :: '>' :: rest) ('>' :: rest) := .code (by decide) rfl
    have slash (last : known.getLast? = some '/') : Solid ('/' :: after) after := by
      refine .code (by decide) (opening?_eq_none.mpr ⟨by decide, fun found => border last found.2, ?_⟩)
      exact fun found => absurd found.1 (by decide)
    simp only [List.mem_cons, List.not_mem_nil, or_false] at other
    rcases other with rfl | rfl | rfl | rfl
    · exact (arrow _).trans
        (.inert (List.forall_mem_cons.mpr ⟨by decide, List.forall_mem_singleton.mpr (by decide)⟩) after)
    · exact (arrow _).trans (.inert (List.forall_mem_singleton.mpr (by decide)) after)
    · exact Solid.trans
        (.inert (List.forall_mem_cons.mpr ⟨by decide, List.forall_mem_singleton.mpr (by decide)⟩) _) (slash rfl)
    · exact Solid.trans (.inert (List.forall_mem_singleton.mpr (by decide)) _) (slash rfl)

private theorem blanks_read : ∀ c ∈ blanks, isGap c = true ∨ isIdentifierStart c = true :=
  List.all_iff_forall_prop.mp (by decide)

theorem symbol_solid (noGap : ¬isGap c = true) (noWord : ¬isIdentifierStart c = true)
    (code : SegmentKind.opening? c rest = none)
    (border : (symbol c rest).1.endsInSlash = true → (symbol c rest).2.head? ≠ some '*') :
    Solid (c :: rest) (symbol c rest).2 := by
  unfold symbol at border ⊢
  split
  next known found =>
    rw [found] at border
    have begins := List.find?_some found
    have member := List.mem_of_find?_eq_some found
    obtain ⟨after, whole⟩ := List.isPrefixOf_iff_prefix.mp begins
    obtain ⟨first, more, rfl⟩ := List.exists_cons_of_ne_nil (longOperators_ne_nil known member)
    rw [List.cons_append] at whole
    obtain ⟨rfl, rfl⟩ := List.cons.inj whole
    have rest : (more ++ after).drop ((first :: more).length - 1) = after := List.drop_left
    dsimp only at border ⊢
    rw [rest] at border ⊢
    refine operator_solid member fun slash => border ?_
    split
    next unequal => rw [unequal] at slash; cases slash
    next => exact beq_iff_eq.mpr slash
  next =>
    refine .code ?_ code
    rw [Bool.eq_false_iff]
    intro blank
    rcases blanks_read c (mem_blanks blank) with gap | start
    · exact noGap gap
    · exact noWord start

/-- What the lexer takes in one step: a gap is a gap of the text, and an item is solid. -/
theorem scan_layout (read : scan c rest = .ok (item, after)) (ordinary : item.isOrdinary = true)
    (border : item.endsInSlash = true → after.head? ≠ some '*') :
    item = .gap ∧ layout (c :: rest) = none :: layout after ∨ item ≠ .gap ∧ Solid (c :: rest) after := by
  unfold scan at read
  split at read
  next blank =>
    obtain ⟨rfl, rfl⟩ := Prod.mk.inj (Except.ok.inj read)
    simp only [isGap, Bool.or_eq_true, beq_iff_eq] at blank
    refine .inl ⟨rfl, ?_⟩
    rcases blank with ((((rfl | rfl) | rfl) | rfl) | rfl) | rfl <;> exact layout_code rfl
  next noGap =>
  split at read
  next found string =>
    rw [read] at string
    obtain ⟨part, rfl, run⟩ := string?_run string ordinary
    exact .inr ⟨string?_lexical string, c :: part, rfl, run.layout⟩
  next noString =>
  split at read
  next starts =>
    obtain ⟨rfl, rfl⟩ := Prod.mk.inj (Except.ok.inj read)
    exact .inr ⟨numeric_lexical _, numeric_solid ordinary⟩
  next =>
  split at read
  next block =>
    obtain ⟨rfl, star⟩ := block
    obtain ⟨more, rfl⟩ := List.head?_eq_some_iff.mp star
    split at read
    next => cases read
    next closed =>
      obtain ⟨rfl, rfl⟩ := Prod.mk.inj (Except.ok.inj read)
      have opens : SegmentKind.opening? '/' ('*' :: more) = some .blockComment := rfl
      refine .inl ⟨rfl, ?_⟩
      rw [layout_comment rfl opens]
      exact congrArg (fun rest => none :: layout rest) (throughBlockEnd_eq closed)
  next noBlock =>
  split at read
  next line =>
    obtain ⟨rfl, rfl⟩ := Prod.mk.inj (Except.ok.inj read)
    have opens : SegmentKind.opening? c rest = some .lineComment := by
      rcases line with rfl | ⟨rfl, dash⟩
      · rfl
      · obtain ⟨more, rfl⟩ := List.head?_eq_some_iff.mp dash
        rfl
    refine .inl ⟨rfl, ?_⟩
    rw [layout_comment rfl opens]
    exact congrArg (fun rest => none :: layout rest) (throughNewline_eq rest)
  next noLine =>
  split at read
  next sign =>
    subst sign
    obtain ⟨rfl, rfl⟩ := Prod.mk.inj (Except.ok.inj read)
    exact .inr ⟨atSign_lexical rest, atSign_solid ordinary⟩
  next =>
  split at read
  next mark =>
    subst mark
    obtain ⟨rfl, rfl⟩ := Prod.mk.inj (Except.ok.inj read)
    refine .inr ⟨?_, placeholder_solid rest⟩
    intro none
    cases none
  next =>
  split at read
  next starts =>
    obtain ⟨rfl, rfl⟩ := Prod.mk.inj (Except.ok.inj read)
    refine .inr ⟨?_, word_solid ordinary⟩
    intro none
    cases none
  next noWord =>
    obtain ⟨rfl, rfl⟩ := Prod.mk.inj (Except.ok.inj read)
    obtain ⟨noSingle, noDouble, noTick⟩ := unquoted_of_string? noString
    have code : SegmentKind.opening? c rest = none :=
      opening?_eq_none.mpr ⟨⟨noSingle, noDouble, noTick, fun hash => noLine (.inl hash)⟩, noBlock,
        fun dash => noLine (.inr dash)⟩
    exact .inr ⟨symbol_lexical c rest, symbol_solid noGap noWord code border⟩

end Items

section Run

variable {text : List Char} {found : List Item}

/-- A text is copied up to its first gap. -/
theorem border_joinLayout (text : List Char) : ∃ front behind other, text = front ++ behind ∧
    joinLayout true false (layout text) = front ++ other ∧ Blunt other := by
  have gap (text : List Char) (rest : List (Option Char)) (begins : layout text = none :: rest) :
      ∃ front behind other, text = front ++ behind ∧ joinLayout true false (layout text) =
          front ++ other ∧ Blunt other := by
    refine ⟨[], text, _, rfl, by rw [List.nil_append], fun c first => ?_⟩
    rw [begins, joinLayout_none] at first
    exact head_joinLayout_gap first
  induction text using text_induction with
  | nil => exact ⟨[], [], [], rfl, by rw [layout_nil]; rfl, fun c first => by cases first⟩
  | code c rest code ih =>
    by_cases blank : isBlank c = true
    · exact gap _ _ (by rw [layout_code code, if_pos blank])
    · obtain ⟨front, behind, other, rfl, joined, blunt⟩ := ih
      refine ⟨c :: front, behind, other, rfl, ?_, blunt⟩
      rw [layout_code code, if_neg blank, joinLayout_some, joined]
      rfl
  | run c rest kind opens ih =>
    rcases kind_cases opens with quoted | comment
    · obtain ⟨front, behind, other, whole, joined, blunt⟩ := ih
      rw [split_quote quoted] at whole joined
      refine ⟨c :: (Segment.throughQuote c rest).1 ++ front, behind, other, ?_, ?_, blunt⟩
      · rw [List.cons_append, List.cons_append, List.append_assoc, ← whole, ← split_quote quoted, Segment.split_append]
      · rw [layout_quote quoted, joinLayout_run _ _ (List.cons_ne_nil _ _), joined, List.append_assoc]
        rfl
    · exact gap _ _ (layout_comment comment opens)

private theorem scan_star (rest : List Char) : scan '*' rest = .ok (.lexical .wildcard ['*'] none, rest) :=
  PlainText.scan_symbol_alone (by decide) (by decide) rest

private theorem head?_ne_star {item : Item} {after : List Char} {others : List Item}
    (ordinary : Ordinary (item :: others))
    (read : Lexer.items after = .ok others) (slash : item.endsInSlash = true) : after.head? ≠ some '*' := by
  intro star
  obtain ⟨more, rfl⟩ := List.head?_eq_some_iff.mp star
  obtain ⟨first, behind, later, scanned, -, rfl⟩ := items_cons.mp read
  rw [scan_star] at scanned
  obtain ⟨rfl, -⟩ := Prod.mk.inj (Except.ok.inj scanned)
  exact ordinary.apart.rel slash rfl

theorem items_space {text : List Char} {found : List Item} (read : Lexer.items text = .ok found) :
    Lexer.items (' ' :: text) = .ok (.gap :: found) :=
  items_cons.mpr ⟨.gap, text, found, rfl, read, rfl⟩

/-- The items of a text are found in its layout, whatever becomes of the gaps. -/
theorem items_joinLayout (read : Lexer.items text = .ok found) (ordinary : Ordinary found) (started gap : Bool) :
    ∃ others, Lexer.items (joinLayout started gap (layout text)) = .ok others ∧ solid others = solid found := by
  -- A scan may take any number of characters, so the induction is on the length of the text.
  induction size : text.length using Nat.strongRecOn generalizing text found started gap with
  | ind size ih =>
    cases text with
    | nil =>
      rw [layout_nil, joinLayout_nil]
      exact ⟨found, read, rfl⟩
    | cons c rest =>
      obtain ⟨item, after, others, scanned, remaining, rfl⟩ := items_cons.mp read
      have shorter := scan_length scanned
      have later (started gap : Bool) :=
        ih after.length (by rw [← size, List.length_cons]; exact Nat.lt_succ_of_le shorter)
        remaining ordinary.tail started gap rfl
      have here := ordinary.each item List.mem_cons_self
      rcases scan_layout scanned here
        (head?_ne_star ordinary remaining) with ⟨rfl, begins⟩ | ⟨lexical, part, whole, begins⟩
      · obtain ⟨items, joined, same⟩ := later started true
        rw [begins, joinLayout_none]
        exact ⟨items, joined, same⟩
      · obtain ⟨items, joined, same⟩ := later true false
        obtain ⟨front, behind, other, rfl, copied, blunt⟩ := border_joinLayout after
        cases part with
        | nil =>
          rw [List.nil_append] at whole
          rw [← whole] at shorter
          exact absurd shorter (Nat.not_succ_le_self _)
        | cons first part =>
          rw [List.cons_append] at whole
          obtain ⟨rfl, rfl⟩ := List.cons.inj whole
          rw [← List.append_assoc] at scanned
          have again := scan_cut scanned lexical here blunt
          rw [List.append_assoc] at again
          rw [copied] at joined
          have read : Lexer.items (c :: (part ++ (front ++ other))) = .ok (item :: items) :=
            items_cons.mpr ⟨item, _, items, again, joined, rfl⟩
          have kept : solid (item :: items) = solid (item :: others) := by
            simp only [solid] at same ⊢
            rw [List.filter_cons, List.filter_cons, same]
          rw [begins, joinLayout_run _ _ (List.cons_ne_nil _ _), copied]
          split
          · exact ⟨.gap :: item :: items, items_space read, kept⟩
          · exact ⟨item :: items, read, kept⟩

end Run

/-- Without its comments, a text has the tokens that it has with them, but for the spaces in
front of them, when the lexer reads the text as it is segmented. -/
theorem tokenize_stripComments {text : List Char} {items : List Item} (read : Lexer.items (normalize text) = .ok items)
    (ordinary : Ordinary items) {limits : Limits} {sequence : TokenSequence}
    (tokenized : tokenize limits (normalize text) = .ok sequence) :
    ∃ stripped, tokenize limits (normalize (stripComments text)) = .ok stripped ∧ stripped.bare = sequence.bare := by
  obtain ⟨others, found, same⟩ := items_joinLayout read ordinary false false
  rw [← stripComments_eq, ← normalize_stripComments] at found
  have equal := SpacedTokens.tokenize_bare found read same limits
  rw [tokenized] at equal
  cases stripped : tokenize limits (normalize (stripComments text)) with
  | error error => rw [stripped] at equal; cases equal
  | ok sequence =>
    rw [stripped] at equal
    exact ⟨sequence, rfl, Except.ok.inj equal⟩

/-- A comment alone may stand between two tokens. -/
theorem tokenize_stripComments_between : ∃ sequence stripped,
    tokenize {} (normalize "SELECT  'a  b'/* c */FROM t -- d".toList) = .ok sequence ∧
      tokenize {} (normalize (stripComments "SELECT  'a  b'/* c */FROM t -- d".toList)) = .ok stripped ∧
      stripped.bare = sequence.bare ∧ sequence.size = 4 := by
  have read : Lexer.items (normalize "SELECT  'a  b'/* c */FROM t -- d".toList) = .ok [word "SELECT".toList, .gap, .gap,
      literal "'a  b'".toList, .gap, word "FROM".toList, .gap, word "t".toList, .gap, .gap] := by decide +kernel
  have ordinary : Ordinary [word "SELECT".toList, .gap, .gap, literal "'a  b'".toList, .gap, word "FROM".toList, .gap,
      word "t".toList, .gap, .gap] := ⟨by decide, by simp [Item.endsInSlash, word, literal]⟩
  have count :
      (tokenize {} (normalize "SELECT  'a  b'/* c */FROM t -- d".toList)).toOption.map TokenSequence.size = some 4 := by
    decide +kernel
  cases tokenized : tokenize {} (normalize "SELECT  'a  b'/* c */FROM t -- d".toList) with
  | error error => rw [tokenized] at count; cases count
  | ok sequence =>
    rw [tokenized] at count
    obtain ⟨stripped, accepted, same⟩ := tokenize_stripComments read ordinary tokenized
    exact ⟨sequence, stripped, rfl, accepted, same, Option.some.inj count⟩

/-- A backslash before the end of a string of bytes is no escape, and the next string is taken for code. -/
example : stripComments "b'\\', 'a  b'".toList = "b'\\', 'a b'".toList := by decide +kernel

end QueryFacts.Proofs.CommentRemoval
