import Mathlib.Data.List.Chain
import Mathlib.Data.List.Infix
import QueryFacts.Proofs.Layout
import QueryFacts.Proofs.LiteralMasking

/-! The fingerprint of texts of code alone, without quotes, comments and more than single spaces. Most passes leave
such a text as it is, and those that do not work on the parts around a border one by one. -/

namespace QueryFacts.Fingerprint
open Text Text.Pattern Proofs.LiteralMasking

/-- Characters that stand next to each other where there are only single spaces and no comments. -/
def MayTouch (c d : Char) : Prop := ¬(c = ' ' ∧ d = ' ') ∧ ¬(c = '-' ∧ d = '-') ∧ ¬(c = '/' ∧ d = '*')

instance : DecidableRel MayTouch := fun c d => inferInstanceAs (Decidable (¬(c = ' ' ∧ d = ' ') ∧ _))

/-- A text of code alone, with no blanks but single spaces. -/
structure IsPlain (text : List Char) : Prop where
  unquoted : ∀ c ∈ text, c ∉ [singleQuote, doubleQuote, backtick, '\\', '#']
  spaces : ∀ c ∈ text, isBlank c = true → c = ' '
  apart : text.IsChain MayTouch

end QueryFacts.Fingerprint

namespace QueryFacts.Proofs.PlainCode
open Text Text.Pattern Fingerprint Replacement LikeFolding LiteralMasking

section Patterns

variable {pattern first second : Pattern} {change : List Char → List Char} {text begun middle block after : List Char}

theorem next_none (fails : first text = none) : (first.next second) text = none := by
  simp [next, fails]

theorem next_some (found : first text = some (begun, middle)) :
    (first.next second) text = (second middle).map (Prod.map (begun ++ ·) id) := by
  simp only [next, found, Option.bind_eq_bind, Option.bind_some]
  cases second middle <;> rfl

/-- No match begins in a block when none begins with two characters that stand next to each other in it. -/
theorem silent_of_chain {pairs : Char → Char → Prop} (fails : ∀ c d rest, pairs c d → pattern (c :: d :: rest) = none)
    {d : Char} {rest : List Char} (chain : (block ++ [d]).IsChain pairs) : Silent pattern block (d :: rest) := by
  rintro part more ⟨front, rfl⟩
  obtain ⟨c, others, rfl⟩ := List.exists_cons_of_ne_nil more
  rw [List.append_assoc, List.isChain_append] at chain
  have within := chain.2.1
  cases others with
  | nil => exact fails c d rest (by simpa using within)
  | cons e others => exact fails c e (others ++ d :: rest) (List.isChain_cons_cons.mp within).1

theorem silent_append (silent : Silent pattern block (middle ++ after)) (later : Silent pattern middle after) :
    Silent pattern (block ++ middle) after := by
  intro part more suffix
  rcases List.suffix_or_suffix_of_suffix suffix (List.suffix_append block middle) with inside | ⟨front, rfl⟩
  · exact later part more inside
  · rcases eq_or_ne front [] with rfl | begun
    · exact later _ more (List.suffix_refl middle)
    · rw [List.append_assoc]
      exact silent front begun (List.suffix_append_self_iff.mp suffix)

theorem replace_same (silent : Silent pattern text []) : replace pattern change text = text := by
  have same : replace pattern change (text ++ []) = text ++ replace pattern change [] := replace_silent silent
  rwa [List.append_nil, replace_nil, List.append_nil] at same

end Patterns

section Plain

variable {text : List Char}

theorem plain_append {front back : List Char} (first : IsPlain front) (second : IsPlain back)
    (border : ∀ c ∈ front.getLast?, ∀ d ∈ back.head?, MayTouch c d) : IsPlain (front ++ back) where
  unquoted c member := (List.mem_append.mp member).elim (first.unquoted c) (second.unquoted c)
  spaces c member := (List.mem_append.mp member).elim (first.spaces c) (second.spaces c)
  apart := List.isChain_append.mpr ⟨first.apart, second.apart, border⟩

theorem plain_suffix {part : List Char} (plain : IsPlain text) (suffix : part <:+ text) : IsPlain part where
  unquoted c member := plain.unquoted c (suffix.subset member)
  spaces c member := plain.spaces c (suffix.subset member)
  apart := plain.apart.suffix suffix

theorem opening_plain {c : Char} {rest : List Char} (plain : IsPlain (c :: rest)) :
    SegmentKind.opening? c rest = none := by
  have other := plain.unquoted c List.mem_cons_self
  simp only [List.mem_cons, List.not_mem_nil, not_or, or_false] at other
  have block : ¬(c = '/' ∧ rest.head? = some '*') := by
    rintro ⟨rfl, head⟩
    obtain ⟨more, rfl⟩ := List.head?_eq_some_iff.mp head
    exact (List.isChain_cons_cons.mp plain.apart).1.2.2 ⟨rfl, rfl⟩
  have line : ¬(c = '-' ∧ rest.head? = some '-') := by
    rintro ⟨rfl, head⟩
    obtain ⟨more, rfl⟩ := List.head?_eq_some_iff.mp head
    exact (List.isChain_cons_cons.mp plain.apart).1.2.1 ⟨rfl, rfl⟩
  simp [SegmentKind.opening?, other, block, line]

/-- A text has no comments to lose, and each of its spaces stays. -/
theorem joinLayout_plain (plain : IsPlain text) (ends : ∀ c ∈ text.getLast?, isBlank c = false) :
    joinLayout true false (layout text) = text := by
  induction length : text.length using Nat.strong_induction_on generalizing text with
  | _ size ih =>
    have solid (started gap : Bool) (c : Char) (rest : List Char) (solid : isBlank c = false)
    (suffix : c :: rest <:+ text) :
        joinLayout started gap (layout (c :: rest)) = (if started && gap then [' '] else []) ++ c :: rest := by
      have within := (List.suffix_cons c rest).trans suffix
      have shorter := suffix.length_le
      rw [List.length_cons] at shorter
      have restEnds : ∀ c ∈ rest.getLast?, isBlank c = false := by
        intro d last
        obtain ⟨front, rfl⟩ := within
        exact ends d (by rw [List.getLast?_append, last]; rfl)
      rw [Layout.layout_code (opening_plain (plain_suffix plain suffix)), solid, if_neg Bool.false_ne_true,
        Layout.joinLayout_some, ih rest.length (by omega) (plain_suffix plain within) restEnds rfl]
    cases text with
    | nil => simp [Layout.layout_nil]
    | cons c rest =>
      cases blank : isBlank c with
      | false => exact solid true false c rest blank (List.suffix_refl _)
      | true =>
        obtain rfl := plain.spaces c List.mem_cons_self blank
        rw [Layout.layout_code (opening_plain plain), blank, if_pos rfl, Layout.joinLayout_none]
        cases rest with
        | nil => cases blank.symm.trans (ends ' ' rfl)
        | cons d rest =>
          have next : isBlank d = false := by
            rw [Bool.eq_false_iff]
            intro also
            exact (List.isChain_cons_cons.mp plain.apart).1.1 ⟨rfl, plain.spaces d (by simp) also⟩
          exact solid true true d rest next (List.suffix_cons _ _)

theorem stripComments_plain {c : Char} {rest : List Char} (plain : IsPlain (c :: rest)) (begins : isBlank c = false)
    (ends : ∀ d ∈ (c :: rest).getLast?, isBlank d = false) : stripComments (c :: rest) = c :: rest := by
  have whole := joinLayout_plain plain ends
  rw [Layout.layout_code (opening_plain plain), begins, if_neg Bool.false_ne_true, Layout.joinLayout_some] at whole
  rw [Layout.stripComments_eq, Layout.layout_code (opening_plain plain), begins, if_neg Bool.false_ne_true,
    Layout.joinLayout_some]
  exact whole

theorem spaced_plain (plain : IsPlain text) : spaced text = text := by
  refine replace_same fun part more suffix => Option.eq_none_iff_forall_ne_some.mpr ?_
  rintro ⟨taken, rest⟩ found
  rw [List.append_nil] at found
  obtain ⟨rfl, two, blank, -⟩ := blankRun_iff.mp found
  have within := plain_suffix plain suffix
  cases taken with
  | nil => simp at two
  | cons c others =>
    cases others with
    | nil => simp at two
    | cons d others =>
      have apart := (List.isChain_cons_cons.mp within.apart).1.1
      exact apart ⟨within.spaces c (by simp) (blank c (by simp)), within.spaces d (by simp) (blank d (by simp))⟩

end Plain

section PlainPasses

variable {text : List Char}

theorem likeMask_unquoted (unquoted : singleQuote ∉ text) : likeMask text = text := by
  refine replace_same fun part more suffix => likeLiteral_none fun content rest _ _ same => ?_
  rw [List.append_nil] at same
  exact unquoted (suffix.subset (by simp [same]))

theorem findAll_likeless (likeless : ∀ part, part <:+ text → anyCase " like x".toList part = none) :
    findAll likeCondition text = [] := by
  rw [← List.append_nil text, findAll_silent, findAll_nil]
  refine fun part _ suffix => takes_likeCondition.fails fun taken rest condition whole => ?_
  obtain @⟨word, operand, like, -, -, -, likes⟩ := condition
  have within : like ++ rest <:+ part := ⟨word ++ ' ' :: operand, by simpa using whole.symm⟩
  cases (likeless _ (within.trans suffix)).symm.trans (anyCase_iff.mpr ⟨rfl, likes⟩)

theorem foldLikes_likeless (unquoted : singleQuote ∉ text)
    (likeless : ∀ part, part <:+ unpercented text → anyCase " like x".toList part = none) :
    foldLikes text = unpercented text := by
  have same : likeMask (unpercented text) = unpercented text :=
    likeMask_unquoted fun member => unquoted (List.mem_of_mem_filter member)
  change (distinct (findAll likeCondition (likeMask (unpercented text)))).foldl foldChain
      (likeMask (unpercented text)) = _
  rw [same, findAll_likeless likeless]
  rfl

theorem maskLiterals_unquoted (unquoted : ∀ c ∈ text, c ∉ [singleQuote, doubleQuote, backtick, '\\', '#']) :
    maskLiterals text = replace valueList foldList (numberMask (reduced text)) := by
  have absent (c : Char) (special : c ∈ [singleQuote, doubleQuote, backtick, '\\', '#']) : c ∉ text :=
    fun member => unquoted c member special
  have escapes : unescaped text = text := by
    refine replace_same fun part _ suffix => takes_escape.fails fun taken rest escaped whole => ?_
    obtain ⟨-⟩ := escaped
    rw [List.append_nil] at whole
    exact absent '\\' (by simp) (suffix.subset (by simp [whole]))
  have quotes (quote : Char) (special : quote ∈ [singleQuote, doubleQuote, backtick, '\\', '#']) :
      quoteMask quote text = text := by
    have same := quoteMask_plain (absent quote special) []
    simpa [quoteMask] using same
  rw [maskLiterals_eq, escapes, quotes singleQuote (by simp), quotes doubleQuote (by simp)]

/-- The passes that there is something to do for in a text of code without LIKE conditions. -/
theorem ofText_plain {c : Char} {rest : List Char} (plain : IsPlain (c :: rest)) (begins : isBlank c = false)
    (ends : ∀ d ∈ (c :: rest).getLast?, isBlank d = false)
    (likeless : ∀ part, part <:+ unpercented (c :: rest) → anyCase " like x".toList part = none) :
    ofText (c :: rest) = trim (replace valueList foldList (numberMask (reduced (unpercented (c :: rest))))) := by
  have unquoted : singleQuote ∉ c :: rest := fun member => plain.unquoted _ member (by simp)
  have content : (trim (c :: rest)).isEmpty = false := trim_isEmpty_false List.mem_cons_self begins
  rw [ofText, if_neg (by simp [content]), stripComments_plain plain begins ends]
  change trim (maskLiterals (foldLikes (spaced (c :: rest)))) = _
  have masks :=
    maskLiterals_unquoted (show ∀ d ∈ unpercented (c :: rest), d ∉ [singleQuote, doubleQuote, backtick, '\\', '#'] from
    fun d member => plain.unquoted d (List.mem_of_mem_filter member))
  rw [spaced_plain plain, foldLikes_likeless unquoted likeless, masks]

end PlainPasses

section Borders

variable {text block after : List Char}

theorem reduced_append (solid : ∀ c ∈ after.head?, isBlank c = false) :
    reduced (block ++ after) = reduced block ++ reduced after :=
  replace_append (proper_some1 isBlank) (run_local (fun _ _ _ => some1_iff) (.inr solid))

theorem reduced_cons {c : Char} (solid : isBlank c = false) : reduced (c :: text) = c :: reduced text :=
  replace_none (next_none (by simp [one, solid]))

theorem reduced_plain (plain : IsPlain text) : reduced text = text := by
  induction text with
  | nil => rfl
  | cons c rest ih =>
    have later := ih (plain_suffix plain (List.suffix_cons c rest))
    cases blank : isBlank c with
    | false => rw [reduced_cons blank, later]
    | true =>
      obtain rfl := plain.spaces c List.mem_cons_self blank
      have single : ∀ d ∈ rest.head?, isBlank d = false := by
        intro d head
        obtain ⟨more, rfl⟩ := List.head?_eq_some_iff.mp head
        rw [Bool.eq_false_iff]
        exact fun also => (List.isChain_cons_cons.mp plain.apart).1.1 ⟨rfl, plain.spaces d (by simp) also⟩
      have found : some1 isBlank (' ' :: rest) = some ([' '], rest) :=
        some1_iff.mpr ⟨rfl, by simp, by simpa using blank, single⟩
      rw [reduced, replace_some (proper_some1 isBlank) found]
      exact congrArg (' ' :: ·) later

/-- A number that begins in front of a character that is no digit ends there. -/
theorem numberMask_append (stops : ∀ c ∈ after.head?, c.isDigit = false) :
    numberMask (block ++ after) = numberMask block ++ numberMask after := by
  refine replace_append proper_number fun part more suffix => ?_
  cases found : number part with
  | some split =>
    obtain ⟨taken, rest⟩ := split
    obtain ⟨sign, digits, signed, some, all, ends, rfl, rfl⟩ := number_iff.mp found
    refine number_iff.mpr ⟨sign, digits, signed, some, all, ?_, rfl, List.append_assoc _ _ _⟩
    cases rest with
    | nil => exact stops
    | cons d rest => exact ends
  | none =>
    rw [Option.map_none, Option.eq_none_iff_forall_ne_some]
    rintro ⟨taken, rest⟩ matched
    obtain ⟨sign, digits, signed, some, all, ends, rfl, whole⟩ := number_iff.mp matched
    rcases List.append_eq_append_iff.mp whole with ⟨further, split, rfl⟩ | ⟨further, rfl, rfl⟩
    · rcases eq_or_ne further [] with rfl | begun
      · rw [List.append_nil] at split
        have whole : number part = Option.some (sign ++ digits, []) :=
          number_iff.mpr ⟨sign, digits, signed, some, all, by simp, rfl, by simp [split]⟩
        cases found.symm.trans whole
      · -- A digit would follow the border.
        obtain ⟨d, others, rfl⟩ := List.exists_cons_of_ne_nil begun
        have digit : ∀ c ∈ (sign ++ digits).tail, c.isDigit = true := by
          rcases signed with rfl | rfl
          · exact fun c member => all c (List.mem_of_mem_tail member)
          · exact all
        have inside : d ∈ (sign ++ digits).tail := by
          rw [split, List.tail_append_of_ne_nil more]
          simp
        cases (stops d rfl).symm.trans (digit d inside)
    · have stopped : ∀ c ∈ further.head?, c.isDigit = false := by
        cases further with
        | nil => simp
        | cons d further => exact ends
      cases found.symm.trans (number_iff.mpr ⟨sign, digits, signed, some, all, stopped, rfl, rfl⟩)

theorem numberMask_cons {c : Char} (other : c.isDigit = false) (unsigned : c ≠ '-') :
    numberMask (c :: text) = c :: numberMask text :=
  numberMask_other other fun sign => absurd sign unsigned

theorem numberMask_between {c : Char} (other : c.isDigit = false) (unsigned : c ≠ '-') :
    numberMask (block ++ c :: after) = numberMask block ++ c :: numberMask after := by
  rw [numberMask_append (by simpa using other), numberMask_cons other unsigned]

theorem head_numberMask {c : Char} (other : c ≠ 'N') (first : text.head? ≠ some c) :
    (numberMask text).head? ≠ some c := by
  cases text with
  | nil => exact first
  | cons d rest =>
    cases found : number (d :: rest) with
    | none => simpa [numberMask, replace_none found] using first
    | some split => simpa [numberMask, replace_some proper_number found] using other.symm

end Borders

end QueryFacts.Proofs.PlainCode
