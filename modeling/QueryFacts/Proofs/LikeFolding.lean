import Mathlib.Data.Bool.AllAny
import QueryFacts.Fingerprint
import QueryFacts.Proofs.Replacement

/-! How LIKE conditions are folded around a block of text, such as the content of a string or a
number. A condition that begins before the block ends before it, unless the block belongs to
the left operand of a LIKE; then every pass up to the folding leaves the block alone and
does the same before and after it, whatever the block is. -/

namespace QueryFacts.Proofs.LikeFolding
open Text Text.Pattern Fingerprint Replacement

/-- A content that is masked as a whole: it has no quotes, no escapes and no LIKE of its own. -/
structure Content (block : List Char) : Prop where
  some : block ≠ []
  plain : ∀ c ∈ block, c ≠ singleQuote ∧ c ≠ '\\' ∧ c ≠ '%'
  silent : ∀ part, part <:+ block → anyCase "like".toList part = none

/-- The operand of a LIKE goes on at the start of the text. -/
def LikeFollows (text : List Char) : Prop := (anyCase " like x".toList (text.dropWhile (!isBlank ·))).isSome

/-- With these characters a string, a masked literal or a folded chain ends. -/
def Seals (c : Char) : Prop := c = singleQuote ∨ c = 'X' ∨ c = '.'

/-- Where a block stands, in the quotes of a string or as the digits of a number. -/
structure Placed (before block after : List Char) : Prop where
  seam : EndsIn Seals before ∨ ∀ c ∈ block, c.isDigit = true
  edge : (∀ c ∈ block, c.isDigit = true) ∨ after.head? = some singleQuote

/-- A block that is no part of the left operand of a LIKE. -/
structure Aside (before block after : List Char) : Prop extends Placed before block after where
  free : ¬LikeFollows after

/-- A LIKE condition whose pattern is masked. -/
inductive Condition : List Char → Prop where
  | mk {word operand like : List Char} (joins : Spelled "or" word ∨ Spelled "and" word) (some : operand ≠ [])
      (solid : ∀ c ∈ operand, isBlank c = false) (likes : Spelled " like x" like) :
      Condition (word ++ ' ' :: operand ++ like)

private theorem isBlank_forms : ∀ c ∈ forms ' ', c = ' ' := List.all_iff_forall_prop.mp (by decide)

theorem takes_likeCondition : Takes likeCondition Condition := by
  refine ⟨fun {text taken rest} => ?_⟩
  change ((Pattern.either (anyCase "or".toList) (anyCase "and".toList)).next
    ((word [' ']).next ((some1 (!isBlank ·)).next (anyCase " like x".toList)))) text = _ ↔ _
  simp only [next_iff, either_iff, word_iff, some1_iff, anyCase_iff]
  constructor
  · rintro
      ⟨word, middle, more, joins, ⟨space, after, others, ⟨rfl, rfl⟩, ⟨operand, last, like, ⟨rfl, some, solid, ends⟩,
      ⟨rfl, likes⟩, rfl⟩, rfl⟩, rfl⟩
    have whole : text = word ++ ([' '] ++ (operand ++ (like ++ rest))) ∧ (Spelled "or" word ∨ Spelled "and" word) := by
      rcases joins with ⟨whole, spelled⟩ | ⟨-, whole, spelled⟩
      · exact ⟨whole, .inl spelled⟩
      · exact ⟨whole, .inr spelled⟩
    refine ⟨by simp [whole.1], ?_⟩
    simpa using Condition.mk whole.2 some (by simpa using solid) likes
  · rintro ⟨rfl, condition⟩
    cases condition with
    | @mk word operand like joins some solid likes =>
      obtain ⟨space, others, rfl, form⟩ := likes.head rfl
      obtain rfl := isBlank_forms space form
      have tail : ∀ c ∈ ((' ' :: others) ++ rest).head?, (!isBlank c) = false := by simp; decide
      refine ⟨word, ' ' :: operand ++ (' ' :: others) ++ rest, ' ' :: operand ++ (' ' :: others), ?_,
        ⟨[' '], operand ++ (' ' :: others) ++ rest, operand ++ (' ' :: others), ⟨rfl, rfl⟩,
          ⟨operand, (' ' :: others) ++ rest, ' ' :: others,
            ⟨by simp, some, by simpa using solid, tail⟩, ⟨rfl, likes⟩, rfl⟩,
          rfl⟩, by simp⟩
      rcases joins with spelled | spelled
      · exact .inl ⟨by simp, spelled⟩
      · refine .inr ⟨?_, by simp, spelled⟩
        -- A word that starts like `and` does not start like `or`.
        obtain ⟨first, more, rfl, form⟩ := spelled.head rfl
        have other : ∀ c ∈ forms 'a', sameLetter 'o' c = false := List.all_iff_forall_prop.mp (by decide)
        simp [anyCase, other first form]

theorem Condition.ne_nil {condition : List Char} (folds : Condition condition) : condition ≠ [] := by
  cases folds
  simp

/-- What the first letter of `or` or `and` is not. -/
structure Leads (c : Char) : Prop where
  solid : isBlank c = false
  unquoted : c ≠ singleQuote
  noLike : sameLetter 'l' c = false
  noX : sameLetter 'x' c = false

private theorem leads_forms : ∀ c ∈ ['o', 'a'].flatMap forms,
    isBlank c = false ∧ c ≠ singleQuote ∧ sameLetter 'l' c = false ∧ sameLetter 'x' c = false :=
  List.all_iff_forall_prop.mp (by decide)

theorem Condition.head {condition : List Char} (folds : Condition condition) :
    ∃ c rest, condition = c :: rest ∧ Leads c := by
  have leads (letter c : Char) (there : letter ∈ ['o', 'a']) (form : c ∈ forms letter) : Leads c := by
    obtain ⟨solid, unquoted, noLike, noX⟩ := leads_forms c (List.mem_flatMap.mpr ⟨letter, there, form⟩)
    exact ⟨solid, unquoted, noLike, noX⟩
  cases folds with
  | mk joins some solid likes =>
    rcases joins with spelled | spelled
    · obtain ⟨c, rest, rfl, form⟩ := spelled.head rfl
      exact ⟨c, _, rfl, leads 'o' c (by simp) form⟩
    · obtain ⟨c, rest, rfl, form⟩ := spelled.head rfl
      exact ⟨c, _, rfl, leads 'a' c (by simp) form⟩

private theorem seals_forms : ∀ c ∈ " like x".toList.dropLast.flatMap forms,
    c ≠ singleQuote ∧ c ≠ 'X' ∧ c ≠ '.' ∧ c.isDigit = false :=
  List.all_iff_forall_prop.mp (by decide)

private theorem digit_forms : ∀ c ∈ " like x".toList.tail.flatMap forms, c.isDigit = false ∧ c ≠ singleQuote :=
  List.all_iff_forall_prop.mp (by decide)

private theorem joins_forms : ∀ c ∈ ("or".toList ++ "and".toList).flatMap forms, c.isDigit = false ∧ c ≠ singleQuote :=
  List.all_iff_forall_prop.mp (by decide)

theorem isBlank_of_isDigit {c : Char} (digit : c.isDigit = true) : isBlank c = false := by
  simp only [Char.isDigit, Bool.and_eq_true, decide_eq_true_eq, ge_iff_le, UInt32.le_iff_toNat_le] at digit
  have lower : 48 ≤ c.toNat := digit.1
  have upper : c.toNat ≤ 57 := digit.2
  simp only [isBlank, Bool.or_eq_false_iff, Bool.and_eq_false_iff, decide_eq_false_iff_not, beq_eq_false_iff_ne]
  omega

section Apart
variable {before block after condition front rest : List Char}

/-- No part of the end of a condition is on the other side of the border of two texts. -/
def Border (first last : List Char) : Prop :=
  EndsIn (fun c => Seals c ∨ c.isDigit = true) first ∨ ∃ c, last.head? = some c ∧ (c.isDigit = true ∨ c = singleQuote)

theorem like_beside {like first last : List Char} (likes : Spelled " like x" like)
    (border : first ≠ [] → last ≠ [] → Border first last) (whole : first ++ last = front ++ (like ++ rest)) :
    (∃ more, first = front ++ like ++ more) ∨ ∃ more, front = first ++ more ∧ last = more ++ like ++ rest := by
  rcases List.append_eq_append_iff.mp whole with ⟨more, rfl, rfl⟩ | ⟨part, rfl, more⟩
  · exact .inr ⟨more, rfl, by simp⟩
  · rcases List.append_eq_append_iff.mp more with ⟨other, rfl, rfl⟩ | ⟨other, rfl, rfl⟩
    · exact .inl ⟨other, by simp⟩
    · rcases eq_or_ne part [] with rfl | begun
      · exact .inr ⟨[], by simp, by simp⟩
      · rcases eq_or_ne other [] with rfl | unfinished
        · exact .inl ⟨[], by simp⟩
        · obtain ⟨left, right⟩ := likes.parts
          rcases border (by simp [begun]) (by simp [unfinished]) with ends | ⟨c, head, starts⟩
          · obtain ⟨c, last, stops⟩ := ends.of_append begun
            obtain ⟨letter, there, form⟩ := left unfinished c (List.mem_of_getLast? last)
            obtain ⟨noQuote, noX, noDot, noDigit⟩ := seals_forms c (List.mem_flatMap.mpr ⟨letter, there, form⟩)
            rcases stops with (rfl | rfl | rfl) | digit
            · exact absurd rfl noQuote
            · exact absurd rfl noX
            · exact absurd rfl noDot
            · cases noDigit.symm.trans digit
          · rw [List.head?_append_of_ne_nil _ unfinished] at head
            obtain ⟨letter, there, form⟩ := right begun c (List.mem_of_head? head)
            obtain ⟨noDigit, noQuote⟩ := digit_forms c (List.mem_flatMap.mpr ⟨letter, there, form⟩)
            rcases starts with digit | rfl
            · cases noDigit.symm.trans digit
            · exact absurd rfl noQuote

theorem Aside.seam_border (aside : Aside before block after) (content : Content block) :
    Border before (block ++ after) := by
  rcases aside.seam with ⟨c, last, seals⟩ | digits
  · exact .inl ⟨c, last, .inl seals⟩
  · obtain ⟨c, rest, rfl⟩ := List.exists_cons_of_ne_nil content.some
    exact .inr ⟨c, rfl, .inl (digits c List.mem_cons_self)⟩

theorem Aside.edge_border (aside : Aside before block after) (content : Content block) :
    Border (before ++ block) after := by
  rcases aside.edge with digits | head
  · refine .inl (EndsIn.append ⟨block.getLast content.some, List.getLast?_eq_some_getLast _, .inr (digits _ ?_)⟩ before)
    exact List.getLast_mem content.some
  · exact .inr ⟨_, head, .inr rfl⟩

theorem mentions_like {like : List Char} (likes : Spelled " like x" like) :
    ∃ part, part <:+ like ∧ ∀ more, (anyCase "like".toList (part ++ more)).isSome := by
  obtain ⟨space, others, rfl, -⟩ := likes.head rfl
  refine ⟨others, List.suffix_cons _ _, ?_⟩
  intro more
  cases likes with
  | cons _ later =>
    have taken : others = others.take 4 ++ others.drop 4 := (List.take_append_drop 4 others).symm
    rw [taken, List.append_assoc, Option.isSome_iff_exists]
    exact ⟨(others.take 4, others.drop 4 ++ more), anyCase_iff.mpr ⟨rfl, List.forall₂_take 4 later⟩⟩

theorem likeFollows_of_solid {operand like : List Char} (solid : ∀ c ∈ operand, isBlank c = false)
    (likes : Spelled " like x" like) (rest : List Char) : LikeFollows (operand ++ like ++ rest) := by
  obtain ⟨space, others, rfl, form⟩ := likes.head rfl
  obtain rfl := isBlank_forms space form
  have dropped : (operand ++ ' ' :: others ++ rest).dropWhile (!isBlank ·) = ' ' :: others ++ rest := by
    rw [List.append_assoc, List.dropWhile_append_of_pos (by simpa using solid)]
    rfl
  rw [LikeFollows, dropped, Option.isSome_iff_exists]
  exact ⟨(' ' :: others, rest), anyCase_iff.mpr ⟨rfl, likes⟩⟩

/-- What of a condition is after the border of a block is a part of its operand. -/
theorem solid_after {word operand part more : List Char} (content : Content block)
    (edge : (∀ c ∈ block, c.isDigit = true) ∨ after.head? = some singleQuote)
    (joins : Spelled "or" word ∨ Spelled "and" word) (solid : ∀ c ∈ operand, isBlank c = false)
    (begun : part ≠ []) (within : part <:+ before ++ block) (whole : word ++ ' ' :: operand = part ++ more)
    (follows : more <+: after) : ∀ c ∈ more, isBlank c = false := by
  have letters : ∀ c ∈ word, c.isDigit = false ∧ c ≠ singleQuote := by
    intro c member
    rcases joins with spelled | spelled
    · obtain ⟨letter, there, form⟩ := exists_form spelled member
      exact joins_forms c (List.mem_flatMap.mpr ⟨letter, List.mem_append_left _ there, form⟩)
    · obtain ⟨letter, there, form⟩ := exists_form spelled member
      exact joins_forms c (List.mem_flatMap.mpr ⟨letter, List.mem_append_right _ there, form⟩)
  have parts : (word ++ [' ']) ++ operand = part ++ more := by simpa using whole
  rcases List.append_eq_append_iff.mp parts with ⟨further, rfl, rfl⟩ | ⟨further, same, rfl⟩
  · exact fun c member => solid c (List.mem_append_right _ member)
  · rcases eq_or_ne further [] with rfl | unfinished
    · exact solid
    · -- Here the border is in the word, which has neither a digit nor a quote.
      rcases edge with digits | head
      · obtain ⟨last, others, rfl⟩ : ∃ last others, part = others ++ [last] :=
          ⟨part.getLast begun, part.dropLast, (List.dropLast_append_getLast begun).symm⟩
        obtain ⟨front, whole⟩ := within
        have inBlock : last ∈ block := by
          have same := congrArg List.getLast? whole
          rw [← List.append_assoc, List.getLast?_concat, List.getLast?_append_of_ne_nil _ content.some] at same
          exact List.mem_of_getLast? same.symm
        have inWord : last ∈ word := by
          have shorter := congrArg List.dropLast same
          rw [List.dropLast_concat, List.dropLast_append_of_ne_nil unfinished] at shorter
          simp [shorter]
        cases (letters last inWord).1.symm.trans (digits last inBlock)
      · obtain ⟨first, others, rfl⟩ := List.exists_cons_of_ne_nil unfinished
        obtain ⟨rest, rfl⟩ := follows
        simp only [List.cons_append, List.head?_cons, Option.some.injEq] at head
        have member : first ∈ word ++ [' '] := by simp [same]
        rcases List.mem_append.mp member with inWord | space
        · exact absurd head (letters first inWord).2
        · exact absurd (head.symm.trans (List.mem_singleton.mp space)) (by decide)

/-- A condition is on one side of the block. -/
theorem beside (content : Content block) (aside : Aside before block after) (folds : Condition condition)
    (whole : before ++ block ++ after = front ++ condition ++ rest) :
    (∃ more, before = front ++ condition ++ more) ∨ ∃ more, front = before ++ block ++ more := by
  cases folds with
  | @mk word operand like joins some solid likes =>
    have parts :
        (before ++ block) ++ after = (front ++ (word ++ ' ' :: operand)) ++ (like ++ rest) := by simpa using whole
    rcases like_beside likes (fun _ _ => aside.edge_border content) parts with ⟨more, inside⟩ | ⟨more, outside, rfl⟩
    · rw [List.append_assoc] at parts
      rcases like_beside likes (fun _ _ => aside.seam_border content) parts with ⟨further, left⟩ | ⟨further, same, -⟩
      · exact .inl ⟨further, by simpa using left⟩
      · -- The block would have a LIKE of its own.
        rw [same, List.append_assoc, List.append_assoc] at inside
        obtain ⟨part, suffix, found⟩ := mentions_like likes
        have within : part ++ more <:+ block := by
          rw [List.append_cancel_left inside]
          exact (List.suffix_append_of_suffix (List.suffix_append_self_iff.mpr suffix))
        have likes := found more
        rw [content.silent _ within] at likes
        cases likes
    · rcases List.append_eq_append_iff.mp outside with ⟨further, same, split⟩ | ⟨further, rfl, rfl⟩
      · rcases eq_or_ne further [] with rfl | begun
        · exact .inr ⟨[], by simpa using same.symm⟩
        · have solid :=
            solid_after content aside.edge joins solid begun ⟨front, same.symm⟩ split ⟨like ++ rest, by simp⟩
          exact absurd (likeFollows_of_solid solid likes rest) aside.free
      · exact .inr ⟨further, rfl⟩

/-- A condition that begins before the block ends before it. -/
theorem in_before {part : List Char} (content : Content block) (aside : Aside before block after)
    (folds : Condition condition)
    (suffix : part <:+ before) (whole : part ++ (block ++ after) = condition ++ rest) :
    ∃ further, part = condition ++ further := by
  obtain ⟨front, rfl⟩ := suffix
  have all : front ++ part ++ block ++ after = front ++ condition ++ rest := by
    rw [List.append_assoc front condition, ← whole]
    simp
  rcases beside content aside folds all with ⟨further, inside⟩ | ⟨further, outside⟩
  · rw [List.append_assoc] at inside
    exact ⟨further, List.append_cancel_left inside⟩
  · have length := congrArg List.length outside
    have longer := List.length_pos_iff.mpr content.some
    simp only [List.length_append] at length
    omega

/-- No condition begins in the block. -/
theorem not_in_block {part : List Char} (content : Content block) (aside : Aside before block after)
    (folds : Condition condition)
    (suffix : part <:+ block) (more : part ≠ []) : part ++ after ≠ condition ++ rest := by
  intro whole
  obtain ⟨front, rfl⟩ := suffix
  have all : before ++ (front ++ part) ++ after = (before ++ front) ++ condition ++ rest := by
    rw [List.append_assoc (before ++ front), ← whole]
    simp
  have longer := List.length_pos_iff.mpr more
  rcases beside content aside folds all with ⟨further, inside⟩ | ⟨further, outside⟩
  · have length := congrArg List.length inside
    have some := List.length_pos_iff.mpr folds.ne_nil
    simp only [List.length_append] at length
    omega
  · have length := congrArg List.length outside
    simp only [List.length_append] at length
    omega

theorem proper_likeCondition : Proper likeCondition := takes_likeCondition.proper Condition.ne_nil

theorem likeCondition_local (content : Content block) (aside : Aside before block after) :
    Local likeCondition before (block ++ after) :=
  fun _ _ suffix => takes_likeCondition.append fun _ _ folds => in_before content aside folds suffix

theorem likeCondition_silent (content : Content block) (aside : Aside before block after) :
    Silent likeCondition block after :=
  fun _ more suffix => takes_likeCondition.fails fun _ _ folds => not_in_block content aside folds suffix more

/-- The conditions of a text are those before the block and those after it. -/
theorem findAll_likeCondition (content : Content block) (aside : Aside before block after) :
    findAll likeCondition (before ++ block ++ after) = findAll likeCondition before ++ findAll likeCondition after := by
  rw [List.append_assoc, findAll_append proper_likeCondition (likeCondition_local content aside),
    findAll_silent (likeCondition_silent content aside)]

theorem condition_of_mem {text : List Char} (member : condition ∈ findAll likeCondition text) :
    Condition condition := by
  obtain ⟨text, rest, found⟩ := mem_findAll proper_likeCondition member
  exact (takes_likeCondition.iff.mp found).2

def link (condition : List Char) : Pattern := (Pattern.optional (one isBlank)).next (word condition)

/-- A condition in a chain, with the blank in front of it if there is one. -/
inductive Link (condition : List Char) : List Char → Prop where
  | alone : Link condition condition
  | spaced {blank : Char} (isBlank : isBlank blank = true) : Link condition (blank :: condition)

theorem takes_link (folds : Condition condition) : Takes (link condition) (Link condition) := by
  refine ⟨fun {text taken rest} => ?_⟩
  rw [link, next_iff]
  simp only [optional_iff, word_iff]
  constructor
  · rintro ⟨begun, middle, more, found, ⟨rfl, rfl⟩, rfl⟩
    rcases found with found | ⟨-, rfl, rfl⟩
    · obtain ⟨blank, isBlank, rfl, rfl⟩ := one_iff.mp found
      exact ⟨rfl, .spaced isBlank⟩
    · exact ⟨rfl, .alone⟩
  · rintro ⟨rfl, linked⟩
    cases linked with
    | alone =>
      obtain ⟨first, others, rfl, leads⟩ := folds.head
      exact ⟨[], _, _, .inr ⟨by simp [one, leads.solid], rfl, rfl⟩, ⟨rfl, rfl⟩, rfl⟩
    | @spaced blank isBlank => exact ⟨[blank], _, _, .inl (one_iff.mpr ⟨blank, isBlank, rfl, rfl⟩), ⟨rfl, rfl⟩, rfl⟩

theorem proper_link (folds : Condition condition) : Proper (link condition) :=
  proper_next (Splits.optional fun _ _ _ => (proper_one isBlank).splits) (proper_word folds.ne_nil)

theorem proper_chain (folds : Condition condition) : Proper (chain condition) := proper_repeated (proper_link folds)

theorem link_silent (content : Content block) (aside : Aside before block after) (folds : Condition condition) :
    Silent (link condition) block after := by
  intro part more suffix
  refine (takes_link folds).fails fun taken rest linked whole => ?_
  cases linked with
  | alone => exact not_in_block content aside folds suffix more whole
  | spaced isBlank =>
    obtain ⟨first, others, rfl⟩ := List.exists_cons_of_ne_nil more
    obtain ⟨rfl, begins⟩ : first = _ ∧ others ++ after = condition ++ rest := List.cons.inj whole
    rcases eq_or_ne others [] with rfl | further
    · -- The last character of the block is the blank.
      rcases aside.edge with digits | quote
      · cases (isBlank_of_isDigit (digits first (suffix.subset List.mem_cons_self))).symm.trans isBlank
      · obtain ⟨letter, tail, rfl, leads⟩ := folds.head
        rw [List.nil_append] at begins
        rw [begins, List.cons_append, List.head?_cons, Option.some.injEq] at quote
        exact leads.unquoted quote
    · exact not_in_block content aside folds ((List.suffix_cons _ _).trans suffix) further begins

theorem link_local (content : Content block) (aside : Aside before block after)
    (folds : Condition condition) {part : List Char}
    (suffix : part <:+ before) :
    link condition (part ++ (block ++ after)) = (link condition part).map (Prod.map id (· ++ (block ++ after))) := by
  refine (takes_link folds).append fun taken rest linked whole => ?_
  rcases eq_or_ne part [] with rfl | more
  · have silent := link_silent content aside folds block content.some (List.suffix_refl _)
    cases silent.symm.trans ((takes_link folds).iff.mpr ⟨whole, linked⟩)
  · cases linked with
    | alone => exact in_before content aside folds suffix whole
    | spaced isBlank =>
      obtain ⟨first, others, rfl⟩ := List.exists_cons_of_ne_nil more
      obtain ⟨rfl, begins⟩ : first = _ ∧ others ++ (block ++ after) = condition ++ rest := List.cons.inj whole
      obtain ⟨further, rfl⟩ := in_before content aside folds ((List.suffix_cons _ _).trans suffix) begins
      exact ⟨further, rfl⟩

theorem repeated_local {pattern : Pattern} (proper : Proper pattern) {after : List Char}
    (each : ∀ part, part <:+ before → pattern (part ++ after) = (pattern part).map (Prod.map id (· ++ after))) :
    ∀ part, part <:+ before →
        repeated pattern (part ++ after) = (repeated pattern part).map (Prod.map id (· ++ after)) := by
  intro part
  induction length : part.length using Nat.strong_induction_on generalizing part with
  | _ size ih =>
    intro suffix
    have same := each part suffix
    cases found : pattern part with
    | none =>
      rw [found] at same
      rw [repeated_none same, repeated_none found]
      rfl
    | some split =>
      obtain ⟨taken, rest⟩ := split
      rw [found] at same
      have whole := proper.splits found
      have longer := List.length_pos_iff.mpr (proper.takes found)
      have lengths := congrArg List.length whole
      rw [List.length_append] at lengths
      have later := ih rest.length (by omega) rest rfl (.trans ⟨taken, whole⟩ suffix)
      rw [repeated_some proper same, repeated_some proper found]
      simp only [id_eq, later]
      cases repeated pattern rest <;> rfl

theorem chain_local (content : Content block) (aside : Aside before block after) (folds : Condition condition) :
    Local (chain condition) before (block ++ after) :=
  fun part _ suffix => repeated_local (proper_link folds) (fun _ => link_local content aside folds) part suffix

theorem chain_silent (content : Content block) (aside : Aside before block after) (folds : Condition condition) :
    Silent (chain condition) block after :=
  fun part more suffix => repeated_none (link_silent content aside folds part more suffix)

/-- One chain written short. -/
def foldChain (text condition : List Char) : List Char :=
  replace (chain condition) (fun _ => ' ' :: condition ++ " ...".toList) text

theorem foldChain_block (content : Content block) (aside : Aside before block after) (folds : Condition condition) :
    foldChain (before ++ block ++ after) condition =
        foldChain before condition ++ block ++ foldChain after condition := by
  rw [foldChain, List.append_assoc, replace_append (proper_chain folds) (chain_local content aside folds),
    replace_silent (chain_silent content aside folds), ← List.append_assoc]
  rfl

theorem likeFollows_cons {c : Char} {text : List Char} (solid : isBlank c = false) :
    LikeFollows (c :: text) ↔ LikeFollows text := by
  rw [LikeFollows, List.dropWhile_cons_of_pos (by simp [solid])]
  rfl

theorem likeFollows_blank {c : Char} {text : List Char} (blank : isBlank c = true) :
    LikeFollows (c :: text) ↔ sameLetter ' ' c = true ∧ (anyCase "like x".toList text).isSome = true := by
  rw [LikeFollows, List.dropWhile_cons_of_neg (by simp [blank])]
  change ((if sameLetter ' ' c then (anyCase "like x".toList text).map _ else none).isSome = true) ↔ _
  split
  next same => simp [same]
  next other => simp [other]

/-- No part of the pattern that LIKE is followed by begins where a chain is folded. -/
private theorem folded_apart (folds : Condition condition) (taken : List Char) :
    ∀ part, part ≠ [] → part <:+ "like x".toList →
    ∀ text : List Char, anyCase part (' ' :: condition ++ taken ++ text) = none := by
  obtain ⟨first, others, rfl, leads⟩ := folds.head
  intro part more suffix text
  have letters : sameLetter 'l' ' ' = false ∧ sameLetter 'i' ' ' = false ∧ sameLetter 'k' ' ' = false ∧
      sameLetter 'e' ' ' = false ∧ sameLetter 'x' ' ' = false ∧ sameLetter ' ' ' ' = true := by decide
  have parts : part = ['l', 'i', 'k', 'e', ' ', 'x'] ∨ part = ['i', 'k', 'e', ' ', 'x'] ∨ part = ['k', 'e', ' ', 'x'] ∨
      part = ['e', ' ', 'x'] ∨ part = [' ', 'x'] ∨ part = ['x'] := by
    simpa [List.suffix_cons_iff, more] using suffix
  rcases parts with rfl | rfl | rfl | rfl | rfl | rfl <;> simp [anyCase, letters, leads.noX]

/-- Folding makes no LIKE follow that did not follow before. -/
theorem likeFollows_of_foldChain (folds : Condition condition) {text : List Char}
    (follows : LikeFollows (foldChain text condition)) : LikeFollows text := by
  induction text using scan_induction (proper_chain folds) with
  | nil => exact follows
  | pass c text fails ih =>
    rw [foldChain, replace_none fails] at follows
    cases blank : isBlank c with
    | true =>
      obtain ⟨same, like⟩ := (likeFollows_blank blank).mp follows
      exact (likeFollows_blank blank).mpr ⟨same, anyCase_of_replace (proper_chain folds)
        (fun part more suffix taken text => folded_apart folds _ part more suffix text) like⟩
    | false => exact (likeFollows_cons blank).mpr (ih ((likeFollows_cons blank).mp follows))
  | hit text taken rest found ih =>
    rw [foldChain, replace_some (proper_chain folds) found] at follows
    have like := ((likeFollows_blank (show isBlank ' ' = true by decide)).mp follows).2
    obtain ⟨first, others, rfl, leads⟩ := folds.head
    simp [anyCase, leads.noLike] at like

theorem foldChain_quote (folds : Condition condition) (text : List Char) :
    foldChain (singleQuote :: text) condition = singleQuote :: foldChain text condition := by
  refine replace_none (repeated_none ((takes_link folds).fails fun taken rest linked whole => ?_))
  cases linked with
  | alone =>
    obtain ⟨first, others, rfl, leads⟩ := folds.head
    exact leads.unquoted (List.cons.inj whole).1.symm
  | spaced isBlank =>
    rw [← (List.cons.inj whole).1] at isBlank
    cases isBlank

theorem foldl_foldChain_quote {conditions : List (List Char)} (fold : ∀ condition ∈ conditions, Condition condition)
    (text : List Char) :
    conditions.foldl foldChain (singleQuote :: text) = singleQuote :: conditions.foldl foldChain text := by
  induction conditions generalizing text with
  | nil => rfl
  | cons condition conditions ih =>
    rw [List.foldl_cons, foldChain_quote (fold condition List.mem_cons_self),
      ih fun other member => fold other (List.mem_cons_of_mem _ member)]
    rfl

theorem Aside.foldChain (aside : Aside before block after) (folds : Condition condition) :
    Aside (foldChain before condition) block (foldChain after condition) := by
  refine ⟨⟨?_, ?_⟩, fun follows => aside.free (likeFollows_of_foldChain folds follows)⟩
  · rcases aside.seam with ends | digits
    · refine .inl (EndsIn.replace (proper_chain folds) (fun taken => ?_) ends)
      exact EndsIn.append ⟨'.', by decide, .inr (.inr rfl)⟩ _
    · exact .inr digits
  · rcases aside.edge with digits | quote
    · exact .inl digits
    · obtain ⟨rest, rfl⟩ := List.head?_eq_some_iff.mp quote
      exact .inr (by rw [foldChain_quote folds]; rfl)

/-- Folding conditions leaves a block where it is, and every block the same. -/
theorem foldl_foldChain_block (content : Content block) {conditions : List (List Char)}
    (aside : Aside before block after)
    (fold : ∀ condition ∈ conditions, Condition condition) :
    conditions.foldl foldChain (before ++ block ++ after) =
        conditions.foldl foldChain before ++ block ++ conditions.foldl foldChain after ∧
      Aside (conditions.foldl foldChain before) block (conditions.foldl foldChain after) := by
  induction conditions generalizing before after with
  | nil => exact ⟨rfl, aside⟩
  | cons condition conditions ih =>
    have folds := fold condition List.mem_cons_self
    rw [List.foldl_cons, foldChain_block content aside folds]
    exact ih (aside.foldChain folds) fun other member => fold other (List.mem_cons_of_mem _ member)

end Apart

def likeMask (text : List Char) : List Char := replace likeLiteral (fun _ => "LIKE X".toList) text

def likeQuote : List Char := "LIKE '".toList

/-- A LIKE with its pattern. -/
inductive LikeString : List Char → Prop where
  | mk {content : List Char} (some : content ≠ []) (unquoted : singleQuote ∉ content) :
      LikeString (likeQuote ++ content ++ [singleQuote])

theorem takes_likeLiteral : Takes likeLiteral LikeString := by
  refine ⟨fun {text taken rest} => ?_⟩
  change ((word likeQuote).next ((some1 (· ≠ singleQuote)).next (word [singleQuote]))) text = _ ↔ _
  simp only [next_iff, word_iff, some1_iff]
  constructor
  · rintro ⟨begun, middle, more, ⟨rfl, rfl⟩, ⟨content, last, close, ⟨rfl, some, unquoted, -⟩, ⟨rfl, rfl⟩, rfl⟩, rfl⟩
    refine ⟨by simp, ?_⟩
    have plain : singleQuote ∉ content := fun member => by simpa using unquoted _ member
    simpa using LikeString.mk some plain
  · rintro ⟨rfl, @⟨content, some, unquoted⟩⟩
    refine ⟨likeQuote, content ++ singleQuote :: rest, content ++ [singleQuote], ⟨rfl, by simp⟩,
      ⟨content, singleQuote :: rest, [singleQuote], ⟨rfl, some, ?_, by simp⟩, ⟨rfl, rfl⟩, rfl⟩, by simp⟩
    intro c member
    simpa using ne_of_mem_of_not_mem member unquoted

theorem proper_likeLiteral : Proper likeLiteral := takes_likeLiteral.proper fun matched => by cases matched; simp

section Masked
variable {before block after : List Char}

/-- The part of a text does not end within a LIKE that goes on in what follows. -/
def Uncut (before after : List Char) : Prop :=
  ∀ part more rest, part ≠ [] → more ≠ [] → part <:+ before → likeQuote = part ++ more → after ≠ more ++ rest

theorem Uncut.of_suffix {part : List Char} (uncut : Uncut before after) (suffix : part <:+ before) : Uncut part after :=
  fun smaller more rest begun unfinished ends => uncut smaller more rest begun unfinished (ends.trans suffix)

theorem Placed.uncut (placed : Placed before block after) (content : Content block) :
    Uncut before (block ++ after) := by
  intro part more rest begun unfinished suffix split whole
  have first : ∀ c ∈ part, c ∈ likeQuote.dropLast := by
    intro c member
    rw [split, List.dropLast_append_of_ne_nil unfinished]
    exact List.mem_append_left _ member
  have second : ∀ c ∈ more, c ∈ likeQuote.tail := by
    intro c member
    rw [split, List.tail_append_of_ne_nil begun]
    exact List.mem_append_right _ member
  rcases placed.seam with ends | digits
  · obtain ⟨front, rfl⟩ := suffix
    obtain ⟨c, last, seals⟩ := ends.of_append begun
    have letters : ∀ c ∈ likeQuote.dropLast, c ≠ singleQuote ∧ c ≠ 'X' ∧ c ≠ '.' :=
      List.all_iff_forall_prop.mp (by decide)
    obtain ⟨noQuote, noX, noDot⟩ := letters c (first c (List.mem_of_getLast? last))
    rcases seals with same | same | same
    · exact noQuote same
    · exact noX same
    · exact noDot same
  · obtain ⟨digit, others, rfl⟩ := List.exists_cons_of_ne_nil content.some
    obtain ⟨c, further, rfl⟩ := List.exists_cons_of_ne_nil unfinished
    have letters : ∀ c ∈ likeQuote.tail, c.isDigit = false := List.all_iff_forall_prop.mp (by decide)
    obtain rfl : digit = c := (List.cons.inj whole).1
    cases (letters digit (second digit List.mem_cons_self)).symm.trans (digits digit List.mem_cons_self)

theorem likeLiteral_silent (content : Content block) (placed : Placed before block after) :
    Silent likeLiteral block after := by
  intro part more suffix
  refine takes_likeLiteral.fails fun taken rest matched whole => ?_
  obtain @⟨pattern, -, -⟩ := matched
  have mentions (further : List Char) (same : part = "LIKE".toList ++ further) : False := by
    have silent := content.silent part suffix
    rw [same] at silent
    have found : anyCase "like".toList ("LIKE".toList ++ further) = some ("LIKE".toList, further) :=
      anyCase_iff.mpr ⟨rfl, by decide⟩
    cases silent.symm.trans found
  have split : part ++ after = "LIKE".toList ++ (" '".toList ++ pattern ++ [singleQuote] ++ rest) := by
    rw [whole]
    rfl
  rcases List.append_eq_append_iff.mp split with ⟨further, begins, rfl⟩ | ⟨further, same, -⟩
  · rcases eq_or_ne further [] with rfl | unfinished
    · exact mentions [] (by simpa using begins.symm)
    · have letters : ∀ c ∈ "LIKE".toList, c.isDigit = false ∧ c ≠ singleQuote :=
        List.all_iff_forall_prop.mp (by decide)
      rcases placed.edge with digits | quote
      · obtain ⟨c, others, rfl⟩ := List.exists_cons_of_ne_nil more
        have there : c ∈ "LIKE".toList := by simp [begins]
        cases (letters c there).1.symm.trans (digits c (suffix.subset List.mem_cons_self))
      · obtain ⟨c, others, rfl⟩ := List.exists_cons_of_ne_nil unfinished
        have there : c ∈ "LIKE".toList := by simp [begins]
        exact (letters c there).2 (by simpa using quote)
  · exact mentions further same

theorem likeLiteral_none {text : List Char} (no : ∀ content rest, content ≠ [] → singleQuote ∉ content →
    text ≠ likeQuote ++ (content ++ singleQuote :: rest)) : likeLiteral text = none := by
  refine takes_likeLiteral.fails fun taken rest matched whole => ?_
  obtain ⟨some, unquoted⟩ := matched
  exact no _ rest some unquoted (by simpa using whole)

theorem likeMask_none {c : Char} {text : List Char} (fails : likeLiteral (c :: text) = none) :
    likeMask (c :: text) = c :: likeMask text := replace_none fails

theorem likeMask_some {content : List Char} (some : content ≠ []) (unquoted : singleQuote ∉ content)
    (rest : List Char) :
    likeMask (likeQuote ++ (content ++ singleQuote :: rest)) = "LIKE X".toList ++ likeMask rest :=
  replace_some proper_likeLiteral (takes_likeLiteral.iff.mpr ⟨by simp, .mk some unquoted⟩)

/-- What the blocks of a kind have in common for the masks. -/
structure Blank (block before after : List Char) : Prop where
  some : block ≠ []
  unquoted : singleQuote ∉ block
  silent : Silent likeLiteral block after
  uncut : Uncut before (block ++ after)

/-- No pattern begins where no LIKE begins, or where a LIKE has no string. -/
theorem likeMask_pass {holds : List Char → Prop} {c : Char} (alone : likeLiteral (c :: before) = none)
    (fails : ∀ block, holds block → likeLiteral (c :: (before ++ block ++ after)) = none)
    (later : (∃ masked, ∀ block, holds block → likeMask (before ++ block ++ after) = masked) ∨
      ∀ block, holds block → likeMask (before ++ block ++ after) = likeMask before ++ block ++ likeMask after) :
    (∃ masked, ∀ block, holds block → likeMask (c :: before ++ block ++ after) = masked) ∨
      ∀ block, holds block → likeMask (c :: before ++ block ++ after) =
          likeMask (c :: before) ++ block ++ likeMask after := by
  rcases later with ⟨masked, hidden⟩ | kept
  · refine .inl ⟨c :: masked, fun block given => ?_⟩
    rw [← hidden block given]
    exact likeMask_none (fails block given)
  · refine .inr fun block given => ?_
    rw [likeMask_none alone, List.cons_append, List.cons_append, likeMask_none (fails block given), kept block given]
    rfl

/-- Masking hides the block, or leaves it where it is; which of the two does not depend on the block. -/
theorem likeMask_block {holds : List Char → Prop} (each : ∀ block, holds block → Blank block before after) :
    (∃ masked, ∀ block, holds block → likeMask (before ++ block ++ after) = masked) ∨
      ∀ block, holds block → likeMask (before ++ block ++ after) = likeMask before ++ block ++ likeMask after := by
  induction length : before.length using Nat.strong_induction_on generalizing before with
  | _ size ih =>
    have smaller (part : List Char) (suffix : part <:+ before) : ∀ block, holds block → Blank block part after := by
      intro block given
      obtain ⟨some, unquoted, silent, uncut⟩ := each block given
      exact ⟨some, unquoted, silent, uncut.of_suffix suffix⟩
    cases before with
    | nil =>
      refine .inr fun block given => ?_
      rw [List.nil_append, likeMask, replace_silent (each block given).silent]
      rfl
    | cons c before =>
      rw [List.length_cons] at length
      have later := ih before.length (by omega) (smaller before (List.suffix_cons c before)) rfl
      by_cases begins : likeQuote <+: c :: before
      · obtain ⟨content, split⟩ := begins
        have whole (text : List Char) : c :: (before ++ text) = likeQuote ++ (content ++ text) := by
          rw [← List.cons_append, ← split, List.append_assoc]
        by_cases quoted : singleQuote ∈ content
        · obtain ⟨pattern, rest, rfl, unquoted⟩ := List.eq_append_cons_of_mem quoted
          rcases eq_or_ne pattern [] with rfl | some
          · -- The string after LIKE is empty.
            have fails (text : List Char) : likeLiteral (c :: (before ++ text)) = none := by
              refine likeLiteral_none fun content' rest' some' unquoted' same => ?_
              rw [whole, List.append_cancel_left_eq] at same
              obtain ⟨first, others, rfl⟩ := List.exists_cons_of_ne_nil some'
              exact unquoted' (by simp [(List.cons.inj same).1])
            refine likeMask_pass (by simpa using fails []) (fun block _ => ?_) later
            rw [List.append_assoc]
            exact fails (block ++ after)
          · have shorter := congrArg List.length split
            simp only [List.length_append, List.length_cons] at shorter
            have hit (text : List Char) :
                likeMask (c :: (before ++ text)) = "LIKE X".toList ++ likeMask (rest ++ text) := by
              rw [whole, List.append_assoc, List.cons_append]
              exact likeMask_some some unquoted (rest ++ text)
            rcases ih rest.length (by omega)
              (smaller rest ⟨likeQuote ++ pattern ++ [singleQuote], by simp [← split]⟩) rfl with
              ⟨masked, hidden⟩ | kept
            · refine .inl ⟨"LIKE X".toList ++ masked, fun block given => ?_⟩
              rw [List.append_assoc, List.cons_append, hit, ← List.append_assoc, hidden block given]
            · refine .inr fun block given => ?_
              have alone := hit []
              rw [List.append_nil, List.append_nil] at alone
              rw [List.append_assoc, List.cons_append, hit, ← List.append_assoc, kept block given, alone]
              simp only [List.append_assoc]
        · by_cases closed : singleQuote ∈ after
          · -- The block is in the string after this LIKE.
            obtain ⟨pattern, rest, rfl, unquoted⟩ := List.eq_append_cons_of_mem closed
            refine .inl ⟨"LIKE X".toList ++ likeMask rest, fun block given => ?_⟩
            obtain ⟨some, plain, -, -⟩ := each block given
            have unclosed : singleQuote ∉ content ++ (block ++ pattern) := by simp [quoted, plain, unquoted]
            rw [← likeMask_some (by simp [some]) unclosed rest, List.append_assoc, List.cons_append, whole]
            simp only [List.append_assoc]
          · have fails (text : List Char) (plain : singleQuote ∉ text) :
                likeLiteral (c :: (before ++ text)) = none := by
              refine likeLiteral_none fun content' rest' _ _ same => ?_
              rw [whole, List.append_cancel_left_eq] at same
              have member : singleQuote ∈ content ++ text := by simp [same]
              exact (List.mem_append.mp member).elim quoted plain
            refine likeMask_pass (by simpa using fails [] (by simp)) (fun block given => ?_) later
            rw [List.append_assoc]
            exact fails (block ++ after) (by simp [(each block given).unquoted, closed])
      · have unbegun (text : List Char)
    (uncut : ∀ more rest, more ≠ [] → likeQuote = c :: before ++ more → text ≠ more ++ rest) :
            likeLiteral (c :: (before ++ text)) = none := by
          refine likeLiteral_none fun content rest _ _ same => ?_
          rcases List.append_eq_append_iff.mp
            ((List.cons_append ..).trans same) with ⟨more, split, whole⟩ | ⟨more, split, -⟩
          · rcases eq_or_ne more [] with rfl | unfinished
            · exact begins ⟨[], by rw [split]; simp⟩
            · exact uncut more _ unfinished split whole
          · exact begins ⟨more, split.symm⟩
        have alone : likeLiteral (c :: before) = none := by
          have none :=
            unbegun [] (fun more rest unfinished _ same => unfinished (List.append_eq_nil_iff.mp same.symm).1)
          rwa [List.append_nil] at none
        refine likeMask_pass alone (fun block given => ?_) later
        rw [List.append_assoc]
        refine unbegun (block ++ after) fun more rest unfinished split => ?_
        exact (each block given).uncut (c :: before) more rest (by simp) unfinished (List.suffix_refl _) split

end Masked

end QueryFacts.Proofs.LikeFolding
