import Mathlib.Data.List.Forall2
import Mathlib.Tactic.IntervalCases
import QueryFacts.Text.Pattern

/-! What a pattern takes from a text, as a relation between the text, the match and the
rest; and what replacing the matches does to a text in parts. Parts are changed on their own
when no match goes across their border. -/

namespace QueryFacts.Proofs.Replacement
open Text Text.Pattern

variable {text taken rest : List Char} {accepts : Char → Bool}

theorem word_iff {letters : List Char} :
    word letters text = some (taken, rest) ↔ taken = letters ∧ text = letters ++ rest := by
  unfold word
  constructor
  · intro found
    split at found
    next starts =>
      obtain ⟨after, rfl⟩ := List.isPrefixOf_iff_prefix.mp starts
      cases found
      simp
    next => cases found
  · rintro ⟨rfl, rfl⟩
    simp

theorem anyCase_iff {letters : List Char} : anyCase letters text = some (taken, rest) ↔
    text = taken ++ rest ∧ List.Forall₂ (fun letter c => sameLetter letter c = true) letters taken := by
  induction letters generalizing text taken with
  | nil =>
    simp only [anyCase, Option.some.injEq, Prod.mk.injEq, List.forall₂_nil_left_iff]
    constructor
    · rintro ⟨rfl, rfl⟩
      exact ⟨rfl, rfl⟩
    · rintro ⟨rfl, rfl⟩
      exact ⟨rfl, rfl⟩
  | cons letter letters ih =>
    cases text with
    | nil =>
      constructor
      · intro found; cases found
      · rintro ⟨whole, spelled⟩
        obtain ⟨rfl, -⟩ := List.append_eq_nil_iff.mp whole.symm
        cases spelled
    | cons c text =>
      simp only [anyCase]
      split
      next same =>
        simp only [Option.map_eq_some_iff, Prod.exists, Prod.mk.injEq]
        constructor
        · rintro ⟨more, after, found, rfl, rfl⟩
          obtain ⟨rfl, spelled⟩ := ih.mp found
          exact ⟨rfl, .cons same spelled⟩
        · rintro ⟨whole, spelled⟩
          cases spelled with
          | cons first others =>
            simp only [List.cons_append, List.cons.injEq] at whole
            obtain ⟨rfl, whole⟩ := whole
            exact ⟨_, _, ih.mpr ⟨whole, others⟩, rfl, rfl⟩
      next other =>
        constructor
        · intro found; cases found
        · rintro ⟨whole, spelled⟩
          cases spelled with
          | cons first others =>
            simp only [List.cons_append, List.cons.injEq] at whole
            obtain ⟨rfl, -⟩ := whole
            exact absurd first other

theorem many_iff : many accepts text = some (taken, rest) ↔
    text = taken ++ rest ∧ (∀ c ∈ taken, accepts c = true) ∧ ∀ c ∈ rest.head?, accepts c = false := by
  simp only [many, Option.some.injEq, Prod.mk.injEq]
  induction text generalizing taken with
  | nil =>
    constructor
    · rintro ⟨rfl, rfl⟩
      simp
    · rintro ⟨whole, -⟩
      obtain ⟨rfl, rfl⟩ := List.append_eq_nil_iff.mp whole.symm
      exact ⟨rfl, rfl⟩
  | cons c text ih =>
    by_cases accepted : accepts c = true
    · rw [List.takeWhile_cons_of_pos accepted, List.dropWhile_cons_of_pos accepted]
      constructor
      · rintro ⟨rfl, rfl⟩
        obtain ⟨-, all, ends⟩ := ih.mp ⟨rfl, rfl⟩
        refine ⟨by simp, ?_, ends⟩
        simpa [accepted] using all
      · rintro ⟨whole, all, ends⟩
        cases taken with
        | nil =>
          subst whole
          cases (ends c rfl).symm.trans accepted
        | cons first others =>
          simp only [List.cons_append, List.cons.injEq] at whole
          obtain ⟨rfl, whole⟩ := whole
          obtain ⟨same, after⟩ := ih.mpr ⟨whole, fun d member => all d (List.mem_cons_of_mem _ member), ends⟩
          exact ⟨congrArg _ same, after⟩
    · rw [List.takeWhile_cons_of_neg accepted, List.dropWhile_cons_of_neg accepted]
      constructor
      · rintro ⟨rfl, rfl⟩
        simpa using accepted
      · rintro ⟨whole, all, ends⟩
        cases taken with
        | nil => exact ⟨rfl, whole⟩
        | cons first others =>
          simp only [List.cons_append, List.cons.injEq] at whole
          exact absurd (whole.1 ▸ all first List.mem_cons_self) accepted

theorem one_iff : one accepts text = some (taken, rest) ↔ ∃ c, accepts c = true ∧ taken = [c] ∧ text = c :: rest := by
  cases text with
  | nil => simp [one]
  | cons c text =>
    simp only [one]
    split
    next accepted =>
      constructor
      · intro found
        cases found
        exact ⟨c, accepted, rfl, rfl⟩
      · rintro ⟨d, -, rfl, whole⟩
        cases whole
        rfl
    next refused =>
      constructor
      · intro found; cases found
      · rintro ⟨d, accepted, -, whole⟩
        cases whole
        exact absurd accepted refused

theorem next_iff {first second : Pattern} : (first.next second) text = some (taken, rest) ↔
    ∃ begun middle more, first text = some (begun, middle) ∧ second middle = some (more, rest) ∧
        taken = begun ++ more := by
  simp only [next, Option.bind_eq_bind, Option.bind_eq_some_iff, Prod.exists, Option.some.injEq, Prod.mk.injEq]
  constructor
  · rintro ⟨begun, middle, found, more, after, also, rfl, rfl⟩
    exact ⟨begun, middle, more, found, also, rfl⟩
  · rintro ⟨begun, middle, more, found, also, rfl⟩
    exact ⟨begun, middle, found, more, rest, also, rfl, rfl⟩

theorem some1_iff : some1 accepts text = some (taken, rest) ↔
    text = taken ++ rest ∧ taken ≠ [] ∧ (∀ c ∈ taken, accepts c = true) ∧ ∀ c ∈ rest.head?, accepts c = false := by
  rw [some1, next_iff]
  constructor
  · rintro ⟨begun, middle, more, found, also, rfl⟩
    obtain ⟨c, accepted, rfl, rfl⟩ := one_iff.mp found
    obtain ⟨rfl, all, ends⟩ := many_iff.mp also
    refine ⟨rfl, by simp, ?_, ends⟩
    simpa [accepted] using all
  · rintro ⟨rfl, more, all, ends⟩
    cases taken with
    | nil => exact absurd rfl more
    | cons c others =>
      have accepted := all c List.mem_cons_self
      exact ⟨[c], others ++ rest, others, one_iff.mpr ⟨c, accepted, rfl, rfl⟩,
        many_iff.mpr ⟨rfl, fun d member => all d (List.mem_cons_of_mem _ member), ends⟩, rfl⟩

theorem either_iff {first second : Pattern} : (first.either second) text = some (taken, rest) ↔
    first text = some (taken, rest) ∨ first text = none ∧ second text = some (taken, rest) := by
  unfold either
  cases first text with
  | none => simp
  | some split => simp

theorem optional_iff {pattern : Pattern} : Pattern.optional pattern text = some (taken, rest) ↔
    pattern text = some (taken, rest) ∨ pattern text = none ∧ taken = [] ∧ rest = text := by
  unfold Pattern.optional
  cases pattern text with
  | none => simp [eq_comm]
  | some split => simp

/-- A pattern that takes what is of a kind, whatever stands behind it. -/
structure Takes (pattern : Pattern) (kind : List Char → Prop) : Prop where
  iff : ∀ {text taken rest : List Char}, pattern text = some (taken, rest) ↔ text = taken ++ rest ∧ kind taken

namespace Takes
variable {pattern : Pattern} {kind : List Char → Prop}

theorem proper (takes : Takes pattern kind) (more : ∀ {taken}, kind taken → taken ≠ []) : Proper pattern :=
  ⟨fun found => (takes.iff.mp found).1.symm, fun found => more (takes.iff.mp found).2⟩

theorem fails (takes : Takes pattern kind) (no : ∀ taken rest, kind taken → text ≠ taken ++ rest) :
    pattern text = none := by
  rw [Option.eq_none_iff_forall_ne_some]
  rintro ⟨taken, rest⟩ found
  obtain ⟨whole, matched⟩ := takes.iff.mp found
  exact no taken rest matched whole

/-- What is behind a part makes no difference when no match goes on in it. -/
theorem append (takes : Takes pattern kind) {part after : List Char}
    (inside : ∀ taken rest, kind taken → part ++ after = taken ++ rest → ∃ further, part = taken ++ further) :
    pattern (part ++ after) = (pattern part).map (Prod.map id (· ++ after)) := by
  cases found : pattern part with
  | some split =>
    obtain ⟨taken, rest⟩ := split
    obtain ⟨rfl, matched⟩ := takes.iff.mp found
    exact takes.iff.mpr ⟨List.append_assoc _ _ _, matched⟩
  | none =>
    rw [Option.map_none]
    refine takes.fails fun taken rest matched whole => ?_
    obtain ⟨further, same⟩ := inside taken rest matched whole
    cases found.symm.trans (takes.iff.mpr ⟨same, matched⟩)

end Takes

def Splits (pattern : Pattern) : Prop := ∀ text taken rest, pattern text = some (taken, rest) → taken ++ rest = text

theorem splits_word (letters : List Char) : Splits (word letters) := by
  intro text taken rest found
  obtain ⟨rfl, rfl⟩ := word_iff.mp found
  rfl

theorem Splits.next {first second : Pattern} (begins : Splits first) (ends : Splits second) :
    Splits (first.next second) := by
  intro text taken rest found
  obtain ⟨begun, middle, more, first, second, rfl⟩ := next_iff.mp found
  rw [List.append_assoc, ends _ _ _ second, begins _ _ _ first]

theorem Splits.optional {pattern : Pattern} (splits : Splits pattern) : Splits (Pattern.optional pattern) := by
  intro text taken rest found
  rcases optional_iff.mp found with matched | ⟨-, rfl, rfl⟩
  · exact splits _ _ _ matched
  · rfl

theorem Splits.proper {pattern : Pattern} (splits : Splits pattern)
    (takes : ∀ text taken rest, pattern text = some (taken, rest) → taken ≠ []) : Proper pattern :=
  ⟨splits _ _ _, takes _ _ _⟩

theorem proper_word {letters : List Char} (more : letters ≠ []) : Proper (word letters) :=
  (splits_word letters).proper fun _ _ _ found => (word_iff.mp found).1 ▸ more

theorem proper_one (accepts : Char → Bool) : Proper (one accepts) := by
  refine ⟨?_, ?_⟩
  · intro text taken rest found
    obtain ⟨c, -, rfl, rfl⟩ := one_iff.mp found
    rfl
  · intro text taken rest found
    obtain ⟨c, -, rfl, -⟩ := one_iff.mp found
    simp

theorem proper_some1 (accepts : Char → Bool) : Proper (some1 accepts) :=
  ⟨fun found => (some1_iff.mp found).1.symm, fun found => (some1_iff.mp found).2.1⟩

theorem next_proper {first second : Pattern} (begins : Proper first) (ends : Splits second) :
    Proper (first.next second) := by
  refine (Splits.next (fun _ _ _ => begins.splits) ends).proper ?_
  intro text taken rest found
  obtain ⟨begun, middle, more, first, second, rfl⟩ := next_iff.mp found
  simp [begins.takes first]

theorem proper_next {first second : Pattern} (begins : Splits first) (ends : Proper second) :
    Proper (first.next second) := by
  refine (begins.next fun _ _ _ => ends.splits).proper ?_
  intro text taken rest found
  obtain ⟨begun, middle, more, first, second, rfl⟩ := next_iff.mp found
  simp [ends.takes second]

theorem repeated_none {pattern : Pattern} (fails : pattern text = none) : repeated pattern text = none := by
  rw [repeated, fails]

theorem repeated_some {pattern : Pattern} (proper : Proper pattern) (found : pattern text = some (taken, rest)) :
    repeated pattern text = some (((repeated pattern rest).map (Prod.map (taken ++ ·) id)).getD (taken, rest)) := by
  have whole := congrArg List.length (proper.splits found)
  have more := List.length_pos_iff.mpr (proper.takes found)
  rw [List.length_append] at whole
  rw [repeated, found]
  simp only [if_pos (show rest.length < text.length by omega)]
  cases repeated pattern rest <;> rfl

theorem proper_repeated {pattern : Pattern} (proper : Proper pattern) : Proper (repeated pattern) := by
  have shape : ∀ size text, text.length = size → ∀ taken rest, repeated pattern text = some (taken, rest) →
      taken ++ rest = text ∧ taken ≠ [] := by
    intro size
    induction size using Nat.strong_induction_on with
    | _ size ih =>
      intro text length taken rest found
      cases matched : pattern text with
      | none => cases (repeated_none matched).symm.trans found
      | some split =>
        obtain ⟨begun, middle⟩ := split
        have whole := proper.splits matched
        have more := proper.takes matched
        have longer := List.length_pos_iff.mpr more
        rw [repeated_some proper matched, Option.some.injEq] at found
        cases again : repeated pattern middle with
        | none =>
          rw [again] at found
          cases found
          exact ⟨whole, more⟩
        | some split =>
          obtain ⟨further, after⟩ := split
          rw [again] at found
          cases found
          have lengths := congrArg List.length whole
          rw [List.length_append] at lengths
          obtain ⟨later, -⟩ := ih middle.length (by omega) middle rfl further after again
          exact ⟨by rw [List.append_assoc, id_eq, later, whole], by simp [more]⟩
  exact ⟨fun found => (shape _ _ rfl _ _ found).1, fun found => (shape _ _ rfl _ _ found).2⟩

def Spelled (letters : String) (text : List Char) : Prop :=
  List.Forall₂ (fun letter c => sameLetter letter c = true) letters.toList text

/-- The characters that a lower-case letter stands for. -/
def forms (letter : Char) : List Char :=
  [letter, letter.toUpper] ++ (if letter = 's' then ['\u017F'] else []) ++ if letter = 'k' then ['\u212A'] else []

private theorem toLower_of_not_upper {c : Char} (other : c.isUpper = false) : c.toLower = c := by
  unfold Char.toLower
  split
  next upper => exact absurd upper (of_decide_eq_false other)
  next => rfl

private theorem toUpper_toLower {c : Char} (upper : c.isUpper = true) : c.toLower.toUpper = c := by
  obtain ⟨above, below⟩ : 'A'.val ≤ c.val ∧ c.val ≤ 'Z'.val := of_decide_eq_true upper
  have first : 65 ≤ c.toNat := UInt32.le_iff_toNat_le.mp above
  have last : c.toNat ≤ 90 := UInt32.le_iff_toNat_le.mp below
  rw [← Char.ofNat_toNat c]
  generalize c.toNat = code at first last
  interval_cases code <;> rfl

theorem mem_forms {letter c : Char} (same : sameLetter letter c = true) : c ∈ forms letter := by
  simp only [sameLetter, Bool.or_eq_true, Bool.and_eq_true, beq_iff_eq] at same
  rcases same with (same | ⟨rfl, rfl⟩) | ⟨rfl, rfl⟩
  · cases upper : c.isUpper with
    | true => simp [forms, ← same, toUpper_toLower upper]
    | false =>
      rw [toLower_of_not_upper upper] at same
      simp [forms, same]
  · decide
  · decide

theorem exists_form {letters text : List Char}
    (spelled : List.Forall₂ (fun letter c => sameLetter letter c = true) letters text)
    {c : Char} (member : c ∈ text) : ∃ letter ∈ letters, c ∈ forms letter := by
  induction spelled with
  | nil => cases member
  | cons same others ih =>
    rcases List.mem_cons.mp member with rfl | later
    · exact ⟨_, List.mem_cons_self, mem_forms same⟩
    · obtain ⟨letter, there, form⟩ := ih later
      exact ⟨letter, List.mem_cons_of_mem _ there, form⟩

theorem Spelled.head {letters : String} {text : List Char} (spelled : Spelled letters text)
    {letter : Char} {others : List Char}
    (same : letters.toList = letter :: others) : ∃ c rest, text = c :: rest ∧ c ∈ forms letter := by
  rw [Spelled, same] at spelled
  cases spelled with
  | cons first more => exact ⟨_, _, rfl, mem_forms first⟩

/-- Of a word in two parts the first has no last letter of it, and the second no first letter. -/
theorem Spelled.parts {letters : String} {before after : List Char} (spelled : Spelled letters (before ++ after)) :
    (after ≠ [] → ∀ c ∈ before, ∃ letter ∈ letters.toList.dropLast, c ∈ forms letter) ∧
      (before ≠ [] → ∀ c ∈ after, ∃ letter ∈ letters.toList.tail, c ∈ forms letter) := by
  have length := List.Forall₂.length_eq spelled
  rw [List.length_append] at length
  refine ⟨?_, ?_⟩
  · intro more c member
    obtain ⟨letter, there, form⟩ := exists_form (List.forall₂_take_append _ _ _ spelled) member
    refine ⟨letter, ?_, form⟩
    have shorter := List.length_pos_iff.mpr more
    rw [List.dropLast_eq_take]
    exact (List.take_prefix_take_left (by omega)).subset there
  · intro more c member
    obtain ⟨letter, there, form⟩ := exists_form (List.forall₂_drop_append _ _ _ spelled) member
    refine ⟨letter, ?_, form⟩
    have shorter := List.length_pos_iff.mpr more
    rw [← List.drop_one]
    exact (List.drop_suffix_drop_left _ shorter).subset there

section Parts
variable {pattern : Pattern} {change : List Char → List Char} {before after block : List Char}

/-- A text is passed one character or one match at a time. -/
theorem scan_induction (proper : Proper pattern) {motive : List Char → Prop} (nil : motive [])
    (pass : ∀ c text, pattern (c :: text) = none → motive text → motive (c :: text))
    (hit : ∀ text taken rest, pattern text = some (taken, rest) → motive rest → motive text) (text : List Char) :
    motive text := by
  induction length : text.length using Nat.strong_induction_on generalizing text with
  | _ size ih =>
    cases text with
    | nil => exact nil
    | cons c text =>
      rw [List.length_cons] at length
      cases found : pattern (c :: text) with
      | none => exact pass c text found (ih text.length (by omega) text rfl)
      | some split =>
        obtain ⟨taken, rest⟩ := split
        have whole := congrArg List.length (proper.splits found)
        have more := List.length_pos_iff.mpr (proper.takes found)
        simp only [List.length_append, List.length_cons] at whole
        exact hit _ taken rest found (ih rest.length (by omega) rest rfl)

/-- A match that begins before the border ends before it, and what comes after the border
makes no difference to it. -/
def Local (pattern : Pattern) (before after : List Char) : Prop :=
  ∀ part, part ≠ [] → part <:+ before → pattern (part ++ after) = (pattern part).map (Prod.map id (· ++ after))

/-- No match begins in the block. -/
def Silent (pattern : Pattern) (block after : List Char) : Prop :=
  ∀ part, part ≠ [] → part <:+ block → pattern (part ++ after) = none

theorem Local.of_suffix {part : List Char} (within : Local pattern before after) (ends : part <:+ before) :
    Local pattern part after :=
  fun smaller more suffix => within smaller more (suffix.trans ends)

theorem replace_append (proper : Proper pattern) (within : Local pattern before after) :
    replace pattern change (before ++ after) = replace pattern change before ++ replace pattern change after := by
  induction before using scan_induction proper with
  | nil => rfl
  | pass c text fails ih =>
    have same := within (c :: text) (by simp) (List.suffix_refl _)
    rw [fails, Option.map_none, List.cons_append] at same
    rw [List.cons_append, replace_none same, replace_none fails, ih (within.of_suffix (List.suffix_cons c text)),
      List.cons_append]
  | hit text taken rest found ih =>
    have whole := proper.splits found
    have more : text ≠ [] := by
      rintro rfl
      exact proper.takes found (List.append_eq_nil_iff.mp whole).1
    have same := within text more (List.suffix_refl _)
    rw [found, Option.map_some, Prod.map_apply, id_eq] at same
    rw [replace_some proper same, replace_some proper found, ih (within.of_suffix ⟨taken, whole⟩), List.append_assoc]

theorem findAll_append (proper : Proper pattern) (within : Local pattern before after) :
    findAll pattern (before ++ after) = findAll pattern before ++ findAll pattern after := by
  induction before using scan_induction proper with
  | nil => rfl
  | pass c text fails ih =>
    have same := within (c :: text) (by simp) (List.suffix_refl _)
    rw [fails, Option.map_none, List.cons_append] at same
    rw [List.cons_append, findAll_none same, findAll_none fails, ih (within.of_suffix (List.suffix_cons c text))]
  | hit text taken rest found ih =>
    have whole := proper.splits found
    have more : text ≠ [] := by
      rintro rfl
      exact proper.takes found (List.append_eq_nil_iff.mp whole).1
    have same := within text more (List.suffix_refl _)
    rw [found, Option.map_some, Prod.map_apply, id_eq] at same
    rw [findAll_some proper same, findAll_some proper found, ih (within.of_suffix ⟨taken, whole⟩), List.cons_append]

theorem Silent.tail {c : Char} (silent : Silent pattern (c :: block) after) : Silent pattern block after :=
  fun part more suffix => silent part more (suffix.trans (List.suffix_cons c block))

theorem replace_silent (silent : Silent pattern block after) :
    replace pattern change (block ++ after) = block ++ replace pattern change after := by
  induction block with
  | nil => rfl
  | cons c block ih =>
    have fails := silent (c :: block) (by simp) (List.suffix_refl _)
    rw [List.cons_append] at fails
    rw [List.cons_append, replace_none fails, ih silent.tail, List.cons_append]

theorem findAll_silent (silent : Silent pattern block after) :
    findAll pattern (block ++ after) = findAll pattern after := by
  induction block with
  | nil => rfl
  | cons c block ih =>
    have fails := silent (c :: block) (by simp) (List.suffix_refl _)
    rw [List.cons_append] at fails
    rw [List.cons_append, findAll_none fails, ih silent.tail]

theorem mem_findAll (proper : Proper pattern) {found : List Char} (member : found ∈ findAll pattern text) :
    ∃ text rest, pattern text = some (found, rest) := by
  induction text using scan_induction proper with
  | nil => cases member
  | pass c text fails ih => exact ih (findAll_none fails ▸ member)
  | hit text taken rest matched ih =>
    rw [findAll_some proper matched] at member
    rcases List.mem_cons.mp member with rfl | later
    · exact ⟨text, rest, matched⟩
    · exact ih later

def EndsIn (holds : Char → Prop) (text : List Char) : Prop := ∃ c, text.getLast? = some c ∧ holds c

theorem EndsIn.append {holds : Char → Prop} (ends : EndsIn holds after) (before : List Char) :
    EndsIn holds (before ++ after) := by
  obtain ⟨c, last, held⟩ := ends
  exact ⟨c, by rw [List.getLast?_append, last]; rfl, held⟩

theorem EndsIn.of_append {holds : Char → Prop} (ends : EndsIn holds (before ++ after)) (more : after ≠ []) :
    EndsIn holds after := by
  obtain ⟨c, last, held⟩ := ends
  rw [List.getLast?_append, List.getLast?_eq_some_getLast more] at last
  exact ⟨c, (List.getLast?_eq_some_getLast more).trans last, held⟩

/-- The last character of a changed text is that of the text or that of a change. -/
theorem EndsIn.replace {holds : Char → Prop} (proper : Proper pattern) (changed : ∀ taken, EndsIn holds (change taken))
    (ends : EndsIn holds text) : EndsIn holds (replace pattern change text) := by
  induction text using scan_induction proper with
  | nil => exact ends
  | pass c text fails ih =>
    rw [replace_none fails]
    rcases eq_or_ne text [] with rfl | more
    · exact ends
    · exact (ih ((show EndsIn holds ([c] ++ text) from ends).of_append more)).append [c]
  | hit text taken rest found ih =>
    rw [replace_some proper found]
    rcases eq_or_ne rest [] with rfl | more
    · rw [replace_nil, List.append_nil]
      exact changed taken
    · rw [← proper.splits found] at ends
      exact (ih (ends.of_append more)).append (change taken)

theorem mem_replace (proper : Proper pattern) {c : Char} (member : c ∈ replace pattern change text) :
    c ∈ text ∨ ∃ taken, c ∈ change taken := by
  induction text using scan_induction proper with
  | nil => exact .inl member
  | pass d text fails ih =>
    rw [replace_none fails] at member
    rcases List.mem_cons.mp member with rfl | later
    · exact .inl List.mem_cons_self
    · exact (ih later).imp_left (List.mem_cons_of_mem d)
  | hit text taken rest found ih =>
    rw [replace_some proper found] at member
    rcases List.mem_append.mp member with changed | later
    · exact .inr ⟨taken, changed⟩
    · rw [← proper.splits found]
      exact (ih later).imp_left (List.mem_append_right taken)

/-- A word at the start of a changed text was there before when no part of it is in a change. -/
theorem anyCase_of_replace (proper : Proper pattern) {letters : List Char}
    (apart : ∀ part, part ≠ [] → part <:+ letters → ∀ taken after, anyCase part (change taken ++ after) = none)
    (found : (anyCase letters (replace pattern change text)).isSome) : (anyCase letters text).isSome := by
  induction letters generalizing text with
  | nil => rfl
  | cons letter letters ih =>
    cases text with
    | nil => exact found
    | cons c text =>
      cases matched : pattern (c :: text) with
      | none =>
        rw [replace_none matched] at found
        unfold anyCase at found ⊢
        split at found
        next same =>
          rw [Option.isSome_map] at found
          rw [if_pos same, Option.isSome_map]
          exact ih (fun part more suffix => apart part more (suffix.trans (List.suffix_cons letter letters))) found
        next => cases found
      | some split =>
        rw [replace_some proper matched, apart _ (by simp) (List.suffix_refl _)] at found
        cases found

end Parts

end QueryFacts.Proofs.Replacement
