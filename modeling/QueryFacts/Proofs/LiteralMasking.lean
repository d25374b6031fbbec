import QueryFacts.Proofs.LikeFolding

/-! The fingerprint does not depend on what a literal holds, where nothing in the text shifts the
quotes that the masks pair up and where the literal is no operand of a LIKE. The text is
followed through every pass as a front, the content, and a back; a pass either leaves the
content where it is, and does the same around it whatever it is, or takes it away. -/

namespace QueryFacts.Proofs.LiteralMasking
open Text Text.Pattern Fingerprint Replacement LikeFolding

variable {before block after : List Char}

def blankRun : Pattern := (one isBlank).next (some1 isBlank)

def spaced (text : List Char) : List Char := replace blankRun (fun _ => [' ']) text

theorem blankRun_iff {text taken rest : List Char} : blankRun text = some (taken, rest) ↔
    text = taken ++ rest ∧ 2 ≤ taken.length ∧ (∀ c ∈ taken, isBlank c = true) ∧
        ∀ c ∈ rest.head?, isBlank c = false := by
  rw [blankRun, next_iff]
  constructor
  · rintro ⟨begun, middle, more, found, also, rfl⟩
    obtain ⟨c, blank, rfl, rfl⟩ := one_iff.mp found
    obtain ⟨rfl, some, all, ends⟩ := some1_iff.mp also
    have longer := List.length_pos_iff.mpr some
    refine ⟨rfl, ?_, ?_, ends⟩
    · simp only [List.length_append, List.length_singleton]
      omega
    · simpa [blank] using all
  · rintro ⟨rfl, two, all, ends⟩
    cases taken with
    | nil => simp at two
    | cons c others =>
      have some : others ≠ [] := by
        rintro rfl
        simp at two
      exact ⟨[c], others ++ rest, others, one_iff.mpr ⟨c, all c List.mem_cons_self, rfl, rfl⟩,
        some1_iff.mpr ⟨rfl, some, fun d member => all d (List.mem_cons_of_mem _ member), ends⟩, rfl⟩

theorem proper_blankRun : Proper blankRun :=
  next_proper (proper_one isBlank) (fun _ _ _ => (proper_some1 isBlank).splits)

/-- A run that takes all it can does not cross a border where it has to stop. -/
theorem run_local {pattern : Pattern} {accepts : Char → Bool} {holds : List Char → Prop}
    (run : ∀ text taken rest, pattern text = some (taken, rest) ↔
      text = taken ++ rest ∧ holds taken ∧ (∀ c ∈ taken, accepts c = true) ∧ ∀ c ∈ rest.head?, accepts c = false)
    (border : EndsIn (accepts · = false) before ∨ ∀ c ∈ after.head?, accepts c = false) :
    Local pattern before after := by
  rintro part more ⟨front, rfl⟩
  cases found : pattern part with
  | some split =>
    obtain ⟨taken, rest⟩ := split
    obtain ⟨rfl, held, all, ends⟩ := (run _ _ _).mp found
    refine (run _ _ _).mpr ⟨List.append_assoc _ _ _, held, all, ?_⟩
    rcases eq_or_ne rest [] with rfl | further
    · rw [List.append_nil] at border more
      rcases border with ends | stops
      · obtain ⟨c, last, refused⟩ := ends.of_append more
        cases refused.symm.trans (all c (List.mem_of_getLast? last))
      · exact stops
    · change ∀ c ∈ (rest ++ after).head?, accepts c = false
      rw [List.head?_append_of_ne_nil _ further]
      exact ends
  | none =>
    rw [Option.map_none, Option.eq_none_iff_forall_ne_some]
    rintro ⟨taken, rest⟩ matched
    obtain ⟨whole, held, all, ends⟩ := (run _ _ _).mp matched
    rcases List.append_eq_append_iff.mp whole with ⟨further, rfl, rfl⟩ | ⟨further, rfl, rfl⟩
    · rcases eq_or_ne further [] with rfl | unfinished
      · rw [List.append_nil] at held all
        cases found.symm.trans ((run part part []).mpr ⟨by simp, held, all, by simp⟩)
      · rcases border with stops | stops
        · obtain ⟨c, last, refused⟩ := stops.of_append more
          cases refused.symm.trans (all c (List.mem_append_left _ (List.mem_of_getLast? last)))
        · obtain ⟨c, others, rfl⟩ := List.exists_cons_of_ne_nil unfinished
          cases (stops c rfl).symm.trans (all c (by simp))
    · rcases eq_or_ne further [] with rfl | unfinished
      · rw [List.append_nil] at found
        cases found.symm.trans ((run taken taken []).mpr ⟨by simp, held, all, by simp⟩)
      · rw [List.head?_append_of_ne_nil _ unfinished] at ends
        cases found.symm.trans ((run _ taken further).mpr ⟨rfl, held, all, ends⟩)

theorem solid_of_seals {c : Char} (seals : Seals c) : isBlank c = false := by
  rcases seals with rfl | rfl | rfl <;> decide

theorem spaced_append (border : EndsIn (isBlank · = false) before ∨ ∀ c ∈ after.head?, isBlank c = false) :
    spaced (before ++ after) = spaced before ++ spaced after :=
  replace_append proper_blankRun (run_local (fun _ _ _ => blankRun_iff) border)

theorem spaced_cons {c : Char} (solid : isBlank c = false) (text : List Char) :
    spaced (c :: text) = c :: spaced text := by
  refine replace_none (Option.eq_none_iff_forall_ne_some.mpr ?_)
  rintro ⟨taken, rest⟩ matched
  obtain ⟨whole, two, all, -⟩ := blankRun_iff.mp matched
  cases taken with
  | nil => simp at two
  | cons first others =>
    obtain rfl := (List.cons.inj whole).1
    cases solid.symm.trans (all c List.mem_cons_self)

theorem spaced_of_solid {text : List Char} (solid : ∀ c ∈ text, isBlank c = false) : spaced text = text := by
  induction text with
  | nil => rfl
  | cons c text ih =>
    rw [spaced_cons (solid c List.mem_cons_self), ih fun d member => solid d (List.mem_cons_of_mem _ member)]

theorem endsIn_iff {holds : Char → Prop} {text : List Char} :
    EndsIn holds text ↔ ∃ front c, text = front ++ [c] ∧ holds c := by
  constructor
  · rintro ⟨c, last, held⟩
    exact ⟨text.dropLast, c, (List.dropLast_append_getLast? c last).symm, held⟩
  · rintro ⟨front, c, rfl, held⟩
    exact ⟨c, List.getLast?_concat, held⟩

theorem placed_spaced (placed : Placed before block after) (some : block ≠ []) :
    spaced (before ++ block ++ after) = spaced before ++ spaced block ++ spaced after ∧
      Placed (spaced before) (spaced block) (spaced after) := by
  have digits (all : ∀ c ∈ block, c.isDigit = true) : spaced block = block :=
    spaced_of_solid fun c member => isBlank_of_isDigit (all c member)
  have left : EndsIn (isBlank · = false) before ∨ ∀ c ∈ (block ++ after).head?, isBlank c = false := by
    rcases placed.seam with ⟨c, last, seals⟩ | all
    · exact .inl ⟨c, last, solid_of_seals seals⟩
    · rw [List.head?_append_of_ne_nil _ some]
      exact .inr fun c head => isBlank_of_isDigit (all c (List.mem_of_head? head))
  have right : EndsIn (isBlank · = false) block ∨ ∀ c ∈ after.head?, isBlank c = false := by
    rcases placed.edge with all | head
    · exact .inl ⟨_, List.getLast?_eq_some_getLast some, isBlank_of_isDigit (all _ (List.getLast_mem some))⟩
    · refine .inr fun c first => ?_
      obtain rfl := Option.some.inj (head.symm.trans first)
      decide
  refine ⟨by rw [List.append_assoc, spaced_append left, spaced_append right, List.append_assoc], ?_, ?_⟩
  · rcases placed.seam with ends | all
    · obtain ⟨front, c, rfl, seals⟩ := endsIn_iff.mp ends
      have solid := solid_of_seals seals
      refine .inl (endsIn_iff.mpr ⟨spaced front, c, ?_, seals⟩)
      rw [spaced_append (.inr (by simpa using solid)), spaced_cons solid]
      rfl
    · exact .inr (by rwa [digits all])
  · rcases placed.edge with all | head
    · exact .inl (by rwa [digits all])
    · obtain ⟨rest, rfl⟩ := List.head?_eq_some_iff.mp head
      exact .inr (by rw [spaced_cons (by decide)]; rfl)

/-- A LIKE in a text whose blanks are reduced was there before. -/
theorem spaced_silent {text : List Char} (silent : ∀ part, part <:+ text → anyCase "like".toList part = none) :
    ∀ part, part <:+ spaced text → anyCase "like".toList part = none := by
  have letters : ∀ part, part ≠ [] → part <:+ "like".toList → ∀ text :
      List Char, anyCase part (' ' :: text) = none := by
    intro part more suffix text
    have noBlank : ∀ letter ∈ "like".toList, sameLetter letter ' ' = false := List.all_iff_forall_prop.mp (by decide)
    obtain ⟨letter, others, rfl⟩ := List.exists_cons_of_ne_nil more
    simp [anyCase, noBlank letter (suffix.subset List.mem_cons_self)]
  induction text using scan_induction proper_blankRun with
  | nil => exact silent
  | pass c text fails ih =>
    intro part suffix
    rw [spaced, replace_none fails] at suffix
    rcases List.suffix_cons_iff.mp suffix with rfl | later
    · have none := silent (c :: text) (List.suffix_refl _)
      rw [← Option.not_isSome_iff_eq_none] at none ⊢
      rw [← replace_none fails]
      exact fun found =>
        none (anyCase_of_replace proper_blankRun (fun part more ends _ text => letters part more ends text) found)
    · exact ih (fun smaller ends => silent smaller (ends.trans (List.suffix_cons c text))) part later
  | hit text taken rest found ih =>
    intro part suffix
    rw [spaced, replace_some proper_blankRun found] at suffix
    rcases List.suffix_cons_iff.mp suffix with rfl | later
    · exact letters _ (by simp) (List.suffix_refl _) _
    · exact ih (fun smaller ends => silent smaller (ends.trans ⟨taken, proper_blankRun.splits found⟩)) part later

theorem content_spaced (content : Content block) : Content (spaced block) := by
  refine ⟨?_, ?_, spaced_silent content.silent⟩
  · have ends : EndsIn (fun _ => True) block := ⟨_, List.getLast?_eq_some_getLast content.some, trivial⟩
    obtain ⟨c, last, -⟩ : EndsIn (fun _ => True) (spaced block) :=
      ends.replace proper_blankRun fun _ => ⟨' ', rfl, trivial⟩
    exact List.ne_nil_of_mem (List.mem_of_getLast? last)
  · intro c member
    rcases mem_replace proper_blankRun member with old | ⟨taken, new⟩
    · exact content.plain c old
    · rw [List.mem_singleton.mp new]
      decide

def unpercented (text : List Char) : List Char := text.filter (· ≠ '%')

theorem placed_unpercented (placed : Placed before block after) (content : Content block) :
    unpercented (before ++ block ++ after) = unpercented before ++ block ++ unpercented after ∧
      Placed (unpercented before) block (unpercented after) := by
  have kept : unpercented block = block := by
    refine List.filter_eq_self.mpr fun c member => ?_
    simpa using (content.plain c member).2.2
  have parts : unpercented (before ++ block ++ after) =
      unpercented before ++ unpercented block ++ unpercented after := by
    simp only [unpercented, List.filter_append]
  refine ⟨by rw [parts, kept], ?_, ?_⟩
  · rcases placed.seam with ends | all
    · obtain ⟨front, c, rfl, seals⟩ := endsIn_iff.mp ends
      refine .inl (endsIn_iff.mpr ⟨unpercented front, c, ?_, seals⟩)
      rw [unpercented, List.filter_append, List.filter_singleton]
      rcases seals with rfl | rfl | rfl <;> rfl
    · exact .inr all
  · rcases placed.edge with all | head
    · exact .inl all
    · obtain ⟨rest, rfl⟩ := List.head?_eq_some_iff.mp head
      exact .inr rfl

theorem blank_of_placed (placed : Placed before block after) (content : Content block) : Blank block before after :=
  ⟨content.some, fun member => (content.plain _ member).1 rfl, likeLiteral_silent content placed, placed.uncut content⟩

theorem likeMask_quote (text : List Char) : likeMask (singleQuote :: text) = singleQuote :: likeMask text := by
  refine likeMask_none (likeLiteral_none fun content rest _ _ same => ?_)
  cases same

theorem placed_likeMask (placed : Placed before block after) : Placed (likeMask before) block (likeMask after) := by
  refine ⟨?_, ?_⟩
  · rcases placed.seam with ends | all
    · exact .inl (ends.replace proper_likeLiteral fun _ => ⟨'X', by decide, .inr (.inl rfl)⟩)
    · exact .inr all
  · rcases placed.edge with all | head
    · exact .inl all
    · obtain ⟨rest, rfl⟩ := List.head?_eq_some_iff.mp head
      exact .inr (by rw [likeMask_quote]; rfl)

def unescaped (text : List Char) : List Char := replace escape (fun _ => []) text

/-- A backslash with what it escapes. -/
inductive Escaped : List Char → Prop where
  | mk {c : Char} (special : c = '\\' ∨ c = singleQuote ∨ c = doubleQuote) : Escaped ['\\', c]

theorem takes_escape : Takes escape Escaped := by
  refine ⟨fun {text taken rest} => ?_⟩
  change (word ['\\']).next (one fun c => c = '\\' ∨ c = singleQuote ∨ c = doubleQuote) text = _ ↔ _
  simp only [next_iff, word_iff, one_iff, decide_eq_true_eq]
  constructor
  · rintro ⟨begun, middle, more, ⟨rfl, rfl⟩, ⟨c, special, rfl, rfl⟩, rfl⟩
    exact ⟨rfl, .mk special⟩
  · rintro ⟨rfl, @⟨c, special⟩⟩
    exact ⟨['\\'], c :: rest, [c], ⟨rfl, rfl⟩, ⟨c, special, rfl, rfl⟩, rfl⟩

theorem proper_escape : Proper escape := takes_escape.proper fun escaped => by cases escaped; simp

theorem unescaped_block (placed : Placed before block after) (content : Content block) :
    unescaped (before ++ block ++ after) = unescaped before ++ block ++ unescaped after := by
  have left : Local escape before (block ++ after) := by
    rintro part more ⟨front, rfl⟩
    refine takes_escape.append fun taken rest escaped whole => ?_
    obtain ⟨special⟩ := escaped
    obtain ⟨slash, others, rfl⟩ := List.exists_cons_of_ne_nil more
    obtain ⟨rfl, further⟩ := List.cons.inj whole
    cases others with
    | cons d others =>
      obtain ⟨rfl, -⟩ := List.cons.inj further
      exact ⟨others, rfl⟩
    | nil =>
      rcases placed.seam with ⟨last, same, seals⟩ | all
      · rw [List.getLast?_concat, Option.some.injEq] at same
        subst same
        rcases seals with other | other | other <;> exact absurd other (by decide)
      · obtain ⟨digit, others, rfl⟩ := List.exists_cons_of_ne_nil content.some
        obtain ⟨rfl, -⟩ := List.cons.inj further
        have isDigit := all digit List.mem_cons_self
        rcases special with rfl | rfl | rfl <;> cases isDigit
  have inside : Silent escape block after := by
    intro part more suffix
    refine takes_escape.fails fun taken rest escaped whole => ?_
    obtain ⟨-⟩ := escaped
    obtain ⟨slash, others, rfl⟩ := List.exists_cons_of_ne_nil more
    obtain ⟨rfl, -⟩ := List.cons.inj whole
    exact (content.plain _ (suffix.subset List.mem_cons_self)).2.1 rfl
  rw [List.append_assoc, unescaped, replace_append proper_escape left, replace_silent inside, ← List.append_assoc]
  rfl

section Quotes
variable {quote : Char}

def quoteMask (quote : Char) (text : List Char) : List Char := replace (quoted quote) (fun _ => ['X']) text

/-- A text in quotes. -/
inductive Quoted (quote : Char) : List Char → Prop where
  | mk {content : List Char} (unquoted : quote ∉ content) : Quoted quote (quote :: content ++ [quote])

theorem takes_quoted : Takes (quoted quote) (Quoted quote) := by
  refine ⟨fun {text taken rest} => ?_⟩
  change ((word [quote]).next ((many (· ≠ quote)).next (word [quote]))) text = _ ↔ _
  simp only [next_iff, word_iff, many_iff]
  constructor
  · rintro ⟨begun, middle, more, ⟨rfl, rfl⟩, ⟨content, last, close, ⟨rfl, unquoted, -⟩, ⟨rfl, rfl⟩, rfl⟩, rfl⟩
    refine ⟨by simp, ?_⟩
    have plain : quote ∉ content := fun member => by simpa using unquoted _ member
    simpa using Quoted.mk plain
  · rintro ⟨rfl, @⟨content, unquoted⟩⟩
    refine ⟨[quote], content ++ quote :: rest, content ++ [quote], ⟨rfl, by simp⟩,
      ⟨content, quote :: rest, [quote], ⟨rfl, ?_, by simp⟩, ⟨rfl, rfl⟩, rfl⟩, by simp⟩
    intro c member
    simpa using ne_of_mem_of_not_mem member unquoted

theorem proper_quoted : Proper (quoted quote) := takes_quoted.proper fun inside => by cases inside; simp

theorem quoteMask_other {c : Char} (other : c ≠ quote) (text : List Char) :
    quoteMask quote (c :: text) = c :: quoteMask quote text := by
  refine replace_none (takes_quoted.fails fun taken rest inside whole => ?_)
  obtain ⟨-⟩ := inside
  exact other (List.cons.inj whole).1

theorem quoteMask_closed {content : List Char} (unquoted : quote ∉ content) (rest : List Char) :
    quoteMask quote (quote :: (content ++ quote :: rest)) = 'X' :: quoteMask quote rest :=
  replace_some proper_quoted (takes_quoted.iff.mpr ⟨by simp, .mk unquoted⟩)

theorem quoteMask_open {content : List Char} (unquoted : quote ∉ content) :
    quoteMask quote (quote :: content) = quote :: quoteMask quote content := by
  refine replace_none (takes_quoted.fails fun taken rest inside whole => ?_)
  obtain ⟨-⟩ := inside
  exact unquoted (by simp [(List.cons.inj whole).2])

theorem quoteMask_plain {text : List Char} (plain : quote ∉ text) (rest : List Char) :
    quoteMask quote (text ++ rest) = text ++ quoteMask quote rest := by
  induction text with
  | nil => rfl
  | cons c text ih =>
    obtain ⟨other, plain⟩ : quote ≠ c ∧ quote ∉ text := by simpa using plain
    rw [List.cons_append, quoteMask_other other.symm, ih plain, List.cons_append]

/-- Masking hides a content, or leaves it where it is. An odd number of quotes before the content
leaves one open, and then a quote after it hides it. -/
theorem quoteMask_block (quote : Char) (before after : List Char) :
    (∃ masked, ∀ block, quote ∉ block → quoteMask quote (before ++ block ++ after) = masked) ∨
      (Odd (before.count quote) → quote ∉ after) ∧
        ∃ front back, ∀ block, quote ∉ block → quoteMask quote (before ++ block ++ after) = front ++ block ++ back := by
  induction length : before.length using Nat.strong_induction_on generalizing before with
  | _ size ih =>
    cases before with
    | nil => exact .inr ⟨by simp, [], quoteMask quote after, fun block plain => quoteMask_plain plain after⟩
    | cons c before =>
      rw [List.length_cons] at length
      rcases eq_or_ne c quote with rfl | other
      · by_cases closed : c ∈ before
        · obtain ⟨content, rest, rfl, unquoted⟩ := List.eq_append_cons_of_mem closed
          simp only [List.length_append, List.length_cons] at length
          have hit (text : List Char) :
              quoteMask c (c :: (content ++ c :: rest) ++ text) = 'X' :: quoteMask c (rest ++ text) := by
            rw [← quoteMask_closed unquoted]
            simp
          rcases ih rest.length (by omega) rest rfl with ⟨masked, hidden⟩ | ⟨odd, front, back, kept⟩
          · refine .inl ⟨'X' :: masked, fun block plain => ?_⟩
            rw [List.append_assoc, hit, ← List.append_assoc, hidden block plain]
          · refine .inr ⟨fun counted => odd ?_, 'X' :: front, back, fun block plain => ?_⟩
            · rw [List.count_cons_self, List.count_append, List.count_eq_zero_of_not_mem unquoted,
                List.count_cons_self] at counted
              rw [Nat.odd_iff] at counted ⊢
              omega
            · rw [List.append_assoc, hit, ← List.append_assoc, kept block plain]
              rfl
        · by_cases closes : c ∈ after
          · obtain ⟨content, rest, rfl, unquoted⟩ := List.eq_append_cons_of_mem closes
            refine .inl ⟨'X' :: quoteMask c rest, fun block plain => ?_⟩
            rw [← quoteMask_closed (show c ∉ before ++ (block ++ content) by simp [closed, plain, unquoted])]
            simp
          · refine .inr ⟨fun _ => closes, c :: before, after, fun block plain => ?_⟩
            have unquoted : c ∉ before ++ (block ++ after) := by simp [closed, plain, closes]
            have whole := quoteMask_plain unquoted []
            rw [List.append_nil] at whole
            simp only [List.cons_append, List.append_assoc]
            rw [quoteMask_open unquoted, whole]
            simp [quoteMask]
      · rcases ih before.length (by omega) before rfl with ⟨masked, hidden⟩ | ⟨odd, front, back, kept⟩
        · refine .inl ⟨c :: masked, fun block plain => ?_⟩
          rw [List.cons_append, List.cons_append, quoteMask_other other, hidden block plain]
        · refine .inr ⟨fun counted => odd (by rwa [List.count_cons_of_ne other] at counted), c :: front, back,
            fun block plain => ?_⟩
          rw [List.cons_append, List.cons_append, quoteMask_other other, kept block plain]
          rfl

end Quotes

def numberMask (text : List Char) : List Char := replace number (fun _ => ['N']) text

theorem number_iff {text taken rest : List Char} : number text = some (taken, rest) ↔
    ∃ sign digits, (sign = [] ∨ sign = ['-']) ∧ digits ≠ [] ∧ (∀ c ∈ digits, c.isDigit = true) ∧
      (∀ c ∈ rest.head?, c.isDigit = false) ∧ taken = sign ++ digits ∧ text = taken ++ rest := by
  rw [number, next_iff]
  simp only [optional_iff, some1_iff, word_iff]
  constructor
  · rintro ⟨sign, middle, digits, found, ⟨rfl, some, all, ends⟩, rfl⟩
    rcases found with ⟨rfl, rfl⟩ | ⟨-, rfl, rfl⟩
    · exact ⟨['-'], digits, .inr rfl, some, all, ends, rfl, by simp⟩
    · exact ⟨[], digits, .inl rfl, some, all, ends, rfl, rfl⟩
  · rintro ⟨sign, digits, signed, some, all, ends, rfl, rfl⟩
    refine ⟨sign, digits ++ rest, digits, ?_, ⟨rfl, some, all, ends⟩, rfl⟩
    rcases signed with rfl | rfl
    · refine .inr ⟨?_, rfl, by simp⟩
      obtain ⟨c, others, rfl⟩ := List.exists_cons_of_ne_nil some
      have unsigned : ('-' == c) = false := by
        rw [beq_eq_false_iff_ne]
        rintro rfl
        cases all '-' List.mem_cons_self
      simp [word, List.isPrefixOf, unsigned]
    · exact .inl ⟨rfl, by simp⟩

theorem proper_number : Proper number :=
  proper_next (Splits.optional (splits_word ['-'])) (proper_some1 (·.isDigit))

theorem numberMask_run {sign digits rest : List Char} (signed : sign = [] ∨ sign = ['-']) (some : digits ≠ [])
    (all : ∀ c ∈ digits, c.isDigit = true) (ends : ∀ c ∈ rest.head?, c.isDigit = false) :
    numberMask (sign ++ (digits ++ rest)) = 'N' :: numberMask rest :=
  replace_some proper_number (number_iff.mpr ⟨sign, digits, signed, some, all, ends, rfl, by simp⟩)

theorem exists_run (text : List Char) : ∃ digits rest, text = digits ++ rest ∧ (∀ c ∈ digits, c.isDigit = true) ∧
    ∀ c ∈ rest.head?, c.isDigit = false :=
  ⟨_, _, many_iff.mp (show many (·.isDigit) text = _ from rfl)⟩

theorem numberMask_other {c : Char} {text : List Char} (noDigit : c.isDigit = false)
    (unsigned : c = '-' → ∀ d ∈ text.head?, d.isDigit = false) : numberMask (c :: text) = c :: numberMask text := by
  refine replace_none (Option.eq_none_iff_forall_ne_some.mpr ?_)
  rintro ⟨taken, rest⟩ matched
  obtain ⟨sign, digits, signed, some, all, -, rfl, whole⟩ := number_iff.mp matched
  obtain ⟨d, others, rfl⟩ := List.exists_cons_of_ne_nil some
  have digit := all d List.mem_cons_self
  rcases signed with rfl | rfl
  · obtain ⟨rfl, -⟩ := List.cons.inj whole
    cases noDigit.symm.trans digit
  · obtain ⟨rfl, rfl⟩ := List.cons.inj whole
    cases (unsigned rfl d rfl).symm.trans digit

/-- Every number is masked alike, whatever its digits are. -/
theorem numberMask_block (before after : List Char) : ∃ masked, ∀ block, block ≠ [] → (∀ c ∈ block, c.isDigit = true) →
    numberMask (before ++ block ++ after) = masked := by
  obtain ⟨more, back, rfl, moreDigits, backEnds⟩ := exists_run after
  -- The digits of a part that ends at the content go on in it.
  have joined (sign digits : List Char) (signed : sign = [] ∨ sign = ['-']) (all : ∀ c ∈ digits, c.isDigit = true)
      (block : List Char) (some : block ≠ []) (number : ∀ c ∈ block, c.isDigit = true) :
      numberMask (sign ++ digits ++ block ++ (more ++ back)) = 'N' :: numberMask back := by
    have whole : ∀ c ∈ digits ++ (block ++ more), c.isDigit = true := by
      intro c member
      rcases List.mem_append.mp member with old | new
      · exact all c old
      · exact (List.mem_append.mp new).elim (number c) (moreDigits c)
    rw [← numberMask_run signed (by simp [some]) whole backEnds]
    simp only [List.append_assoc]
  induction length : before.length using Nat.strong_induction_on generalizing before with
  | _ size ih =>
    -- A run that ends before the content is masked on its own.
    have apart (sign digits : List Char) (c : Char) (rest : List Char) (signed : sign = [] ∨ sign = ['-'])
    (some : digits ≠ [])
        (all : ∀ c ∈ digits, c.isDigit = true) (stops : c.isDigit = false)
        (whole : before = sign ++ (digits ++ c :: rest)) :
        ∃ masked, ∀ block, block ≠ [] → (∀ c ∈ block, c.isDigit = true) →
          numberMask (before ++ block ++ (more ++ back)) = masked := by
      have shorter := congrArg List.length whole
      have longer := List.length_pos_iff.mpr some
      simp only [List.length_append, List.length_cons] at shorter
      obtain ⟨masked, same⟩ := ih (c :: rest).length (by simp only [List.length_cons]; omega) (c :: rest) rfl
      refine ⟨'N' :: masked, fun block more number => ?_⟩
      rw [← same block more number, whole, ← numberMask_run signed some all (by simpa using stops)]
      simp
    obtain ⟨digits, rest, split, all, ends⟩ := exists_run before
    cases rest with
    | nil =>
      rw [List.append_nil] at split
      exact ⟨_, fun block some number => by simpa [split] using joined [] digits (.inl rfl) all block some number⟩
    | cons c rest =>
      have stops : c.isDigit = false := ends c rfl
      rcases eq_or_ne digits [] with rfl | some
      · rw [List.nil_append] at split
        subst split
        rw [List.length_cons] at length
        obtain ⟨masked, same⟩ := ih rest.length (by omega) rest rfl
        have passes (unsigned : c = '-' → ∃ d further, rest = d :: further ∧ d.isDigit = false) :
            ∃ masked, ∀ block, block ≠ [] →
            (∀ c ∈ block, c.isDigit = true) → numberMask (c :: rest ++ block ++ (more ++ back)) = masked := by
          refine ⟨c :: masked, fun block some number => ?_⟩
          rw [← same block some number]
          refine numberMask_other stops fun sign => ?_
          obtain ⟨d, further, rfl, noDigit⟩ := unsigned sign
          simpa using noDigit
        rcases eq_or_ne c '-' with rfl | unsigned
        · obtain ⟨digits, further, rfl, all, runEnds⟩ := exists_run rest
          cases further with
          | nil =>
            exact ⟨_, fun block some number => by simpa using joined ['-'] digits (.inr rfl) all block some number⟩
          | cons d further =>
            rcases eq_or_ne digits [] with rfl | some
            · exact passes fun _ => ⟨d, further, rfl, runEnds d rfl⟩
            · exact apart ['-'] digits d further (.inr rfl) some all (runEnds d rfl) rfl
        · exact passes fun sign => absurd sign unsigned
      · exact apart [] digits c rest (.inl rfl) some all stops split

/-- The place of a literal: a string between segments, or a number within code. -/
inductive Slot where
  | string (before after : List Segment)
  | number (before : List Segment) (left right : List Char) (after : List Segment)

namespace Slot

/-- The segments of a text with a literal in the place. -/
def fill : Slot → List Char → List Segment
  | .string before after, content => before ++ ⟨.stringLiteral, enclose singleQuote content⟩ :: after
  | .number before left right after, digits => before ++ ⟨.code, left ++ digits ++ right⟩ :: after

def Fits : Slot → List Char → Prop
  | .string .., content => Content content
  | .number .., digits => digits ≠ [] ∧ ∀ c ∈ digits, c.isDigit = true

/-- The text without comments up to the literal, and through the quote that opens a string. -/
def front : Slot → List Char
  | .string before _ => joinKept false false (before.flatMap Segment.kept ++ [some [singleQuote]])
  | .number before left _ _ =>
    joinKept false false (before.flatMap Segment.kept ++ Segment.kept ⟨.code, left⟩ ++ [some []])

/-- The text without comments after the literal, from the quote that closes a string. -/
def back : Slot → List Char
  | .string _ after => singleQuote :: joinKept true false (after.flatMap Segment.kept)
  | .number _ _ right after => joinKept true false (Segment.kept ⟨.code, right⟩ ++ after.flatMap Segment.kept)

end Slot

theorem joinKept_append (started gap : Bool) (front : List (Option (List Char))) (text : List Char)
    (back : List (Option (List Char))) : joinKept started gap (front ++ some text :: back) =
      joinKept started gap (front ++ [some []]) ++ text ++ joinKept true false back := by
  induction front generalizing started gap with
  | nil =>
    simp only [List.nil_append, joinKept, List.append_nil]
    split <;> simp
  | cons first front ih =>
    cases first with
    | none => exact ih started true
    | some first => simp only [List.cons_append, joinKept, ih true false, List.append_assoc]

theorem joinKept_code {digits : List Char} (all : ∀ c ∈ digits, c.isDigit = true) (rest : List (Option (List Char))) :
    joinKept true false (Segment.kept ⟨.code, digits⟩ ++ rest) = digits ++ joinKept true false rest := by
  induction digits with
  | nil => rfl
  | cons c digits ih =>
    have solid := isBlank_of_isDigit (all c List.mem_cons_self)
    have later := ih fun d member => all d (List.mem_cons_of_mem _ member)
    simp only [Segment.kept, List.map_cons, solid] at later ⊢
    simp only [Bool.false_eq_true, if_false, List.cons_append, joinKept, Bool.and_false, List.nil_append, later]

namespace Slot
variable {slot : Slot} {content text : List Char}

theorem stripComments_eq (read : Segment.ofText text = slot.fill content) (fits : slot.Fits content) :
    stripComments text = slot.front ++ content ++ slot.back := by
  rw [stripComments, read]
  cases slot with
  | string before after =>
    simp only [fill, front, back, List.flatMap_append, List.flatMap_cons, Segment.kept, List.singleton_append]
    rw [joinKept_append, joinKept_append false false _ [singleQuote]]
    simp [enclose, joinKept]
  | number before left right after =>
    obtain ⟨some, all⟩ := fits
    obtain ⟨c, digits, rfl⟩ := List.exists_cons_of_ne_nil some
    have solid := isBlank_of_isDigit (all c List.mem_cons_self)
    have split : (Slot.number before left right after |>.fill (c :: digits)).flatMap Segment.kept =
        (before.flatMap Segment.kept ++ Segment.kept ⟨.code, left⟩) ++
          Option.some [c] ::
              (Segment.kept ⟨.code, digits⟩ ++ (Segment.kept ⟨.code, right⟩ ++ after.flatMap Segment.kept)) := by
      simp [fill, Segment.kept, solid]
    rw [split, joinKept_append, joinKept_code fun d member => all d (List.mem_cons_of_mem _ member)]
    simp [front, back]

theorem Fits.isContent (fits : slot.Fits content) : Content content := by
  cases slot with
  | string before after => exact fits
  | number before left right after =>
    obtain ⟨some, all⟩ := fits
    refine ⟨some, ?_, ?_⟩
    · intro c member
      have digit := all c member
      refine ⟨?_, ?_, ?_⟩ <;> rintro rfl <;> cases digit
    · intro part suffix
      rw [Option.eq_none_iff_forall_ne_some]
      rintro ⟨taken, rest⟩ found
      obtain ⟨rfl, spelled⟩ := anyCase_iff.mp found
      obtain ⟨c, others, rfl, form⟩ := Spelled.head (show Spelled "like" taken from spelled) rfl
      have letters : ∀ c ∈ forms 'l', c.isDigit = false := List.all_iff_forall_prop.mp (by decide)
      cases (letters c form).symm.trans (all c (suffix.subset (by simp)))

theorem Fits.placed (fits : slot.Fits content) : Placed slot.front content slot.back := by
  cases slot with
  | string before after =>
    refine ⟨.inl ?_, .inr rfl⟩
    rw [front, joinKept_append, List.append_assoc]
    exact EndsIn.append ⟨singleQuote, rfl, .inl rfl⟩ _
  | number before left right after => exact ⟨.inr fits.2, .inl fits.2⟩

end Slot

/-- A text with its blanks reduced and its LIKE patterns masked. -/
def masked (text : List Char) : List Char := likeMask (unpercented (spaced text))

theorem masked_quote (text : List Char) : masked (singleQuote :: text) = singleQuote :: masked text := by
  rw [masked, spaced_cons (by decide), unpercented, List.filter_cons_of_pos (by decide), likeMask_quote]
  rfl

namespace Slot
variable {slot : Slot}

/-- The LIKE conditions around the literal, which are folded in this order. -/
def conditions (slot : Slot) : List (List Char) :=
  distinct (findAll likeCondition (masked slot.front) ++ findAll likeCondition (masked slot.back))

theorem condition_of_mem_conditions {condition : List Char} (member : condition ∈ slot.conditions) :
    Condition condition := by
  rcases List.mem_append.mp (mem_distinct.mp member) with before | after
  · exact condition_of_mem before
  · exact condition_of_mem after

/-- The single quotes before the content when LIKE conditions are folded and escapes removed. -/
def quotesBefore (slot : Slot) : Nat :=
  (unescaped (slot.conditions.foldl foldChain (masked slot.front))).count singleQuote

/-- The literal is no operand of a LIKE, and a string is open where its content begins. -/
structure Masked (slot : Slot) : Prop where
  operand : ¬LikeFollows (masked slot.back)
  opened : ∀ before after, slot = .string before after → Odd slot.quotesBefore

/-- A content with its blanks reduced. -/
def Filled (slot : Slot) (block : List Char) : Prop := ∃ content, slot.Fits content ∧ block = spaced content

/-- Up to the folding the content is left where it is, or hidden in a LIKE pattern. -/
theorem foldLikes_fill (free : ¬LikeFollows (masked slot.back)) :
    (∃ folded, ∀ content, slot.Fits content → foldLikes (spaced (slot.front ++ content ++ slot.back)) = folded) ∨
      ∀ content, slot.Fits content → foldLikes (spaced (slot.front ++ content ++ slot.back)) =
          slot.conditions.foldl foldChain (masked slot.front) ++ spaced content ++
            slot.conditions.foldl foldChain (masked slot.back) ∧
        Aside (slot.conditions.foldl foldChain (masked slot.front)) (spaced content)
          (slot.conditions.foldl foldChain (masked slot.back)) := by
  have places (content : List Char) (fits : slot.Fits content) :
      unpercented (spaced (slot.front ++ content ++ slot.back)) =
          unpercented (spaced slot.front) ++ spaced content ++ unpercented (spaced slot.back) ∧
        Placed (unpercented (spaced slot.front)) (spaced content) (unpercented (spaced slot.back)) := by
    obtain ⟨whole, placed⟩ := placed_spaced fits.placed fits.isContent.some
    rw [whole]
    exact placed_unpercented placed (content_spaced fits.isContent)
  have folds (text : List Char) : foldLikes text =
      (distinct (findAll likeCondition (likeMask (unpercented text)))).foldl foldChain (likeMask (unpercented text)) :=
    rfl
  have blanks (block : List Char) (filled : slot.Filled block) :
      Blank block (unpercented (spaced slot.front)) (unpercented (spaced slot.back)) := by
    obtain ⟨content, fits, rfl⟩ := filled
    exact blank_of_placed (places content fits).2 (content_spaced fits.isContent)
  rcases likeMask_block blanks with ⟨hidden, same⟩ | kept
  · refine .inl ⟨(distinct (findAll likeCondition hidden)).foldl foldChain hidden, fun content fits => ?_⟩
    rw [folds, (places content fits).1, same _ ⟨content, fits, rfl⟩]
  · refine .inr fun content fits => ?_
    have aside : Aside (masked slot.front) (spaced content) (masked slot.back) :=
      ⟨placed_likeMask (places content fits).2, free⟩
    have text : likeMask (unpercented (spaced (slot.front ++ content ++ slot.back))) =
        masked slot.front ++ spaced content ++ masked slot.back := by
      rw [(places content fits).1, kept _ ⟨content, fits, rfl⟩]
      rfl
    rw [folds, text, findAll_likeCondition (content_spaced fits.isContent) aside]
    exact foldl_foldChain_block (content_spaced fits.isContent) aside fun condition member =>
      condition_of_mem_conditions member

end Slot

/-- A pass hides the contents of a kind, or leaves them all in one place. -/
def Alike (holds : List Char → Prop) (pass : List Char → List Char) : Prop :=
  (∃ text, ∀ content, holds content → pass content = text) ∨
    ∃ front back, ∀ content, holds content → pass content = front ++ content ++ back

theorem Alike.next {holds : List Char → Prop} {pass later : List Char → List Char} (alike : Alike holds pass)
    (each : ∀ front back, Alike holds fun content => later (front ++ content ++ back)) :
    Alike holds fun content => later (pass content) := by
  rcases alike with ⟨text, same⟩ | ⟨front, back, kept⟩
  · exact .inl ⟨later text, fun content fits => congrArg later (same content fits)⟩
  · rcases each front back with ⟨text, same⟩ | ⟨front', back', kept'⟩
    · exact .inl ⟨text, fun content fits => (congrArg later (kept content fits)).trans (same content fits)⟩
    · exact .inr ⟨front', back', fun content fits => (congrArg later (kept content fits)).trans (kept' content fits)⟩

def Digits (text : List Char) : Prop := text ≠ [] ∧ ∀ c ∈ text, c.isDigit = true

theorem Digits.not_mem {text : List Char} (digits : Digits text) {c : Char} (other : c.isDigit = false) : c ∉ text :=
  fun member => by cases other.symm.trans (digits.2 c member)

theorem alike_quoteMask {quote : Char} (other : quote.isDigit = false) (front back : List Char) :
    Alike Digits fun content => quoteMask quote (front ++ content ++ back) := by
  rcases quoteMask_block quote front back with ⟨text, hidden⟩ | ⟨-, front', back', kept⟩
  · exact .inl ⟨text, fun content digits => hidden content (digits.not_mem other)⟩
  · exact .inr ⟨front', back', fun content digits => kept content (digits.not_mem other)⟩

def reduced (text : List Char) : List Char := replace (some1 isBlank) (fun _ => [' ']) text

theorem alike_reduced (front back : List Char) : Alike Digits fun content => reduced (front ++ content ++ back) := by
  refine .inr ⟨reduced front, reduced back, fun content digits => ?_⟩
  have solid : ∀ c ∈ content, isBlank c = false := fun c member => isBlank_of_isDigit (digits.2 c member)
  have left : Local (some1 isBlank) front (content ++ back) := by
    refine run_local (fun _ _ _ => some1_iff) (.inr fun c head => ?_)
    rw [List.head?_append_of_ne_nil _ digits.1] at head
    exact solid c (List.mem_of_head? head)
  have inside : Silent (some1 isBlank) content back := by
    intro part more suffix
    obtain ⟨c, others, rfl⟩ := List.exists_cons_of_ne_nil more
    simp [some1, Pattern.next, one, solid c (suffix.subset List.mem_cons_self)]
  change reduced (front ++ content ++ back) = _
  rw [List.append_assoc, reduced, replace_append (proper_some1 isBlank) left, replace_silent inside,
    ← List.append_assoc]
  rfl

theorem maskLiterals_eq (text : List Char) : maskLiterals text = replace valueList foldList
    (numberMask (reduced (quoteMask doubleQuote (quoteMask singleQuote (unescaped text))))) := rfl

/-- Numbers are masked alike wherever they are. -/
theorem maskLiterals_number {front back : List Char} (placed : ∀ digits, Digits digits → Placed front digits back)
    (contents : ∀ digits, Digits digits → Content digits) :
    ∃ text, ∀ digits, Digits digits → maskLiterals (front ++ digits ++ back) = text := by
  have passes : Alike Digits fun digits =>
      reduced (quoteMask doubleQuote (quoteMask singleQuote (unescaped (front ++ digits ++ back)))) := by
    have start : Alike Digits fun digits => unescaped (front ++ digits ++ back) :=
      .inr ⟨unescaped front, unescaped back, fun digits fits =>
        unescaped_block (placed digits fits) (contents digits fits)⟩
    exact ((start.next (alike_quoteMask (by decide))).next (alike_quoteMask (by decide))).next alike_reduced
  rcases passes with ⟨text, same⟩ | ⟨front', back', kept⟩
  · exact ⟨_, fun digits fits => congrArg (fun text => replace valueList foldList (numberMask text)) (same digits fits)⟩
  · obtain ⟨text, same⟩ := numberMask_block front' back'
    refine ⟨replace valueList foldList text, fun digits fits => ?_⟩
    rw [← same digits fits.1 fits.2]
    exact congrArg (fun text => replace valueList foldList (numberMask text)) (kept digits fits)

/-- Strings are masked alike where a quote is open before them. -/
theorem maskLiterals_string {front back : List Char} (odd : Odd ((unescaped front).count singleQuote)) :
    ∃ text, ∀ content, Content content → Placed front content (singleQuote :: back) →
      maskLiterals (front ++ content ++ singleQuote :: back) = text := by
  have closing : unescaped (singleQuote :: back) = singleQuote :: unescaped back := by
    refine replace_none (takes_escape.fails fun taken rest escaped whole => ?_)
    obtain ⟨-⟩ := escaped
    cases whole
  rcases quoteMask_block singleQuote (unescaped front) (singleQuote :: unescaped back) with ⟨text, hidden⟩ | ⟨shut, -⟩
  · refine ⟨replace valueList foldList (numberMask (reduced (quoteMask doubleQuote text))),
      fun content fits placed => ?_⟩
    rw [maskLiterals_eq, unescaped_block placed fits, closing, hidden content fun member => (fits.plain _ member).1 rfl]
  · exact absurd List.mem_cons_self (shut odd)

theorem trim_isEmpty_false {text : List Char} {c : Char} (member : c ∈ text) (solid : isBlank c = false) :
    (trim text).isEmpty = false := by
  rw [List.isEmpty_eq_false_iff]
  intro empty
  have blanks : ∀ d ∈ (trimStart text).reverse, isBlank d = true := by
    obtain ⟨whole, all, -⟩ := many_iff.mp (show many isBlank (trimStart text).reverse = some (_, _) from rfl)
    rw [List.reverse_eq_nil_iff.mp empty, List.append_nil] at whole
    rwa [whole]
  obtain ⟨whole, all, -⟩ :=
    many_iff.mp (show many isBlank text = some (text.takeWhile isBlank, trimStart text) from rfl)
  rw [whole] at member
  rcases List.mem_append.mp member with blank | kept
  · cases solid.symm.trans (all c blank)
  · cases solid.symm.trans (blanks c (List.mem_reverse.mpr kept))

theorem Slot.trim_fill {slot : Slot} {text content : List Char} (read : Segment.ofText text = slot.fill content)
    (fits : slot.Fits content) : (trim text).isEmpty = false := by
  have whole := Segment.flatMap_text_ofText text
  rw [read] at whole
  cases slot with
  | string before after =>
    refine trim_isEmpty_false (c := singleQuote) ?_ (by decide)
    rw [← whole]
    simp [fill, enclose]
  | number before left right after =>
    obtain ⟨some, all⟩ := fits
    obtain ⟨c, digits, rfl⟩ := List.exists_cons_of_ne_nil some
    refine trim_isEmpty_false (c := c) ?_ (isBlank_of_isDigit (all c List.mem_cons_self))
    rw [← whole]
    simp [fill]

/-- The fingerprint is the same whatever a literal holds. -/
theorem ofText_fill {slot : Slot} {text other content replaced : List Char}
    (read : Segment.ofText text = slot.fill content)
    (reread : Segment.ofText other = slot.fill replaced) (fits : slot.Fits content) (refits : slot.Fits replaced)
    (masked : slot.Masked) : Fingerprint.ofText text = Fingerprint.ofText other := by
  have passes (text content : List Char) (read : Segment.ofText text = slot.fill content) (fits : slot.Fits content) :
      Fingerprint.ofText text = trim (maskLiterals (foldLikes (spaced (slot.front ++ content ++ slot.back)))) := by
    rw [Fingerprint.ofText, if_neg (by simp [Slot.trim_fill read fits]), Slot.stripComments_eq read fits]
    rfl
  rw [passes text content read fits, passes other replaced reread refits]
  rcases Slot.foldLikes_fill masked.operand with ⟨folded, same⟩ | kept
  · rw [same content fits, same replaced refits]
  · rw [(kept content fits).1, (kept replaced refits).1]
    refine congrArg trim ?_
    cases slot with
    | string before after =>
      have closes := foldl_foldChain_quote
        (fun condition (member : condition ∈ (Slot.string before after).conditions) =>
          Slot.condition_of_mem_conditions member)
        (LiteralMasking.masked (joinKept true false (after.flatMap Segment.kept)))
      rw [← masked_quote] at closes
      change (Slot.string before after).conditions.foldl foldChain
          (LiteralMasking.masked (Slot.string before after).back) = _ at closes
      rw [closes] at kept ⊢
      obtain ⟨text, same⟩ := maskLiterals_string (masked.opened before after rfl)
      rw [same _ (content_spaced fits.isContent) (kept content fits).2.toPlaced,
        same _ (content_spaced refits.isContent) (kept replaced refits).2.toPlaced]
    | number before left right after =>
      have whole (digits : List Char) (fits : Digits digits) : spaced digits = digits :=
        spaced_of_solid fun c member => isBlank_of_isDigit (fits.2 c member)
      obtain ⟨text, same⟩ := maskLiterals_number
        (fun digits fits => whole digits fits ▸ (kept digits fits).2.toPlaced)
        (fun digits fits => Slot.Fits.isContent (show (Slot.number before left right after).Fits digits from fits))
      rw [whole content fits, whole replaced refits, same content fits, same replaced refits]

/-- The literal of a condition may be any other word, though a LIKE comes before it. -/
theorem ofText_fill_condition : ∃ slot : Slot, slot.Masked ∧
    Segment.ofText "WHERE a LIKE 'it%' AND b = 'x y'".toList = slot.fill "x y".toList ∧
      Fingerprint.ofText "WHERE a LIKE 'it%' AND b = 'x y'".toList =
          Fingerprint.ofText "WHERE a LIKE 'it%' AND b = 'z'".toList := by
  have read : Segment.ofText "WHERE a LIKE 'it%' AND b = 'x y'".toList =
      (Slot.string
        [⟨.code, "WHERE a LIKE ".toList⟩, ⟨.stringLiteral, "'it%'".toList⟩, ⟨.code, " AND b = ".toList⟩] []).fill
        "x y".toList := by decide +kernel
  have reread : Segment.ofText "WHERE a LIKE 'it%' AND b = 'z'".toList =
      (Slot.string
        [⟨.code, "WHERE a LIKE ".toList⟩, ⟨.stringLiteral, "'it%'".toList⟩, ⟨.code, " AND b = ".toList⟩] []).fill
        "z".toList := by decide +kernel
  have content (text : List Char) (some : text ≠ [])
      (plain : ∀ c ∈ text, c ≠ singleQuote ∧ c ≠ '\\' ∧ c ≠ '%' ∧ sameLetter 'l' c = false) :
      Content text := by
    refine ⟨some, fun c member => ⟨(plain c member).1, (plain c member).2.1, (plain c member).2.2.1⟩,
      fun part suffix => ?_⟩
    cases part with
    | nil => rfl
    | cons c part => simp [anyCase, (plain c (suffix.subset List.mem_cons_self)).2.2.2]
  have masked :
      (Slot.string [⟨.code, "WHERE a LIKE ".toList⟩, ⟨.stringLiteral, "'it%'".toList⟩, ⟨.code, " AND b = ".toList⟩]
      []).Masked := by
    refine ⟨by unfold LikeFollows; decide, ?_⟩
    rintro before after same
    cases same
    decide
  exact ⟨_, masked, read, ofText_fill read reread (content _ (by decide) (List.all_iff_forall_prop.mp (by decide)))
    (content _ (by decide) (List.all_iff_forall_prop.mp (by decide))) masked⟩

/-- A quote of the other kind around an apostrophe shifts the pairs, and the content shows. -/
example :
    Fingerprint.ofText "SELECT \"it's\", 'abc' FROM t".toList = "SELECT \"itXabc' FROM t".toList := by decide +kernel

end QueryFacts.Proofs.LiteralMasking
