import QueryFacts.Proofs.PlainCode

/-! Which lists the fingerprint folds. A list of several numbers is folded, whatever follows it. A list of
one number is left as it is where no comma follows it; but the pattern for lists does not stop at the
parenthesis that closes the list, so a comma in a later condition is taken for one of the list, and all
up to the next closing parenthesis goes with it. -/

namespace QueryFacts.Fingerprint
open Text Text.Pattern Proofs.LiteralMasking

/-- More conditions, none of them a LIKE condition. -/
structure IsTail (text : List Char) : Prop extends IsPlain text where
  joins : "AND".toList <+: text
  ends : ∀ c ∈ text.getLast?, isBlank c = false
  likeless : ∀ part, part <:+ unpercented text → anyCase " like x".toList part = none

/-- A number in some spelling, such as 7, -1, .5, 1.5e-3 and 0x1F. -/
structure IsNumber (text : List Char) : Prop where
  begins : ∃ c ∈ text.head?, c.isDigit = true ∨ c ∈ ['+', '-', '.']
  spelled : ∀ c ∈ text, c.isAlphanum = true ∨ c ∈ ['+', '-', '.']
  uncommented : text.IsChain fun c d => ¬(c = '-' ∧ d = '-')

/-- The first comma of a text is followed by a closing parenthesis, though not at once, and that by
the rest. -/
def Overruns (text rest : List Char) : Prop :=
  ∃ items more, text = items ++ ',' :: (more ++ ')' :: rest) ∧ ',' ∉ items ∧ ')' ∉ more ∧ more ≠ []

end QueryFacts.Fingerprint

namespace QueryFacts.Proofs.ListFolding
open Text Text.Pattern Fingerprint Replacement LikeFolding LiteralMasking PlainCode

section Signs

variable {pattern : Pattern}

/-- A comma or a closing parenthesis. -/
def IsSign (c : Char) : Prop := c = ',' ∨ c = ')'

/-- A pass that works between the signs and removes nothing. -/
structure Keeps (pass : List Char → List Char) : Prop where
  nil : pass [] = []
  some : ∀ {text}, text ≠ [] → pass text ≠ []
  mem : ∀ {text sign}, IsSign sign → sign ∈ pass text → sign ∈ text
  split : ∀ {sign}, IsSign sign → ∀ before after, pass (before ++ sign :: after) = pass before ++ sign :: pass after

theorem keeps_replace (proper : Proper pattern) {mark : Char} (other : ¬IsSign mark)
    (split : ∀ {sign}, IsSign sign → ∀ before after, replace pattern (fun _ => [mark]) (before ++ sign :: after) =
      replace pattern (fun _ => [mark]) before ++ sign :: replace pattern (fun _ => [mark]) after) :
    Keeps (replace pattern fun _ => [mark]) where
  nil := rfl
  some {text} more := by
    obtain ⟨c, rest, rfl⟩ := List.exists_cons_of_ne_nil more
    cases found : pattern (c :: rest) with
    | none => simp [replace_none found]
    | some split => simp [replace_some proper found]
  mem {text sign} isSign member := by
    rcases mem_replace proper member with old | ⟨taken, new⟩
    · exact old
    · exact absurd (List.mem_singleton.mp new ▸ isSign) other
  split := split

theorem keeps_reduced : Keeps reduced := by
  refine keeps_replace (proper_some1 isBlank) (by unfold IsSign; decide) fun {sign} isSign before after => ?_
  have solid : isBlank sign = false := by rcases isSign with rfl | rfl <;> decide
  exact (reduced_append (by simpa using solid)).trans (congrArg (reduced before ++ ·) (reduced_cons solid))

theorem keeps_numberMask : Keeps numberMask := by
  refine keeps_replace proper_number (by unfold IsSign; decide) fun {sign} isSign before after => ?_
  have other : sign.isDigit = false ∧ sign ≠ '-' := by rcases isSign with rfl | rfl <;> decide
  exact numberMask_between other.1 other.2

theorem Keeps.comp {first second : List Char → List Char} (inner : Keeps first) (outer : Keeps second) :
    Keeps (second ∘ first) where
  nil := (congrArg second inner.nil).trans outer.nil
  some more := outer.some (inner.some more)
  mem sign member := inner.mem sign (outer.mem sign member)
  split sign before after := (congrArg second (inner.split sign before after)).trans (outer.split sign _ _)

theorem keeps_passes : Keeps fun text => numberMask (reduced text) := Keeps.comp keeps_reduced keeps_numberMask

end Signs

section Lists

variable {first second : Pattern} {text : List Char}

theorem split_unique {sign : Char} {front rest other more : List Char} (first : sign ∉ front) (second : sign ∉ other)
    (same : front ++ sign :: rest = other ++ sign :: more) : front = other ∧ rest = more := by
  have dropped (front rest : List Char) (absent : sign ∉ front) :
      (front ++ sign :: rest).dropWhile (· ≠ sign) = sign :: rest := by
    rw [List.dropWhile_append_of_pos (by simpa using fun c member => ne_of_mem_of_not_mem member absent)]
    simp
  have behind := congrArg (List.dropWhile (· ≠ sign)) same
  rw [dropped front rest first, dropped other more second] at behind
  obtain rfl := (List.cons.inj behind).2
  exact ⟨List.append_cancel_right same, rfl⟩

theorem Keeps.overruns {pass : List Char → List Char} (keeps : Keeps pass) {rest : List Char}
    (overruns : Overruns text rest) :
    Overruns (pass text) (pass rest) := by
  obtain ⟨items, more, rfl, single, opened, some⟩ := overruns
  refine ⟨pass items, pass more, ?_, mt (keeps.mem (.inl rfl)) single,
    mt (keeps.mem (.inr rfl)) opened, keeps.some some⟩
  rw [keeps.split (.inl rfl), keeps.split (.inr rfl)]

theorem Keeps.overruns_of {pass : List Char → List Char} (keeps : Keeps pass) {later : List Char}
    (overruns : Overruns (pass text) later) : ∃ rest, Overruns text rest := by
  obtain ⟨items, more, whole, single, opened, some⟩ := overruns
  have comma : ',' ∈ text := keeps.mem (.inl rfl) (by simp [whole])
  obtain ⟨front, behind, rfl, first⟩ := List.eq_append_cons_of_mem comma
  rw [keeps.split (.inl rfl)] at whole
  obtain ⟨-, closes⟩ := split_unique (mt (keeps.mem (.inl rfl)) first) single whole
  have closed : ')' ∈ behind := keeps.mem (.inr rfl) (by simp [closes])
  obtain ⟨inside, rest, rfl, second⟩ := List.eq_append_cons_of_mem closed
  rw [keeps.split (.inr rfl)] at closes
  obtain ⟨same, -⟩ := split_unique (mt (keeps.mem (.inr rfl)) second) opened closes
  refine ⟨rest, front, inside, rfl, first, second, ?_⟩
  rintro rfl
  exact some (same.symm.trans keeps.nil)

/-- It is all one what stands before the first comma. -/
theorem overruns_append {front rest : List Char} (plain : ',' ∉ front) :
    Overruns (front ++ text) rest ↔ Overruns text rest := by
  constructor
  · rintro ⟨items, more, whole, single, opened, some⟩
    have comma : ',' ∈ front ++ text := by simp [whole]
    obtain ⟨before, behind, rfl, first⟩ := List.eq_append_cons_of_mem ((List.mem_append.mp comma).resolve_left plain)
    rw [← List.append_assoc] at whole
    obtain ⟨-, rfl⟩ := split_unique (by simp [plain, first]) single whole
    exact ⟨before, more, rfl, first, opened, some⟩
  · rintro ⟨items, more, rfl, single, opened, some⟩
    exact ⟨front ++ items, more, by simp, by simp [plain, single], opened, some⟩

theorem overruns_extend {rest : List Char} (overruns : Overruns text rest) (more : List Char) :
    Overruns (text ++ more) (rest ++ more) := by
  obtain ⟨items, inside, rfl, others⟩ := overruns
  exact ⟨items, inside, by simp, others⟩

/-- What of a list comes after its opening parenthesis. -/
def listItems : Pattern := (some1 (· ≠ ',')).next ((word [',']).next ((some1 (· ≠ ')')).next (word [')'])))

theorem overruns_of_listItems {taken rest : List Char} (found : listItems text = some (taken, rest)) :
    Overruns text rest := by
  obtain ⟨items, behind, more, first, later, rfl⟩ := next_iff.mp found
  obtain ⟨comma, middle, others, second, last, rfl⟩ := next_iff.mp later
  obtain ⟨inside, closing, close, third, closes, rfl⟩ := next_iff.mp last
  obtain ⟨rfl, -, single, -⟩ := some1_iff.mp first
  obtain ⟨rfl, rfl⟩ := word_iff.mp second
  obtain ⟨rfl, some, opened, -⟩ := some1_iff.mp third
  obtain ⟨rfl, rfl⟩ := word_iff.mp closes
  exact ⟨items, inside, rfl, fun member => by simpa using single _ member,
    fun member => by simpa using opened _ member, some⟩

theorem listItems_some {rest : List Char} (begins : text.head? ≠ some ',') (overruns : Overruns text rest) :
    ∃ taken, listItems text = some (taken, rest) := by
  obtain ⟨items, more, rfl, single, opened, unclosed⟩ := overruns
  have begun : items ≠ [] := by
    rintro rfl
    exact begins rfl
  have first : some1 (· ≠ ',') (items ++ ',' :: (more ++ ')' :: rest)) = some (items, ',' :: (more ++ ')' :: rest)) :=
    some1_iff.mpr ⟨rfl, begun, by simpa using fun c member => ne_of_mem_of_not_mem member single, by simp⟩
  have second : some1 (· ≠ ')') (more ++ ')' :: rest) = some (more, ')' :: rest) :=
    some1_iff.mpr ⟨rfl, unclosed, by simpa using fun c member => ne_of_mem_of_not_mem member opened, by simp⟩
  have comma : word [','] (',' :: (more ++ ')' :: rest)) = some ([','], more ++ ')' :: rest) := word_iff.mpr ⟨rfl, rfl⟩
  have close : word [')'] (')' :: rest) = some ([')'], rest) := word_iff.mpr ⟨rfl, rfl⟩
  rw [listItems, next_some first, next_some comma, next_some second, close]
  exact ⟨_, rfl⟩

theorem valueList_in (text : List Char) :
    valueList (" IN (".toList ++ text) = (listItems text).map (Prod.map (" IN (".toList ++ ·) id) := by
  have keyword : listKeyword (" IN (".toList ++ text) = some (" IN".toList, " (".toList ++ text) := rfl
  have gap : many isBlank (" (".toList ++ text) = some ([' '], '(' :: text) := rfl
  have opens : word ['('] ('(' :: text) = some (['('], text) := rfl
  rw [valueList, next_some keyword, next_some gap, next_some opens, Option.map_map, Option.map_map]
  rfl

/-- A list begins with a blank and the first letter of IN or VALUES. -/
def Unlisted (c d : Char) : Prop := c ≠ ' ' ∨ sameLetter 'i' d = false ∧ sameLetter 'v' d = false

instance : DecidableRel Unlisted := fun c _ => inferInstanceAs (Decidable (c ≠ ' ' ∨ _))

theorem valueList_solid {c : Char} {rest : List Char} (solid : c ≠ ' ') : valueList (c :: rest) = none :=
  next_none (next_none (by simp [word, List.isPrefixOf, solid.symm]))

theorem valueList_none {c d : Char} {rest : List Char} (unlisted : Unlisted c d) :
    valueList (c :: d :: rest) = none := by
  rcases eq_or_ne c ' ' with rfl | solid
  · obtain ⟨noIn, noValues⟩ := unlisted.resolve_left (not_not.mpr rfl)
    have neither : (Pattern.either (anyCase "in".toList) (anyCase "values".toList)) (d :: rest) = none := by
      simp [Pattern.either, anyCase, noIn, noValues]
    refine next_none ?_
    rw [listKeyword, next_some (show word [' '] (' ' :: d :: rest) = some ([' '], d :: rest) from rfl)]
    exact Option.map_eq_none_iff.mpr neither
  · exact valueList_solid solid

theorem splits_many (accepts : Char → Bool) : Splits (many accepts) :=
  fun _ _ _ found => (many_iff.mp found).1.symm

theorem splits_anyCase (letters : List Char) : Splits (anyCase letters) :=
  fun _ _ _ found => (anyCase_iff.mp found).1.symm

theorem splits_either (one : Splits first) (other : Splits second) : Splits (first.either second) := by
  intro text taken rest found
  rcases either_iff.mp found with matched | ⟨-, matched⟩
  · exact one _ _ _ matched
  · exact other _ _ _ matched

theorem proper_valueList : Proper valueList := by
  have keyword : Proper listKeyword :=
    next_proper (proper_word (by simp)) (splits_either (splits_anyCase _) (splits_anyCase _))
  have items (c : Char) : Splits (some1 (· ≠ c)) := fun _ _ _ => (proper_some1 _).splits
  exact next_proper keyword ((splits_many isBlank).next ((splits_word _).next ((items ',').next ((splits_word _).next
    ((items ')').next (splits_word _))))))

/-- What is in front of the list. -/
def listHead : List Char := "SELECT a FROM t WHERE c".toList

theorem replace_listHead (text : List Char) :
    replace valueList foldList (listHead ++ " IN (".toList ++ text) =
        listHead ++ replace valueList foldList (" IN (".toList ++ text) := by
  have silent : Silent valueList listHead (" IN (".toList ++ text) :=
    silent_of_chain (fun c d rest (unlisted : Unlisted c d) => valueList_none unlisted) (by decide)
  rw [List.append_assoc, replace_silent silent]

/-- The list and what it overruns are folded into one. -/
theorem replace_overruns {rest : List Char} (begins : text.head? ≠ some ',') (overruns : Overruns text rest) :
    replace valueList foldList (listHead ++ " IN (".toList ++ text) =
        listHead ++ " IN (XYZ)".toList ++ replace valueList foldList rest := by
  obtain ⟨taken, found⟩ := listItems_some begins overruns
  have matched := valueList_in text
  rw [found] at matched
  rw [replace_listHead, replace_some proper_valueList matched, List.append_assoc]
  rfl

/-- A list that overruns nothing is left as it is. -/
theorem replace_single (alone : ¬∃ rest, Overruns ('A' :: text) rest) :
    replace valueList foldList (listHead ++ " IN (N) ".toList ++ 'A' :: text) =
      listHead ++ " IN (N) ".toList ++ replace valueList foldList ('A' :: text) := by
  have unmatched : listItems ("N) ".toList ++ 'A' :: text) = none := by
    rw [Option.eq_none_iff_forall_ne_some]
    rintro ⟨taken, rest⟩ found
    exact alone ⟨rest, (overruns_append (by decide)).mp (overruns_of_listItems found)⟩
  have fails : valueList (' ' :: ("IN (N) ".toList ++ 'A' :: text)) = none := by
    have matched := valueList_in ("N) ".toList ++ 'A' :: text)
    rwa [unmatched] at matched
  have silent : Silent valueList "IN (N) ".toList ('A' :: text) :=
    silent_of_chain (fun c d rest (unlisted : Unlisted c d) => valueList_none unlisted) (by decide)
  have passed : replace valueList foldList (' ' :: ("IN (N) ".toList ++ 'A' :: text)) =
      ' ' :: ("IN (N) ".toList ++ replace valueList foldList ('A' :: text)) := by
    rw [replace_none fails, replace_silent silent]
  rw [List.append_assoc listHead, List.append_assoc listHead]
  exact (replace_listHead ("N) ".toList ++ 'A' :: text)).trans (congrArg (listHead ++ ·) passed)

end Lists

section Trimming

theorem trimEnd_append {front back : List Char} (kept : trimEnd back ≠ [] ∨ trimEnd front = front) :
    trimEnd (front ++ back) = front ++ trimEnd back := by
  have some : (back.reverse.dropWhile isBlank).isEmpty = true → trimEnd front = front := by
    intro blank
    refine kept.resolve_left (not_not.mpr ?_)
    rw [trimEnd, List.isEmpty_iff.mp blank, List.reverse_nil]
  rw [trimEnd, List.reverse_append, List.dropWhile_append]
  split
  next blank =>
    have rest : trimEnd back = [] := by rw [trimEnd, List.isEmpty_iff.mp blank, List.reverse_nil]
    rw [rest, List.append_nil]
    exact some blank
  next => rw [List.reverse_append, List.reverse_reverse]; rfl

theorem trim_solid {c : Char} {rest : List Char} (solid : isBlank c = false) :
    trim (c :: rest) = trimEnd (c :: rest) := by
  rw [trim, trimStart, List.dropWhile_cons_of_neg (by simp [solid])]

theorem trimEnd_ne_nil {c : Char} {rest : List Char} (solid : isBlank c = false) : trimEnd (c :: rest) ≠ [] := by
  rw [← trim_solid solid, ← List.isEmpty_eq_false_iff]
  exact trim_isEmpty_false List.mem_cons_self solid

end Trimming

section Parts

variable {text : List Char}

/-- A text of code up to its lists. -/
def numbered (text : List Char) : List Char := numberMask (reduced (unpercented text))

theorem numbered_letter (text : List Char) : numbered ('A' :: text) = 'A' :: numbered text := by
  have letter : reduced ('A' :: unpercented text) = 'A' :: reduced (unpercented text) := reduced_cons (by decide)
  change numberMask (reduced ('A' :: unpercented text)) = _
  rw [letter, numberMask_cons (by decide) (by decide)]
  rfl

theorem tail_letter {tail : List Char} (fits : IsTail tail) : ∃ rest, tail = 'A' :: rest := by
  obtain ⟨rest, rfl⟩ := fits.joins
  exact ⟨_, rfl⟩

theorem ofText_tail {tail : List Char} (fits : IsTail tail) :
    ofText tail = trim (replace valueList foldList (numbered tail)) := by
  obtain ⟨rest, rfl⟩ := tail_letter fits
  exact ofText_plain fits.toIsPlain (by decide) fits.ends fits.likeless

theorem like_none {c d : Char} {rest : List Char} (apart : c ≠ ' ' ∨ sameLetter 'l' d = false) :
    anyCase " like x".toList (c :: d :: rest) = none := by
  rcases apart with solid | other
  · have differs : sameLetter ' ' c = false := by
      rw [Bool.eq_false_iff]
      exact fun same => solid (by simpa [forms] using mem_forms same)
    simp [anyCase, differs]
  · simp [anyCase, other]

/-- Characters of a text of code with nothing of a LIKE condition. -/
def Beside (c d : Char) : Prop := MayTouch c d ∧ (c ≠ ' ' ∨ sameLetter 'l' d = false)

instance : DecidableRel Beside := fun c d => inferInstanceAs (Decidable (MayTouch c d ∧ _))

/-- A character that no pass but that for numbers looks for. -/
def Ordinary (c : Char) : Prop :=
  c ∉ [singleQuote, doubleQuote, backtick, '\\', '#', '%'] ∧ (isBlank c = true → c = ' ')

instance : DecidablePred Ordinary := fun c => inferInstanceAs (Decidable (c ∉ _ ∧ _))

/-- What stands before more conditions, where the passes find nothing but numbers to change. -/
structure IsFront (text : List Char) : Prop where
  plain : ∀ c ∈ text, Ordinary c
  begins : ∃ c ∈ text.head?, isBlank c = false
  apart : (text ++ ['A']).IsChain Beside

theorem each_of_all {holds : Char → Prop} [DecidablePred holds] (all : text.all (holds ·) = true) :
    ∀ c ∈ text, holds c :=
  fun c member => of_decide_eq_true (List.all_eq_true.mp all c member)

theorem plain_front (starts : IsFront text) : IsPlain text where
  unquoted c member special := (starts.plain c member).1 (List.mem_append_left ['%'] special)
  spaces c member := (starts.plain c member).2
  apart := starts.apart.left_of_append.imp fun _ _ beside => beside.1

theorem ofText_front {front tail : List Char} (starts : IsFront front) (fits : IsTail tail) :
    ofText (front ++ tail) = trim (replace valueList foldList (numberMask front ++ numbered tail)) := by
  obtain ⟨rest, rfl⟩ := tail_letter fits
  have kept : unpercented (front ++ 'A' :: rest) = front ++ unpercented ('A' :: rest) := by
    have same : front.filter (· ≠ '%') = front :=
      List.filter_eq_self.mpr fun c member => by
        have other := (starts.plain c member).1
        simp only [List.mem_cons, not_or] at other
        simpa using other.2.2.2.2.2.1
    rw [unpercented, List.filter_append, same]
    rfl
  have silent : Silent (anyCase " like x".toList) (front ++ unpercented ('A' :: rest)) [] := by
    refine silent_append ?_ fun part _ suffix => ?_
    · rw [List.append_nil]
      exact silent_of_chain (fun c d rest (beside : Beside c d) => like_none beside.2) starts.apart
    · rw [List.append_nil]
      exact fits.likeless part suffix
  have passes : numbered (front ++ 'A' :: rest) = numberMask front ++ numbered ('A' :: rest) := by
    have solid : ∀ c ∈ (unpercented ('A' :: rest)).head?, isBlank c = false := by
      rintro c ⟨⟩
      decide
    have letter : reduced (unpercented ('A' :: rest)) = 'A' :: reduced (unpercented rest) := reduced_cons (by decide)
    have stops : ∀ c ∈ (reduced (unpercented ('A' :: rest))).head?, c.isDigit = false := by
      rw [letter]
      rintro c ⟨⟩
      decide
    rw [numbered, numbered, kept, reduced_append solid, reduced_plain (plain_front starts), numberMask_append stops]
  obtain ⟨c, first, solid⟩ := starts.begins
  obtain ⟨more, rfl⟩ := List.head?_eq_some_iff.mp first
  have border : ∀ d ∈ (c :: more).getLast?, ∀ e ∈ ('A' :: rest).head?, MayTouch d e := by
    rintro d - e ⟨⟩
    simp [MayTouch]
  have ends : ∀ d ∈ (c :: more ++ 'A' :: rest).getLast?, isBlank d = false := by
    rw [List.getLast?_append_of_ne_nil _ (by simp)]
    exact fits.ends
  rw [← passes]
  refine ofText_plain (plain_append (plain_front starts) fits.toIsPlain border) solid ends fun part suffix => ?_
  cases part with
  | nil => rfl
  | cons e part =>
    have fails := silent (e :: part) (by simp) (kept ▸ suffix)
    rwa [List.append_nil] at fails

end Parts

section Numbers

/-- A character that begins or goes on a number is none of those that the passes look for. -/
theorem apart_of_spelled {c : Char} (spelled : c.isAlphanum = true ∨ c ∈ ['+', '-', '.']) :
    c ∉ [singleQuote, doubleQuote, backtick, '\\', '#', '%', ',', ')', '/'] ++ Layout.blanks := by
  have others : ([singleQuote, doubleQuote, backtick, '\\', '#', '%', ',', ')', '/'] ++ Layout.blanks).any
      (fun c => c.isAlphanum || decide (c ∈ ['+', '-', '.'])) = false := by decide
  intro member
  exact absurd (by simpa using spelled) (List.any_eq_false.mp others c member)

theorem forall_intercalate {holds : Char → Prop} {mark : List Char} {parts : List (List Char)}
    (marks : ∀ c ∈ mark, holds c)
    (each : ∀ part ∈ parts, ∀ c ∈ part, holds c) : ∀ c ∈ mark.intercalate parts, holds c := by
  induction parts with
  | nil => simp
  | cons part parts ih =>
    obtain ⟨first, others⟩ := List.forall_mem_cons.mp each
    cases parts with
    | nil => simpa using first
    | cons next parts =>
      simp only [List.intercalate_cons_cons, List.mem_append]
      rintro c ((inPart | inMark) | later)
      · exact first c inPart
      · exact marks c inMark
      · exact ih others c later

/-- The characters around a number and in it are apart, in front of a comma or a parenthesis. -/
theorem chain_number {number rest : List Char} (spelled : IsNumber number) (later : rest.IsChain Beside)
    (stops : ∃ sign ∈ rest.head?, IsSign sign) : (' ' :: (number ++ rest)).IsChain Beside := by
  have solid (c : Char) (member : c ∈ number) : c ≠ ' ' ∧ c ≠ '/' := by
    have other := apart_of_spelled (spelled.spelled c member)
    exact ⟨ne_of_mem_of_not_mem (by decide) other |>.symm, ne_of_mem_of_not_mem (by decide) other |>.symm⟩
  have within : number.IsChain Beside := by
    refine spelled.uncommented.imp_of_mem_imp fun c d first _ dashes => ?_
    obtain ⟨noBlank, noSlash⟩ := solid c first
    exact ⟨⟨fun both => noBlank both.1, dashes, fun both => noSlash both.1⟩, .inl noBlank⟩
  have border : ∀ c ∈ number.getLast?, ∀ d ∈ rest.head?, Beside c d := by
    intro c last d head
    obtain ⟨noBlank, -⟩ := solid c (List.mem_of_getLast? last)
    obtain ⟨sign, first, isSign⟩ := stops
    obtain rfl : d = sign := Option.some.inj (head.symm.trans first)
    refine ⟨?_, .inl noBlank⟩
    rcases isSign with rfl | rfl <;> simp [MayTouch]
  obtain ⟨c, first, begins⟩ := spelled.begins
  obtain ⟨more, rfl⟩ := List.head?_eq_some_iff.mp first
  refine List.isChain_cons_cons.mpr ⟨⟨?_, .inr ?_⟩, within.append later border⟩
  · simp [MayTouch, (solid c List.mem_cons_self).1]
  · have noLetter : ∀ d ∈ forms 'l', d.isDigit = false ∧ d ∉ ['+', '-', '.'] := List.all_iff_forall_prop.mp (by decide)
    rw [Bool.eq_false_iff]
    intro same
    obtain ⟨noDigit, noMark⟩ := noLetter c (mem_forms same)
    rcases begins with digit | mark
    · cases noDigit.symm.trans digit
    · exact noMark mark

theorem chain_numbers {numbers : List (List Char)} (some : numbers ≠ [])
    (spelled : ∀ number ∈ numbers, IsNumber number) :
    (' ' :: (", ".toList.intercalate numbers ++ ") A".toList)).IsChain Beside := by
  induction numbers with
  | nil => exact absurd rfl some
  | cons number numbers ih =>
    obtain ⟨first, others⟩ := List.forall_mem_cons.mp spelled
    cases numbers with
    | nil =>
      rw [List.intercalate_singleton]
      exact chain_number first (by decide) ⟨')', rfl, .inr rfl⟩
    | cons next numbers =>
      rw [List.intercalate_cons_cons, List.append_assoc, List.append_assoc]
      have comma : Beside ',' ' ' := by decide
      exact chain_number first (List.isChain_cons_cons.mpr ⟨comma, ih (by simp) others⟩) ⟨',', rfl, .inl rfl⟩

/-- The text up to its other conditions when its list is one of numbers. -/
theorem front_numbers {numbers : List (List Char)} (some : numbers ≠ [])
    (spelled : ∀ number ∈ numbers, IsNumber number) :
    IsFront (listHead ++ " IN (".toList ++ (", ".toList.intercalate numbers ++ ") ".toList)) where
  plain := by
    have marks : ∀ c ∈ ", ".toList, Ordinary c := each_of_all (by decide)
    have each : ∀ number ∈ numbers, ∀ c ∈ number, Ordinary c := by
      intro number among c member
      have other := apart_of_spelled ((spelled number among).spelled c member)
      rw [List.mem_append, not_or] at other
      have special : [singleQuote, doubleQuote, backtick, '\\', '#', '%'] ⊆
          [singleQuote, doubleQuote, backtick, '\\', '#', '%', ',', ')', '/'] := by decide
      exact ⟨fun found => other.1 (special found), fun blank => absurd (Layout.mem_blanks blank) other.2⟩
    simp only [List.forall_mem_append]
    exact ⟨⟨each_of_all (by decide), each_of_all (by decide)⟩, forall_intercalate marks each, each_of_all (by decide)⟩
  begins := ⟨'S', rfl, by decide⟩
  apart := by
    have whole := chain_numbers some spelled
    rw [List.isChain_cons] at whole
    have opens : (listHead ++ " IN (".toList).IsChain Beside := by decide
    have last : (listHead ++ " IN (".toList).getLast? = Option.some '(' := by decide
    have joined :
        ((listHead ++ " IN (".toList) ++ (", ".toList.intercalate numbers ++ ") A".toList)).IsChain Beside := by
      refine opens.append whole.2 fun c there d _ => ?_
      obtain rfl : '(' = c := Option.some.inj (last.symm.trans there)
      simp [Beside, MayTouch]
    have closes : ") A".toList = ") ".toList ++ ['A'] := rfl
    rw [closes] at joined
    simpa only [List.append_assoc] using joined

/-- A list of several numbers ends at its own parenthesis. -/
theorem overruns_numbers {numbers : List (List Char)} (several : 2 ≤ numbers.length)
    (spelled : ∀ number ∈ numbers, IsNumber number)
    (rest : List Char) : Overruns (", ".toList.intercalate numbers ++ ')' :: rest) rest := by
  have plain (number : List Char) (among : number ∈ numbers) (c : Char) (member : c ∈ number) : c ≠ ',' ∧ c ≠ ')' := by
    have other := apart_of_spelled ((spelled number among).spelled c member)
    exact ⟨(ne_of_mem_of_not_mem (by decide) other).symm, (ne_of_mem_of_not_mem (by decide) other).symm⟩
  cases numbers with
  | nil => simp at several
  | cons first numbers =>
    cases numbers with
    | nil => simp at several
    | cons next numbers =>
      have opened : ∀ c ∈ ", ".toList.intercalate (next :: numbers), c ≠ ')' :=
        forall_intercalate (each_of_all (by decide)) fun number among c member =>
          (plain number (List.mem_cons_of_mem _ among) c member).2
      refine ⟨first, ' ' :: ", ".toList.intercalate (next :: numbers), ?_, ?_, ?_, by simp⟩
      · rw [List.intercalate_cons_cons]
        simp
      · exact fun member => (plain first List.mem_cons_self _ member).1 rfl
      · simpa using fun member => opened _ member rfl

theorem head_numbers {numbers : List (List Char)} (some : numbers ≠ []) (spelled : ∀ number ∈ numbers, IsNumber number)
    (rest : List Char) : (", ".toList.intercalate numbers ++ rest).head? ≠ Option.some ',' := by
  obtain ⟨first, numbers, rfl⟩ := List.exists_cons_of_ne_nil some
  obtain ⟨c, starts, -⟩ := (spelled first List.mem_cons_self).begins
  obtain ⟨more, rfl⟩ := List.head?_eq_some_iff.mp starts
  have other : c ≠ ',' :=
    (ne_of_mem_of_not_mem (by decide)
      (apart_of_spelled ((spelled _ List.mem_cons_self).spelled c List.mem_cons_self))).symm
  cases numbers with
  | nil => simpa using other
  | cons next numbers => simpa [List.intercalate_cons_cons] using other

end Numbers

section Fingerprints

variable {tail : List Char}

theorem trim_front {c : Char} {front rest : List Char} (begins : ∃ c ∈ front.head?, isBlank c = false)
    (solid : isBlank c = false) :
    trim (front ++ c :: rest) = front ++ trim (c :: rest) := by
  obtain ⟨d, first, begun⟩ := begins
  obtain ⟨more, rfl⟩ := List.head?_eq_some_iff.mp first
  rw [trim_solid solid, List.cons_append, trim_solid begun, ← List.cons_append,
    trimEnd_append (.inl (trimEnd_ne_nil solid))]

theorem replace_letter (text : List Char) :
    replace valueList foldList ('A' :: text) = 'A' :: replace valueList foldList text :=
  replace_none (valueList_solid (by decide))

theorem front_one : IsFront (listHead ++ " IN (1) ".toList) :=
  ⟨each_of_all (by decide), ⟨'S', rfl, by decide⟩, by decide⟩

theorem numberMask_one : numberMask (listHead ++ " IN (1) ".toList) = listHead ++ " IN (N) ".toList := by decide +kernel

/-- What the fingerprint of a text is when its list overruns nothing. -/
theorem ofText_single (fits : IsTail tail) (alone : ¬∃ rest, Overruns (unpercented tail) rest) :
    ofText ("SELECT a FROM t WHERE c IN (1) ".toList ++ tail) =
        "SELECT a FROM t WHERE c IN (N) ".toList ++ ofText tail := by
  have whole := ofText_front front_one fits
  have later := ofText_tail fits
  obtain ⟨rest, rfl⟩ := tail_letter fits
  have unfolded : ¬∃ rest', Overruns ('A' :: numbered rest) rest' := by
    rintro ⟨rest', overruns⟩
    rw [← numbered_letter] at overruns
    exact alone (keeps_passes.overruns_of overruns)
  rw [numberMask_one, numbered_letter, replace_single unfolded, replace_letter,
    trim_front ⟨'S', rfl, by decide⟩ (by decide), ← replace_letter, ← numbered_letter, ← later] at whole
  exact whole

/-- What it is when the list goes on up to the rest. -/
theorem ofText_overruns (fits : IsTail tail) {rest : List Char} (overruns : Overruns (unpercented tail) rest) :
    ofText ("SELECT a FROM t WHERE c IN (1) ".toList ++ tail) =
      "SELECT a FROM t WHERE c IN (XYZ)".toList ++ trimEnd (maskLiterals rest) := by
  have whole := ofText_front front_one fits
  have list : Overruns ("N) ".toList ++ numbered tail) (numberMask (reduced rest)) :=
    (overruns_append (by decide)).mpr (keeps_passes.overruns overruns)
  have folded := replace_overruns (by simp) list
  have masks : maskLiterals rest = replace valueList foldList (numberMask (reduced rest)) := by
    refine maskLiterals_unquoted fun c member => ?_
    obtain ⟨items, more, split, -⟩ := overruns
    have within : c ∈ unpercented tail := by simp [split, member]
    exact fits.unquoted c (List.mem_of_mem_filter within)
  have begins : listHead ++ " IN (N) ".toList ++ numbered tail =
      listHead ++ " IN (".toList ++ ("N) ".toList ++ numbered tail) := rfl
  have kept : trimEnd (listHead ++ " IN (XYZ)".toList) = listHead ++ " IN (XYZ)".toList := by decide
  rw [numberMask_one, begins, folded, ← masks] at whole
  refine whole.trans ((trim_solid ?_).trans (trimEnd_append (.inr kept)))
  decide

theorem ofText_numbers (fits : IsTail tail) {numbers : List (List Char)} (several : 2 ≤ numbers.length)
    (spelled : ∀ number ∈ numbers, IsNumber number) :
    ofText ("SELECT a FROM t WHERE c IN (".toList ++ ", ".toList.intercalate numbers ++ ") ".toList ++ tail) =
      "SELECT a FROM t WHERE c IN (XYZ) ".toList ++ ofText tail := by
  have some : numbers ≠ [] := List.ne_nil_of_length_pos (by omega)
  have whole := ofText_front (front_numbers some spelled) fits
  have later := ofText_tail fits
  obtain ⟨rest, rfl⟩ := tail_letter fits
  have opens (text : List Char) :
      numberMask (listHead ++ " IN (".toList ++ text) = listHead ++ " IN (".toList ++ numberMask text := by
    have plain : numberMask (listHead ++ " IN ".toList) = listHead ++ " IN ".toList := by decide +kernel
    have between : numberMask (listHead ++ " IN ".toList ++ '(' :: text) =
        numberMask (listHead ++ " IN ".toList) ++ '(' :: numberMask text :=
      numberMask_between (by decide) (by decide)
    rw [plain] at between
    exact between
  have list : Overruns (numberMask (", ".toList.intercalate numbers ++ ") ".toList) ++ numbered ('A' :: rest))
      (' ' :: numbered ('A' :: rest)) :=
    overruns_extend (keeps_numberMask.overruns (overruns_numbers several spelled [' '])) _
  have begins : (numberMask (", ".toList.intercalate numbers ++ ") ".toList) ++ numbered ('A' :: rest)).head? ≠
      Option.some ',' := by
    rw [List.head?_append_of_ne_nil _ (keeps_numberMask.some (by simp))]
    exact head_numberMask (by decide) (head_numbers some spelled _)
  have space : valueList (' ' :: numbered ('A' :: rest)) = none := by
    rw [numbered_letter]
    exact valueList_none (by decide)
  have trimmed (text : List Char) : trim (listHead ++ " IN (XYZ)".toList ++ ' ' :: 'A' :: text) =
      "SELECT a FROM t WHERE c IN (XYZ) ".toList ++ trim ('A' :: text) :=
    trim_front
      (show ∃ c ∈ (listHead ++ " IN (XYZ) ".toList).head?, isBlank c = false from ⟨'S', rfl, by decide⟩) (by decide)
  rw [opens, List.append_assoc (listHead ++ " IN (".toList) (numberMask _),
    replace_overruns begins list, replace_none space, numbered_letter, replace_letter, trimmed,
    ← replace_letter, ← numbered_letter, ← later] at whole
  rw [← List.append_assoc (listHead ++ " IN (".toList)] at whole
  exact whole

/-- A list of one number is folded with what follows it exactly where a later comma is followed by a closing
parenthesis, though not at once; and a list of several numbers is always folded alone. -/
theorem ofText_condition (fits : IsTail tail) :
    (ofText ("SELECT a FROM t WHERE c IN (1) ".toList ++ tail) =
      "SELECT a FROM t WHERE c IN (N) ".toList ++ ofText tail ↔
      ¬∃ rest, Overruns (unpercented tail) rest) ∧
    (∀ rest, Overruns (unpercented tail) rest → ofText ("SELECT a FROM t WHERE c IN (1) ".toList ++ tail) =
      "SELECT a FROM t WHERE c IN (XYZ)".toList ++ trimEnd (maskLiterals rest)) ∧
    ∀ numbers : List (List Char), 2 ≤ numbers.length → (∀ number ∈ numbers, IsNumber number) →
      ofText ("SELECT a FROM t WHERE c IN (".toList ++ ", ".toList.intercalate numbers ++ ") ".toList ++ tail) =
        "SELECT a FROM t WHERE c IN (XYZ) ".toList ++ ofText tail := by
  refine ⟨⟨?_, ofText_single fits⟩, fun rest => ofText_overruns fits, fun numbers => ofText_numbers fits⟩
  rintro alone ⟨rest, overruns⟩
  rw [ofText_overruns fits overruns] at alone
  have behind :=
    List.append_cancel_left (show listHead ++ " IN (".toList ++ 'X' :: ("YZ)".toList ++ trimEnd (maskLiterals rest)) =
    listHead ++ " IN (".toList ++ 'N' :: (") ".toList ++ ofText tail) from alone)
  exact absurd (List.cons.inj behind).1 (by decide)

/-- A list of one number swallows the next condition when that has a list, and is kept when it has none. -/
theorem ofText_condition_swallows :
    ofText "SELECT a FROM t WHERE c IN (1) AND d IN (2, 3)".toList = "SELECT a FROM t WHERE c IN (XYZ)".toList ∧
      ofText "SELECT a FROM t WHERE c IN (1, -2) AND d IN (2, 3)".toList =
        "SELECT a FROM t WHERE c IN (XYZ) AND d IN (XYZ)".toList ∧
      ofText "SELECT a FROM t WHERE c IN (1) AND d = 2".toList = "SELECT a FROM t WHERE c IN (N) AND d = N".toList := by
  have likeless (text : List Char) (none : ∀ part ∈ (unpercented text).tails, anyCase " like x".toList part = none) :
      ∀ part, part <:+ unpercented text → anyCase " like x".toList part = Option.none :=
    fun part suffix => none part ((List.mem_tails part _).mpr suffix)
  have ended {text : List Char} {c : Char} (last : text.getLast? = some c) (solid : isBlank c = false) :
      ∀ d ∈ text.getLast?, isBlank d = false := fun d found => by
    cases last.symm.trans found
    exact solid
  have list : IsTail "AND d IN (2, 3)".toList :=
    ⟨⟨each_of_all (by decide), each_of_all (by decide), by decide⟩, by decide,
    ended (show _ = some ')' by decide) (by decide), likeless _ (by decide)⟩
  have single : IsTail "AND d = 2".toList := ⟨⟨each_of_all (by decide), each_of_all (by decide), by decide⟩, by decide,
    ended (show _ = some '2' by decide) (by decide), likeless _ (by decide)⟩
  have overruns : Overruns (unpercented "AND d IN (2, 3)".toList) [] :=
    ⟨"AND d IN (2".toList, " 3".toList, by decide, by decide, by decide, by decide⟩
  have alone : ¬∃ rest, Overruns (unpercented "AND d = 2".toList) rest := by
    rintro ⟨rest, items, more, whole, -⟩
    have comma : ',' ∈ unpercented "AND d = 2".toList := by
      rw [whole]
      simp
    exact absurd comma (by decide)
  have numbers : ∀ number ∈ ["1".toList, "-2".toList], IsNumber number := by
    simp only [List.forall_mem_cons, List.not_mem_nil, false_imp_iff, implies_true, and_true]
    exact ⟨⟨⟨'1', rfl, by decide⟩, each_of_all (by decide), by decide⟩,
      ⟨⟨'-', rfl, by decide⟩, each_of_all (by decide), by decide⟩⟩
  have folded : ofText "AND d IN (2, 3)".toList = "AND d IN (XYZ)".toList := by decide +kernel
  have kept : ofText "AND d = 2".toList = "AND d = N".toList := by decide +kernel
  refine ⟨(ofText_condition list).2.1 [] overruns, ?_, ?_⟩
  · refine ((ofText_condition list).2.2 ["1".toList, "-2".toList] (by decide) numbers).trans ?_
    rw [folded]
    decide
  · refine ((ofText_condition single).1.mpr alone).trans ?_
    rw [kept]
    decide

end Fingerprints

end QueryFacts.Proofs.ListFolding
