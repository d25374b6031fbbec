import QueryFacts.Proofs.LiteralText
import QueryFacts.Proofs.QuotedRuns

/-! Where an item ends. The lexer may look further than the item it reads, but what it sees
there only counts as long as it belongs to other items: the item is read again in front of the
same characters when a space, or nothing, takes the place of what came after them. -/

namespace QueryFacts.Lexer

/-- An item that the text is segmented around as it is read: a word of characters that open
nothing and are no gaps, a string of bytes without a backslash, and any other item. -/
def Item.isOrdinary : Item → Bool
  | .lexical .keyword value none => value.all Proofs.Layout.isInert
  | .lexical .name value none => value.all Proofs.Layout.isInert
  | .lexical .operator ('B' :: quoted) none => !quoted.contains '\\'
  | _ => true

end QueryFacts.Lexer

namespace QueryFacts.Proofs.ItemBorders
open Text Lexer Layout QuotedRuns

/-- The text goes on with a space, or not at all. -/
def Blunt (text : List Char) : Prop := ∀ c ∈ text.head?, c = ' '

section Characters

variable {accepts : Char → Bool} (space : accepts ' ' = false) {text behind other : List Char} (blunt : Blunt other)
include space blunt

private theorem takeWhile_blunt : other.takeWhile accepts = [] := by
  cases other with
  | nil => rfl
  | cons c other =>
    obtain rfl := blunt c rfl
    exact List.takeWhile_cons_of_neg (by rw [space]; exact Bool.false_ne_true)

/-- Characters of one kind that end within a text are the same in front of a space. -/
theorem takeWhile_cut (inside : ((text ++ behind).takeWhile accepts).length ≤ text.length) :
    (text ++ other).takeWhile accepts = (text ++ behind).takeWhile accepts := by
  induction text with
  | nil => exact (takeWhile_blunt space blunt).trans (List.eq_nil_of_length_eq_zero (Nat.le_zero.mp inside)).symm
  | cons c text ih =>
    rw [List.cons_append, List.cons_append, List.takeWhile_cons, List.takeWhile_cons]
    split
    next accepted =>
      rw [List.cons_append, List.takeWhile_cons_of_pos accepted] at inside
      rw [ih (Nat.le_of_succ_le_succ inside)]
    next => rfl

end Characters

section Rest

variable {text behind front : List Char}

/-- What is left in front of a border is left of the text before it. -/
theorem drop_cut {count : Nat} (inside : count ≤ (text ++ behind).length)
    (left : (text ++ behind).drop count = front ++ behind) :
    count ≤ text.length ∧ text.drop count = front := by
  have lengths := congrArg List.length left
  simp only [List.length_drop, List.length_append] at lengths inside
  have within : count ≤ text.length := by omega
  rw [List.drop_append_of_le_length within] at left
  exact ⟨within, List.append_cancel_right left⟩

theorem dropWhile_eq_drop (accepts : Char → Bool) (text : List Char) :
    text.dropWhile accepts = text.drop (text.takeWhile accepts).length := by
  have whole :=
    congrArg (List.drop (text.takeWhile accepts).length) (List.takeWhile_append_dropWhile (p := accepts) (l := text))
  rwa [List.drop_left] at whole

end Rest

section Exponent

/-- The sign at the start of what comes behind the letter of an exponent. -/
def signs (text : List Char) : List Char := (text.take 1).takeWhile fun c => c = '+' ∨ c = '-'

/-- The digits of an exponent. -/
def figures (text : List Char) : List Char := (text.drop (signs text).length).takeWhile (·.isDigit)

theorem exponent_cons (e : Char) (rest : List Char) : exponent (e :: rest) =
    if (e = 'e' ∨ e = 'E') ∧ figures rest ≠ [] then e :: signs rest ++ figures rest else [] := rfl

end Exponent

private theorem number_length (text : List Char) :
    (number text).2.length ≤ (text.drop (mantissa text).length).length := by
  unfold number wordFrom
  dsimp only
  split
  · exact Nat.le_refl _
  · split
    · exact (List.dropWhile_suffix _).length_le
    · dsimp only
      split
      · exact ((List.drop_suffix _ _).trans (List.drop_suffix _ _)).length_le
      · exact (List.drop_suffix _ _).length_le

private theorem numeric_eq_number {c : Char} {rest : List Char} (noHex : ¬(c = '0' ∧ rest.head? = some 'x')) :
    numeric (c :: rest) = number (c :: rest) := by
  unfold numeric
  split
  next digits same =>
    obtain ⟨rfl, rfl⟩ := List.cons.inj same
    exact absurd ⟨rfl, rfl⟩ noHex
  next => rfl

private theorem wordFrom_length (first rest : List Char) : (wordFrom first rest).2.length ≤ rest.length :=
  (List.dropWhile_suffix isIdentifierPart).length_le

private theorem atSign_double (c : Char) (more : List Char) : atSign ('@' :: c :: more) =
    if c = ' ' then (operator ['@', '@'], c :: more) else wordFrom ['@', '@', c] more := rfl

private theorem atSign_single {c : Char} (single : c ≠ '@') (more : List Char) : atSign (c :: more) =
    if c = '>' ∨ c = '?' then (operator ['@', c], more)
    else if c = ' ' ∨ c = singleQuote ∨ c = doubleQuote ∨ c = backtick then (operator ['@'], c :: more)
    else wordFrom ['@', c] more := by
  unfold atSign
  split
  all_goals simp_all

private theorem atSign_pair {rest : List Char} (alone : rest.length ≤ (atSign ('@' :: rest)).2.length) :
    atSign ('@' :: rest) = (operator ['@', '@'], rest) := by
  cases rest with
  | nil => rfl
  | cons d more =>
    have shorter := wordFrom_length ['@', '@', d] more
    rw [atSign_double] at alone ⊢
    split at alone
    next space => rw [if_pos space]
    next => simp only [List.length_cons] at alone; omega

/-- Where only the sign itself is taken, it is an operator. -/
private theorem atSign_alone {rest : List Char} (alone : rest.length ≤ (atSign rest).2.length) :
    atSign rest = (operator ['@'], rest) := by
  cases rest with
  | nil => rfl
  | cons c more =>
    by_cases again : c = '@'
    · subst again
      cases more with
      | nil => exact absurd alone (by decide)
      | cons d more =>
        have shorter := wordFrom_length ['@', '@', d] more
        rw [atSign_double] at alone
        split at alone
        all_goals
          simp only [List.length_cons] at alone
          omega
    · have shorter := wordFrom_length ['@', c] more
      rw [atSign_single again] at alone ⊢
      split at alone
      next => simp only [List.length_cons] at alone; omega
      next sign =>
        rw [if_neg sign]
        split at alone
        next quote => rw [if_pos quote]
        next => simp only [List.length_cons] at alone; omega

private theorem longOperators_solid : ∀ known ∈ longOperators, ' ' ∉ known := by decide

section Readers

variable {text behind front other : List Char} (blunt : Blunt other)
include blunt

/-- The head of a text in front of a border is the same, or it is a space or nothing. -/
theorem head?_cut {c : Char} (head : (text ++ other).head? = some c) : c = ' ' ∨ (text ++ behind).head? = some c := by
  cases text with
  | nil => exact .inl (blunt c head)
  | cons d text => exact .inr head

theorem span_cut {accepts : Char → Bool} (space : accepts ' ' = false)
    (left : (text ++ behind).dropWhile accepts = front ++ behind) :
    (text ++ other).takeWhile accepts = (text ++ behind).takeWhile accepts ∧
        (text ++ other).dropWhile accepts = front ++ other := by
  rw [dropWhile_eq_drop] at left
  obtain ⟨inside, rest⟩ := drop_cut (List.takeWhile_sublist _).length_le left
  have same := takeWhile_cut space blunt inside
  refine ⟨same, ?_⟩
  rw [dropWhile_eq_drop, same, List.drop_append_of_le_length inside, rest]

theorem wordFrom_cut {first : List Char} (left : (wordFrom first (text ++ behind)).2 = front ++ behind) :
    wordFrom first (text ++ other) = ((wordFrom first (text ++ behind)).1, front ++ other) := by
  obtain ⟨same, rest⟩ := span_cut blunt (show isIdentifierPart ' ' = false by decide) left
  rw [wordFrom, wordFrom, same, rest]

theorem mantissa_cut (inside : (mantissa (text ++ behind)).length ≤ text.length) :
    mantissa (text ++ other) = mantissa (text ++ behind) := by
  have digits : ((text ++ behind).takeWhile (·.isDigit)).length ≤ text.length := by
    refine Nat.le_trans ?_ inside
    unfold mantissa
    dsimp only
    split
    · rw [List.length_append]; exact Nat.le_add_right _ _
    · exact Nat.le_refl _
  have same := takeWhile_cut (show ' '.isDigit = false by decide) blunt digits
  unfold mantissa at inside ⊢
  simp only [same]
  generalize (text ++ behind).takeWhile (·.isDigit) = run at *
  simp only [List.drop_append_of_le_length digits] at inside ⊢
  have length := List.length_drop (i := run.length) (l := text)
  cases left : text.drop run.length with
  | nil =>
    -- A point behind the border would belong to the number.
    rw [left] at inside length
    simp only [List.nil_append] at inside ⊢
    split at inside
    next rest => simp at inside length; omega
    next noPoint =>
      split
      next rest => exact absurd (blunt '.' rfl) (by decide)
      next => rfl
  | cons c rest =>
    rw [left] at inside length
    simp only [List.cons_append] at inside ⊢
    by_cases point : c = '.'
    · subst point
      simp only [List.length_append, List.length_cons] at inside length ⊢
      have figures : ((rest ++ behind).takeWhile (·.isDigit)).length ≤ rest.length := by omega
      rw [takeWhile_cut (show ' '.isDigit = false by decide) blunt figures]
    · split
      next found => exact absurd (List.cons.inj found).1 point
      next =>
        split
        next found => exact absurd (List.cons.inj found).1 point
        next => rfl

private theorem figures_cut {s : Char}
    (within : (signs (s :: text ++ behind)).length + (figures (s :: text ++ behind)).length ≤
    (s :: text).length) : figures (s :: text ++ other) = figures (s :: text ++ behind) := by
  have short : (signs (s :: text ++ behind)).length ≤ (s :: text).length := Nat.le_trans (Nat.le_add_right _ _) within
  have same : signs (s :: text ++ other) = signs (s :: text ++ behind) := rfl
  unfold figures at within ⊢
  rw [List.drop_append_of_le_length short] at within
  have digits : (((s :: text).drop (signs (s :: text ++ behind)).length ++ behind).takeWhile (·.isDigit)).length ≤
      ((s :: text).drop (signs (s :: text ++ behind)).length).length := by
    rw [List.length_drop]
    omega
  rw [same, List.drop_append_of_le_length short, List.drop_append_of_le_length short,
    takeWhile_cut (show ' '.isDigit = false by decide) blunt digits]

/-- An exponent is the same, or both texts have none. -/
theorem exponent_cut (inside : (exponent (text ++ behind)).length ≤ text.length) :
    exponent (text ++ other) = exponent (text ++ behind) := by
  cases text with
  | nil =>
    rw [List.eq_nil_of_length_eq_zero (Nat.le_zero.mp inside)]
    cases other with
    | nil => rfl
    | cons c other =>
      obtain rfl := blunt c rfl
      simp [exponent]
  | cons e text =>
    rw [List.cons_append, exponent_cons] at inside
    rw [List.cons_append, List.cons_append, exponent_cons, exponent_cons]
    cases text with
    | nil =>
      have bare : figures other = [] := by
        cases other with
        | nil => rfl
        | cons c other =>
          obtain rfl := blunt c rfl
          rfl
      have none : ¬((e = 'e' ∨ e = 'E') ∧ figures behind ≠ []) := by
        intro found
        rw [List.nil_append, if_pos found] at inside
        have some := List.length_pos_iff.mpr found.2
        simp only [List.cons_append, List.length_append, List.length_cons, List.length_nil] at inside
        omega
      rw [List.nil_append, List.nil_append, bare, if_neg fun found => found.2 rfl, if_neg none]
    | cons s text =>
      by_cases letter : e = 'e' ∨ e = 'E'
      · have few : (signs (s :: text ++ behind)).length ≤ 1 :=
          Nat.le_trans (List.takeWhile_sublist _).length_le (List.length_take_le 1 _)
        have within :
            (signs (s :: text ++ behind)).length + (figures (s :: text ++ behind)).length ≤ (s :: text).length := by
          split at inside
          next =>
            simp only [List.length_append, List.length_cons] at inside ⊢
            omega
          next none =>
            rw [Classical.not_not.mp fun some => none ⟨letter, some⟩, List.length_nil, List.length_cons]
            omega
        rw [figures_cut blunt within]
        rfl
      · rw [if_neg fun found => letter found.1, if_neg fun found => letter found.1]

/-- The letter that a number may end in counts as part of it. -/
private theorem suffix_cut
    (left : (if (text ++ behind).head? = some 'L' then (text ++ behind).drop 1 else text ++ behind) =
    front ++ behind) :
    (if (text ++ other).head? = some 'L' then (text ++ other).drop 1 else text ++ other) = front ++ other := by
  cases text with
  | nil =>
    rw [List.nil_append] at left ⊢
    have noSuffix : other.head? ≠ some 'L' := fun head => absurd (blunt _ head) (by decide)
    rw [if_neg noSuffix]
    split at left
    next suffix =>
      have lengths := congrArg List.length left
      obtain ⟨more, rfl⟩ := List.head?_eq_some_iff.mp suffix
      simp at lengths
      omega
    next => rw [List.append_cancel_right (left.symm.trans (List.nil_append behind).symm), List.nil_append]
  | cons c text =>
    rw [List.cons_append, List.head?_cons] at left ⊢
    split at left
    next suffix => rw [if_pos suffix, List.drop_succ_cons, List.drop_zero, List.append_cancel_right left]
    next plain =>
      rw [if_neg plain, ← List.cons_append, List.append_cancel_right ((List.cons_append).trans left)]

theorem number_cut (left : (number (text ++ behind)).2 = front ++ behind) :
    number (text ++ other) = ((number (text ++ behind)).1, front ++ other) := by
  have start : (mantissa (text ++ behind)).length ≤ text.length := by
    have begins := (mantissa_begins (text ++ behind)).length_le
    have shorter := number_length (text ++ behind)
    rw [left, List.length_drop] at shorter
    simp only [List.length_append] at shorter begins
    omega
  have same := mantissa_cut blunt start
  unfold number at left ⊢
  dsimp only at left ⊢
  rw [same]
  generalize mantissa (text ++ behind) = first at *
  rw [List.drop_append_of_le_length start] at left ⊢
  rw [List.drop_append_of_le_length start]
  generalize text.drop first.length = rest at *
  by_cases point : first = ['.']
  · rw [if_pos point] at left ⊢
    rw [if_pos point, List.append_cancel_right left]
  · rw [if_neg point] at left ⊢
    rw [if_neg point]
    by_cases word : exponent (rest ++ behind) = [] ∧ (rest ++ behind).takeWhile isIdentifierPart ≠ []
    · rw [if_pos word] at left ⊢
      have none : exponent (rest ++ other) = [] := by
        rw [exponent_cut blunt (by rw [word.1]; exact Nat.zero_le _), word.1]
      obtain ⟨letters, -⟩ := span_cut blunt (show isIdentifierPart ' ' = false by decide) left
      rw [if_pos ⟨none, letters ▸ word.2⟩, wordFrom_cut blunt left]
    · rw [if_neg word] at left ⊢
      dsimp only at left
      have within : (exponent (rest ++ behind)).length ≤ rest.length := by
        have lengths := congrArg List.length left
        have begins := (exponent_begins (rest ++ behind)).length_le
        split at lengths
        all_goals
          simp only [List.length_drop, List.length_append] at lengths begins
          omega
      have power := exponent_cut blunt within
      have noWord : ¬(exponent (rest ++ other) = [] ∧ (rest ++ other).takeWhile isIdentifierPart ≠ []) := by
        rintro ⟨none, some⟩
        have empty := Classical.not_not.mp fun letters => word ⟨power ▸ none, letters⟩
        rw [takeWhile_cut (show isIdentifierPart ' ' = false by decide) blunt
          (by rw [empty]; exact Nat.zero_le _), empty] at some
        exact some rfl
      rw [if_neg noWord, power]
      rw [List.drop_append_of_le_length within] at left ⊢
      rw [List.drop_append_of_le_length within]
      rw [suffix_cut blunt left]

theorem numeric_cut {c : Char} (left : (numeric (c :: (text ++ behind))).2 = front ++ behind) :
    numeric (c :: (text ++ other)) = ((numeric (c :: (text ++ behind))).1, front ++ other) := by
  by_cases hex : c = '0' ∧ (text ++ behind).head? = some 'x'
  · obtain ⟨rfl, letter⟩ := hex
    cases text with
    | nil =>
      obtain ⟨more, rfl⟩ := List.head?_eq_some_iff.mp letter
      have shorter := (List.dropWhile_suffix isHexDigit (l := more)).length_le
      have lengths := congrArg List.length left
      change (more.dropWhile isHexDigit).length = _ at lengths
      simp only [List.length_append, List.length_cons] at lengths
      omega
    | cons x text =>
      obtain rfl := Option.some.inj letter
      obtain ⟨digits, rest⟩ := span_cut blunt (show isHexDigit ' ' = false by decide) left
      change (literal ('X' :: enclose singleQuote ((text ++ other).takeWhile isHexDigit)),
          (text ++ other).dropWhile isHexDigit) = _
      rw [digits, rest]
      rfl
  · have noHex : ¬(c = '0' ∧ (text ++ other).head? = some 'x') := by
      rintro ⟨zero, letter⟩
      rcases head?_cut blunt letter with space | same
      · exact absurd space (by decide)
      · exact hex ⟨zero, same⟩
    rw [numeric_eq_number hex] at left ⊢
    rw [numeric_eq_number noHex]
    exact @number_cut (c :: text) behind front other blunt left

private theorem atSign_blunt :
    atSign other = (operator ['@'], other) ∧ atSign ('@' :: other) = (operator ['@', '@'], other) := by
  cases other with
  | nil => exact ⟨rfl, rfl⟩
  | cons c other =>
    obtain rfl := blunt c rfl
    exact ⟨rfl, rfl⟩

theorem atSign_cut (left : (atSign (text ++ behind)).2 = front ++ behind) :
    atSign (text ++ other) = ((atSign (text ++ behind)).1, front ++ other) := by
  obtain ⟨bare, double⟩ := atSign_blunt blunt
  have size := congrArg List.length left
  rw [List.length_append] at size
  cases text with
  | nil =>
    have alone := @atSign_alone behind (by rw [List.nil_append] at size; omega)
    change (atSign behind).2 = front ++ behind at left
    change atSign other = ((atSign behind).1, front ++ other)
    rw [alone] at left ⊢
    rw [bare, List.append_cancel_right (left.symm.trans (List.nil_append behind).symm), List.nil_append]
  | cons c text =>
    by_cases again : c = '@'
    · subst again
      cases text with
      | nil =>
        have pair := @atSign_pair behind (by rw [List.cons_append, List.nil_append] at size; omega)
        change (atSign ('@' :: behind)).2 = front ++ behind at left
        change atSign ('@' :: other) = ((atSign ('@' :: behind)).1, front ++ other)
        rw [pair] at left ⊢
        rw [double, List.append_cancel_right (left.symm.trans (List.nil_append behind).symm), List.nil_append]
      | cons d text =>
        rw [List.cons_append, List.cons_append, atSign_double] at left ⊢
        rw [List.cons_append, List.cons_append, atSign_double]
        split at left
        next space =>
          rw [if_pos space, if_pos space, ← List.cons_append, List.append_cancel_right (List.cons_append.trans left)]
        next word => rw [if_neg word, if_neg word, wordFrom_cut blunt left]
    · rw [List.cons_append, atSign_single again] at left ⊢
      rw [List.cons_append, atSign_single again]
      split at left
      next sign => rw [if_pos sign, if_pos sign, List.append_cancel_right left]
      next sign =>
        rw [if_neg sign, if_neg sign]
        split at left
        next quote =>
          rw [if_pos quote, if_pos quote, ← List.cons_append, List.append_cancel_right (List.cons_append.trans left)]
        next word => rw [if_neg word, if_neg word, wordFrom_cut blunt left]

/-- What has no space in it reaches over no border. -/
private theorem prefix_cut {known : List Char} (solid : ' ' ∉ known) (begins : known <+: text ++ other) :
    known <+: text := by
  by_cases short : known.length ≤ text.length
  · exact List.prefix_of_prefix_length_le begins (List.prefix_append text other) short
  · obtain ⟨more, rfl⟩ :=
      List.prefix_of_prefix_length_le (List.prefix_append text other) begins (Nat.le_of_not_le short)
    have behind : more <+: other := (List.prefix_append_right_inj text).mp begins
    cases more with
    | nil => exact absurd (by simp) short
    | cons c more =>
      obtain ⟨rest, rfl⟩ := behind
      obtain rfl := blunt c rfl
      exact absurd (List.mem_append_right _ List.mem_cons_self) solid

theorem symbol_cut {c : Char} (left : (symbol c (text ++ behind)).2 = front ++ behind) :
    symbol c (text ++ other) = ((symbol c (text ++ behind)).1, front ++ other) := by
  have within {known : List Char} (member : known ∈ longOperators)
      (begins : known.isPrefixOf (c :: (text ++ other)) = true) : known.isPrefixOf (c :: (text ++ behind)) = true := by
    rw [List.isPrefixOf_iff_prefix] at begins ⊢
    exact (@prefix_cut (c :: text) other blunt known (longOperators_solid known member) begins).trans
      (List.prefix_append (c :: text) behind)
  unfold symbol at left ⊢
  cases found : longOperators.find? (·.isPrefixOf (c :: (text ++ behind))) with
  | none =>
    have none : longOperators.find? (·.isPrefixOf (c :: (text ++ other))) = none := by
      rw [List.find?_eq_none] at found ⊢
      exact fun known member begins => found known member (within member begins)
    rw [found] at left
    rw [none]
    simp only at left ⊢
    rw [List.append_cancel_right left]
  | some known =>
    rw [found] at left
    simp only at left
    obtain ⟨begins, earlier, later, whole, others⟩ := List.find?_eq_some_iff_append.mp found
    rw [List.isPrefixOf_iff_prefix] at begins
    have bound := begins.length_le
    obtain ⟨inside, rest⟩ := drop_cut (by simp only [List.length_cons] at bound; omega) left
    have here : known <+: c :: text :=
      List.prefix_of_prefix_length_le begins
        (List.prefix_append (c :: text) behind) (by simp only [List.length_cons]; omega)
    have again : longOperators.find? (·.isPrefixOf (c :: (text ++ other))) = some known := by
      rw [List.find?_eq_some_iff_append, List.isPrefixOf_iff_prefix]
      refine ⟨here.trans (List.prefix_append (c :: text) other), earlier, later, whole, fun first member => ?_⟩
      rw [Bool.not_eq_true', Bool.eq_false_iff]
      intro begun
      have also := within (whole ▸ List.mem_append_left _ member) begun
      exact absurd (others first member) (by rw [also]; decide)
    rw [again]
    simp only
    rw [List.drop_append_of_le_length inside, rest]

end Readers

section Strings

variable {kind : SegmentKind} {quote c : Char} {body : List Char → Option Body} {part inner after rest : List Char}

private theorem layout_ends (quoted : kind.quote? = some quote) (ends : Ends quote body part inner)
    (next : after.head? ≠ some quote) :
    layout (quote :: (part ++ after)) = (quote :: part).map some ++ layout after := by
  rw [layout_quote quoted, ends.split after next]

private theorem layout_prefixed {text part : List Char} (letter : isInert c = true)
    (known : layout text = part.map some ++ layout after) :
    layout (c :: text) = (c :: part).map some ++ layout after := by
  have first := layout_inert (List.forall_mem_singleton.mpr letter) text
  rw [List.singleton_append, known] at first
  exact first

private theorem quote?_ne_space (quoted : kind.quote? = some quote) : quote ≠ ' ' := by
  cases kind <;> cases quoted <;> decide

/-- What a letter in front of a quote makes of it. -/
private theorem string?_letter (noSingle : c ≠ singleQuote) (noDouble : c ≠ doubleQuote)
    (noTick : c ≠ backtick) (quote : Char)
    (text : List Char) : string? c (quote :: text) =
      if (c = 'b' ∨ c = 'B') ∧ (quote = singleQuote ∨ quote = doubleQuote) then
        some (quotedItem .unterminatedString (quote :: text) (quotedBody quote false text)
          fun inner => operator ('B' :: enclose quote inner))
      else if (c = 'n' ∨ c = 'N' ∨ c = 'x' ∨ c = 'X') ∧ quote = singleQuote then
        some (quotedItem .unterminatedString (quote :: text) (quotedBody quote true text)
          fun inner => literal (c.toUpper :: enclose quote inner))
      else if (c = 'e' ∨ c = 'E') ∧ quote = singleQuote then
        some (quotedItem .unterminatedEscapedString (c :: quote :: text) (escapedBody text)
          fun inner => operator ('E' :: enclose quote inner))
      else none := by
  rw [string?, if_neg noSingle, if_neg noDouble, if_neg noTick]
  rfl

/-- A string, which ends where its quote does not come again. -/
structure StringRun (c : Char) (item : Item) (part after : List Char) : Prop where
  layout : layout (c :: (part ++ after)) = (c :: part).map some ++ layout after
  read : ∃ quote, quote ≠ ' ' ∧ after.head? ≠ some quote ∧
    ∀ other, other.head? ≠ some quote → string? c (part ++ other) = some (.ok (item, other))

/-- A string that starts with its quote. -/
private theorem StringRun.ofQuote {item : Item} (quoted : kind.quote? = some quote) (ends : Ends quote body part inner)
    (next : after.head? ≠ some quote)
    (reads : ∀ text other, body text = some (inner, other) → string? quote text = some (.ok (item, other))) :
    StringRun quote item part after where
  layout := layout_ends quoted ends next
  read := ⟨quote, quote?_ne_space quoted, next, fun other begins => reads _ other (ends.read other begins)⟩

/-- A string with a letter in front of its quote. -/
private theorem StringRun.ofLetter {item : Item} (letter : isInert c = true) (quoted : kind.quote? = some quote)
    (ends : Ends quote body part inner) (next : after.head? ≠ some quote)
    (reads : ∀ text other, body text = some (inner, other) → string? c (quote :: text) = some (.ok (item, other))) :
    StringRun c item (quote :: part) after where
  layout := layout_prefixed letter (layout_ends quoted ends next)
  read := ⟨quote, quote?_ne_space quoted, next, fun other begins => reads _ other (ends.read other begins)⟩

theorem string?_run {item : Item} (read : string? c rest = some (.ok (item, after)))
    (ordinary : item.isOrdinary = true) :
    ∃ part, rest = part ++ after ∧ StringRun c item part after := by
  have single : SegmentKind.stringLiteral.quote? = some singleQuote := rfl
  have double : SegmentKind.doubleQuoted.quote? = some doubleQuote := rfl
  have tick : SegmentKind.backticked.quote? = some backtick := rfl
  unfold string? at read
  split at read
  next isSingle =>
    subst isSingle
    obtain ⟨inner, body, rfl⟩ := quotedItem_eq_ok.mp (Option.some.inj read)
    obtain ⟨part, rfl, next, ends⟩ := quotedBody_run (by decide) body (.string (by decide) inner)
    exact ⟨part, rfl, .ofQuote single ends next fun text other found => by rw [string?, if_pos rfl, found]; rfl⟩
  next noSingle =>
  split at read
  next isDouble =>
    subst isDouble
    obtain ⟨inner, body, rfl⟩ := quotedItem_eq_ok.mp (Option.some.inj read)
    obtain ⟨part, rfl, next, ends⟩ := quotedBody_run (by decide) body (.string (by decide) inner)
    exact ⟨part, rfl, .ofQuote double ends next
      fun text other found => by rw [string?, if_neg noSingle, if_pos rfl, found]; rfl⟩
  next noDouble =>
  split at read
  next isTick =>
    subst isTick
    obtain ⟨inner, body, rfl⟩ := quotedItem_eq_ok.mp (Option.some.inj read)
    obtain ⟨part, rfl, next, ends⟩ := quotedBody_run (by decide) body (.name inner)
    exact ⟨part, rfl, .ofQuote tick ends next
      fun text other found => by rw [string?, if_neg noSingle, if_neg noDouble, if_pos rfl, found]; rfl⟩
  next noTick =>
  cases rest with
  | nil => cases read
  | cons quote rest =>
    have reads := string?_letter noSingle noDouble noTick
    simp only [List.head?_cons, List.drop_one, List.tail_cons] at read
    split at read
    next byte =>
      obtain ⟨inner, body, rfl⟩ := quotedItem_eq_ok.mp (Option.some.inj read)
      have plain : '\\' ∉ inner := fun member => by
        simp [operator, Item.isOrdinary, enclose, member] at ordinary
      have letter : isInert c = true := by rcases byte.1 with rfl | rfl <;> decide
      obtain ⟨letters, rfl | rfl⟩ := byte
      · obtain ⟨part, rfl, next, ends⟩ := quotedBody_run (by decide) body (.bytes singleQuote plain)
        exact ⟨_, rfl, .ofLetter letter single ends next
          fun text other found => by rw [reads, if_pos ⟨letters, .inl rfl⟩, found]; rfl⟩
      · obtain ⟨part, rfl, next, ends⟩ := quotedBody_run (by decide) body (.bytes doubleQuote plain)
        exact ⟨_, rfl, .ofLetter letter double ends next
          fun text other found => by rw [reads, if_pos ⟨letters, .inr rfl⟩, found]; rfl⟩
    next noByte =>
    split at read
    next string =>
      obtain ⟨letters, rfl⟩ := string
      obtain ⟨inner, body, rfl⟩ := quotedItem_eq_ok.mp (Option.some.inj read)
      obtain ⟨part, rfl, next, ends⟩ := quotedBody_run (by decide) body (.string (by decide) inner)
      have letter : isInert c = true := by rcases letters with rfl | rfl | rfl | rfl <;> decide
      exact ⟨_, rfl, .ofLetter letter single ends next
        fun text other found => by rw [reads, if_neg noByte, if_pos ⟨letters, rfl⟩, found]; rfl⟩
    next noString =>
    split at read
    next escaped =>
      obtain ⟨letters, rfl⟩ := escaped
      obtain ⟨inner, body, rfl⟩ := quotedItem_eq_ok.mp (Option.some.inj read)
      obtain ⟨part, rfl, next, ends⟩ := escapedBody_run body
      have letter : isInert c = true := by rcases letters with rfl | rfl <;> decide
      exact ⟨_, rfl, .ofLetter letter single ends next
        fun text other found => by rw [reads, if_neg noByte, if_neg noString, if_pos ⟨letters, rfl⟩, found]; rfl⟩
    next => cases read

end Strings

section Scan

variable {c : Char} {text behind front other : List Char} {item : Item}

private theorem string?_none_of_head {rest : List Char} (free : string? c rest = none)
    (same : ∀ d ∈ other.head?, d = ' ' ∨ rest.head? = some d) : string? c other = none := by
  unfold string? at free ⊢
  split at free
  next => cases free
  next noSingle =>
  split at free
  next => cases free
  next noDouble =>
  split at free
  next => cases free
  next noTick =>
  simp only [if_neg noSingle, if_neg noDouble, if_neg noTick]
  cases other with
  | nil => rfl
  | cons d other =>
    rcases same d rfl with rfl | head
    · simp [singleQuote, doubleQuote]
    · rw [head] at free
      simp only [List.head?_cons] at free ⊢
      split at free
      next => cases free
      next noByte =>
      split at free
      next => cases free
      next noString =>
      split at free
      next => cases free
      next noEscaped => rw [if_neg noByte, if_neg noString, if_neg noEscaped]

/-- An item is read again in front of a space, or at the end of the text. -/
theorem scan_cut (read : scan c (text ++ behind) = .ok (item, front ++ behind)) (lexical : item ≠ .gap)
    (ordinary : item.isOrdinary = true) (blunt : Blunt other) :
    scan c (text ++ other) = .ok (item, front ++ other) := by
  have head {d : Char} (begins : (text ++ other).head? = some d) : d = ' ' ∨ (text ++ behind).head? = some d :=
    head?_cut blunt begins
  unfold scan at read ⊢
  split at read
  next => exact absurd (congrArg Prod.fst (Except.ok.inj read)).symm lexical
  next noGap =>
  rw [if_neg noGap]
  cases string : string? c (text ++ behind) with
  | some found =>
    rw [string] at read
    simp only at read
    rw [read] at string
    obtain ⟨part, whole, run⟩ := string?_run string ordinary
    obtain ⟨quote, visible, next, again⟩ := run.read
    obtain rfl : text = part ++ front :=
      List.append_cancel_right (whole.trans (List.append_assoc part front behind).symm)
    have apart : (front ++ other).head? ≠ some quote := by
      intro begins
      rcases head?_cut blunt begins with space | same
      · exact visible space
      · exact next same
    rw [List.append_assoc, again _ apart]
  | none =>
    rw [string] at read
    rw [string?_none_of_head string fun d begins => head begins]
    simp only at read ⊢
    split at read
    next starts =>
      have read := Except.ok.inj read
      rw [if_pos starts, numeric_cut blunt (congrArg Prod.snd read), read]
    next noNumber =>
    rw [if_neg noNumber]
    split at read
    next block =>
      split at read
      next => cases read
      next => exact absurd (congrArg Prod.fst (Except.ok.inj read)).symm lexical
    next noBlock =>
    have noComment : ¬(c = '/' ∧ (text ++ other).head? = some '*') := by
      rintro ⟨slash, star⟩
      rcases head star with space | same
      · exact absurd space (by decide)
      · exact noBlock ⟨slash, same⟩
    rw [if_neg noComment]
    split at read
    next => exact absurd (congrArg Prod.fst (Except.ok.inj read)).symm lexical
    next noLine =>
    have noEnd : ¬(c = '#' ∨ c = '-' ∧ (text ++ other).head? = some '-') := by
      rintro (hash | ⟨dash, again⟩)
      · exact noLine (.inl hash)
      · rcases head again with space | same
        · exact absurd space (by decide)
        · exact noLine (.inr ⟨dash, same⟩)
    rw [if_neg noEnd]
    split at read
    next sign =>
      have read := Except.ok.inj read
      rw [if_pos sign, atSign_cut blunt (congrArg Prod.snd read), read]
    next noSign =>
    rw [if_neg noSign]
    split at read
    next mark =>
      have read := Except.ok.inj read
      obtain ⟨numerals, rest⟩ := span_cut blunt (show Text.isNumeral ' ' = false by decide) (congrArg Prod.snd read)
      have found : literal (c :: (text ++ behind).takeWhile Text.isNumeral) = item := congrArg Prod.fst read
      rw [if_pos mark, numerals, rest, found]
    next noMark =>
    rw [if_neg noMark]
    split at read
    next starts =>
      have read := Except.ok.inj read
      rw [if_pos starts, wordFrom_cut blunt (congrArg Prod.snd read), read]
    next noWord =>
      have read := Except.ok.inj read
      rw [if_neg noWord, symbol_cut blunt (congrArg Prod.snd read), read]

end Scan

end QueryFacts.Proofs.ItemBorders
