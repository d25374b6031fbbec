import Mathlib.Data.List.Chain
import QueryFacts.Proofs.Spelling

/-! Keywords of several words, as what they are read from. The lexemes are taken apart into groups
from left to right: a group is one lexeme, or the words of one keyword, and a run of words before
JOIN is never cut. In what is read no two neighbours are words of one keyword, so that reading it
again changes nothing. -/

namespace QueryFacts.Lexeme
open Text

/-- The words of one keyword: ORDER, GROUP or PARTITION with BY, or words that may stand before
JOIN with JOIN. -/
inductive IsCompound : List Lexeme → Prop where
  | ofBy {first last : Lexeme} (takes : first.takesBy = true) (ends : last.isWord "BY" = true) :
      IsCompound [first, last]
  | ofJoin {words : List Lexeme} {last : Lexeme} (more : words ≠ []) (each : ∀ word ∈ words, word.isJoinPrefix = true)
      (ends : last.isWord "JOIN" = true) : IsCompound (words ++ [last])

theorem IsCompound.several {first : Lexeme} {rest : List Lexeme} (words : IsCompound (first :: rest)) : rest ≠ [] := by
  rintro rfl
  generalize single : [first] = group at words
  cases words with
  | ofBy => cases single
  | ofJoin more => exact more (by simpa using congrArg List.length single)

theorem IsCompound.keywords {group : List Lexeme} (words : IsCompound group) :
    ∀ word ∈ group, word.isKeyword = true := by
  have ofLast {lexeme : Lexeme} {text : String} (ends : lexeme.isWord text = true) : lexeme.isKeyword = true :=
    ((Bool.and_eq_true _ _).mp ends).1
  cases words with
  | ofBy takes ends =>
    have begins := ((Bool.and_eq_true _ _).mp takes).1
    exact List.forall_mem_cons.mpr ⟨begins, List.forall_mem_singleton.mpr (ofLast ends)⟩
  | ofJoin _ each ends =>
    intro word member
    rcases List.mem_append.mp member with inside | last
    · exact ((Bool.and_eq_true _ _).mp (each word inside)).1
    · obtain rfl := List.mem_singleton.mp last
      exact ofLast ends

/-- What a group of lexemes is read as. -/
inductive ReadAs : List Lexeme → Lexeme → Prop where
  | single (lexeme : Lexeme) : ReadAs [lexeme] lexeme
  | compound {first : Lexeme} {rest : List Lexeme} (words : IsCompound (first :: rest)) : ReadAs (first :: rest)
      ⟨.keyword, String.intercalate " " ((first :: rest).map (·.value)), none, first.spaceBefore⟩

/-- A join keyword that is read after `front` takes all the words that may stand before JOIN: neither
the lexeme in front of its words is one, nor is JOIN itself. -/
def IsLongest (front group : List Lexeme) : Prop :=
  ∀ words last, group = words ++ [last] → words ≠ [] → (∀ word ∈ words, word.isJoinPrefix = true) →
    last.isWord "JOIN" = true →
    (∀ lexeme ∈ front.getLast?, lexeme.isJoinPrefix = false) ∧ last.isJoinPrefix = false

/-- Neighbours that are not words of one keyword. -/
def Apart (first next : Lexeme) : Prop :=
  ¬(first.takesBy = true ∧ next.isWord "BY" = true) ∧ ¬(first.isJoinPrefix = true ∧ next.isWord "JOIN" = true)

end QueryFacts.Lexeme

namespace QueryFacts.Proofs.CompoundKeywords
open Text Lexeme Spelling

section Groups

/-- JOIN comes after the words that may stand before it. -/
def joinFollows (lexemes : List Lexeme) : Bool := (lexemes.dropWhile isJoinPrefix).head?.any (·.isWord "JOIN")

/-- How lexemes are taken apart into groups, one group after the other. -/
inductive Grouping : List Lexeme → List (List Lexeme) → Prop where
  | nil : Grouping [] []
  | alone {first : Lexeme} {rest : List Lexeme} {groups : List (List Lexeme)}
      (noBy : ¬(first.takesBy = true ∧ rest.head?.any (·.isWord "BY") = true))
      (noJoin : ¬(first.isJoinPrefix = true ∧ joinFollows rest = true)) (grouping : Grouping rest groups) :
      Grouping (first :: rest) ([first] :: groups)
  | ofBy {first last : Lexeme} {rest : List Lexeme} {groups : List (List Lexeme)} (takes : first.takesBy = true)
      (ends : last.isWord "BY" = true) (grouping : Grouping rest groups) :
      Grouping (first :: last :: rest) ([first, last] :: groups)
  | ofJoin {words : List Lexeme} {last : Lexeme} {rest : List Lexeme} {groups : List (List Lexeme)} (more : words ≠ [])
      (each : ∀ word ∈ words, word.isJoinPrefix = true) (ends : last.isWord "JOIN" = true)
      (grouping : Grouping rest groups) :
      Grouping (words ++ last :: rest) ((words ++ [last]) :: groups)

private theorem compoundLength_eq (first : Lexeme) (rest : List Lexeme) : compoundLength first rest =
    if first.takesBy && rest.head?.any (·.isWord "BY") then 1
    else if first.isJoinPrefix && joinFollows rest then (rest.takeWhile isJoinPrefix).length + 1 else 0 := by
  have behind : rest.drop (rest.takeWhile isJoinPrefix).length = rest.dropWhile isJoinPrefix := by
    have whole : rest.takeWhile isJoinPrefix ++ rest.dropWhile isJoinPrefix = rest := List.takeWhile_append_dropWhile
    exact List.append_cancel_left ((List.prefix_iff_eq_append.mp (List.takeWhile_prefix _)).trans whole.symm)
  simp only [compoundLength, joinFollows, behind]
  rfl

theorem grouping (lexemes : List Lexeme) : Grouping lexemes (compounds lexemes) := by
  fun_induction compounds lexemes with
  | case1 => exact .nil
  | case2 first rest more ih =>
    let words := rest.takeWhile isJoinPrefix
    have whole : words ++ rest.dropWhile isJoinPrefix = rest := List.takeWhile_append_dropWhile
    have length : more = compoundLength first rest := rfl
    rw [compoundLength_eq] at length
    split at length
    next pair =>
      obtain ⟨takes, next⟩ := (Bool.and_eq_true _ _).mp pair
      cases rest with
      | nil => cases next
      | cons last rest =>
        rw [length] at ih ⊢
        exact .ofBy takes next ih
    next noBy =>
      split at length
      next joins =>
        obtain ⟨begins, next⟩ := (Bool.and_eq_true _ _).mp joins
        unfold joinFollows at next
        cases after : rest.dropWhile isJoinPrefix with
        | nil => rw [after] at next; cases next
        | cons last others =>
          rw [after] at whole next
          have taken : rest.take more = words ++ [last] :=
            calc rest.take more = (words ++ last :: others).take (words.length + 1) := by rw [whole, length]
              _ = words ++ [last] := List.take_length_add_append 1
          have left : rest.drop more = others :=
            calc rest.drop more = (words ++ last :: others).drop (words.length + 1) := by rw [whole, length]
              _ = others := List.drop_length_add_append 1
          have each : ∀ word ∈ first :: words, word.isJoinPrefix = true :=
            List.forall_mem_cons.mpr ⟨begins, List.all_eq_true.mp List.all_takeWhile⟩
          rw [left] at ih
          have group := Grouping.ofJoin (List.cons_ne_nil first words) each next ih
          rw [List.cons_append, whole] at group
          rw [taken, left]
          exact group
      next noJoin =>
        rw [length] at ih ⊢
        exact .alone (by simpa using noBy) (by simpa using noJoin) ih

variable {lexemes : List Lexeme} {groups : List (List Lexeme)}

private theorem noBy_of_isJoinPrefix {lexeme : Lexeme} (joins : lexeme.isJoinPrefix = true) :
    lexeme.takesBy = false := by
  have apart : ∀ word ∈ Keyword.joinPrefixes, ["ORDER", "GROUP", "PARTITION"].contains word = false := by decide
  simp only [isJoinPrefix, Keyword.isJoinPrefix, Bool.and_eq_true, List.contains_iff_mem] at joins
  rw [takesBy, apart _ joins.2, Bool.and_false]

/-- The last word of a compound does not stand before JOIN. -/
theorem isJoinPrefix_of_isWord {lexeme : Lexeme} {word : String} (last : word = "BY" ∨ word = "JOIN")
    (ends : lexeme.isWord word = true) : lexeme.isJoinPrefix = false := by
  have letters : word.toList.all (·.isUpper) = true ∧ Keyword.isJoinPrefix word = false := by
    rcases last with rfl | rfl <;> decide
  have upper := upper_of_spelling letters.1 (spelling_of_isWord ends)
  rw [String.ofList_toList] at upper
  simp only [isJoinPrefix, upper, letters.2, Bool.and_false]

private theorem joinFollows_words {words rest : List Lexeme} {last : Lexeme}
    (each : ∀ word ∈ words, word.isJoinPrefix = true)
    (ends : last.isWord "JOIN" = true) : joinFollows (words ++ last :: rest) = true := by
  have stops := isJoinPrefix_of_isWord (.inr rfl) ends
  simp [joinFollows, List.dropWhile_append_of_pos each, stops, ends]

/-- Lexemes are taken apart in one way only. -/
theorem compounds_eq (grouping : Grouping lexemes groups) : compounds lexemes = groups := by
  induction grouping with
  | nil => rw [compounds]
  | @alone first rest groups noBy noJoin _ ih =>
    have length : compoundLength first rest = 0 := by
      rw [compoundLength_eq, if_neg (by simpa using noBy), if_neg (by simpa using noJoin)]
    rw [compounds, length, List.take_zero, List.drop_zero, ih]
  | @ofBy first last rest _ takes ends _ ih =>
    have pair : (first.takesBy && (last :: rest).head?.any (·.isWord "BY")) = true :=
      (Bool.and_eq_true _ _).mpr ⟨takes, ends⟩
    have length : compoundLength first (last :: rest) = 1 := by rw [compoundLength_eq, if_pos pair]
    rw [compounds, length, List.take_succ_cons, List.take_zero, List.drop_succ_cons, List.drop_zero, ih]
  | @ofJoin words last rest groups more each ends _ ih =>
    obtain ⟨first, others, rfl⟩ := List.exists_cons_of_ne_nil more
    obtain ⟨begins, also⟩ := List.forall_mem_cons.mp each
    have stops := isJoinPrefix_of_isWord (.inr rfl) ends
    have taken : (others ++ last :: rest).takeWhile isJoinPrefix = others := by
      rw [List.takeWhile_append_of_pos also, List.takeWhile_cons_of_neg (by simp [stops]), List.append_nil]
    have length : compoundLength first (others ++ last :: rest) = others.length + 1 := by
      rw [compoundLength_eq, noBy_of_isJoinPrefix begins, begins, joinFollows_words also ends, taken]
      rfl
    rw [List.cons_append, compounds, length, List.take_length_add_append, List.drop_length_add_append]
    exact congrArg _ ih

theorem mergeCompounds_eq (grouping : Grouping lexemes groups) : mergeCompounds lexemes = groups.map ofCompound := by
  rw [mergeCompounds, compounds_eq grouping]

theorem mergeCompounds_cons {first : Lexeme} {rest : List Lexeme}
    (noBy : ¬(first.takesBy = true ∧ rest.head?.any (·.isWord "BY") = true))
    (noJoin : ¬(first.isJoinPrefix = true ∧ joinFollows rest = true)) :
    mergeCompounds (first :: rest) = first :: mergeCompounds rest :=
  mergeCompounds_eq (.alone noBy noJoin (grouping rest))

theorem flatten_groups (grouping : Grouping lexemes groups) : groups.flatten = lexemes := by
  induction grouping with
  | nil => rfl
  | alone _ _ _ ih | ofBy _ _ _ ih | ofJoin _ _ _ _ ih => simp [ih]

theorem ofCompound_readAs {first : Lexeme} {rest : List Lexeme} (words : IsCompound (first :: rest)) :
    ReadAs (first :: rest) (ofCompound (first :: rest)) := by
  obtain ⟨second, others, rfl⟩ := List.exists_cons_of_ne_nil words.several
  exact .compound words

theorem readAs_of_mem (grouping : Grouping lexemes groups) : ∀ group ∈ groups, ReadAs group (ofCompound group) := by
  induction grouping with
  | nil => exact nofun
  | alone _ _ _ ih => exact List.forall_mem_cons.mpr ⟨.single _, ih⟩
  | ofBy takes ends _ ih => exact List.forall_mem_cons.mpr ⟨ofCompound_readAs (.ofBy takes ends), ih⟩
  | @ofJoin words last _ _ more each ends _ ih =>
    obtain ⟨first, others, rfl⟩ := List.exists_cons_of_ne_nil more
    exact List.forall_mem_cons.mpr ⟨ofCompound_readAs (.ofJoin more each ends), ih⟩

theorem groups_readAs (grouping : Grouping lexemes groups) : List.Forall₂ ReadAs groups (groups.map ofCompound) :=
  List.forall₂_map_right_iff.mpr (List.forall₂_same.mpr (readAs_of_mem grouping))

/-- The words before JOIN that come next are not followed by it when the last lexeme before them
is one of them, too. -/
def Held (before lexemes : List Lexeme) : Prop :=
  ∀ lexeme ∈ before.getLast?, ¬(lexeme.isJoinPrefix = true ∧ joinFollows lexemes = true)

private theorem held_of_isWord {before lexemes : List Lexeme} {last : Lexeme} {word : String}
    (known : word = "BY" ∨ word = "JOIN")
    (ends : last.isWord word = true) : Held (before ++ [last]) lexemes := by
  rintro lexeme member ⟨joins, -⟩
  obtain rfl : last = lexeme := by simpa using member
  rw [isJoinPrefix_of_isWord known ends] at joins
  cases joins

private theorem longest_cons {group : List Lexeme} {groups : List (List Lexeme)} {earlier : List Lexeme}
    (head : IsLongest earlier group)
    (tail : ∀ before other after, groups = before ++ other :: after →
      IsLongest (earlier ++ group ++ before.flatten) other) :
    ∀ before other after, group :: groups = before ++ other :: after → IsLongest (earlier ++ before.flatten) other := by
  intro before other after whole
  cases before with
  | nil =>
    obtain ⟨rfl, -⟩ := List.cons.inj whole
    simpa using head
  | cons first before =>
    obtain ⟨rfl, rest⟩ := List.cons.inj whole
    simpa using tail before other after rest

/-- Every join keyword has all the words that may stand before JOIN. -/
theorem groups_longest (grouping : Grouping lexemes groups) {earlier : List Lexeme} (held : Held earlier lexemes) :
    ∀ before group after, groups = before ++ group :: after → IsLongest (earlier ++ before.flatten) group := by
  induction grouping generalizing earlier with
  | nil =>
    intro before group after whole
    simp at whole
  | @alone first _ _ _ noJoin _ ih =>
    apply longest_cons
    · intro words last whole more
      exact absurd (by simpa using congrArg List.length whole) more
    · apply ih
      rintro lexeme member both
      obtain rfl : first = lexeme := by simpa using member
      exact noJoin both
  | @ofBy first last _ _ _ ends _ ih =>
    apply longest_cons
    · intro words other whole more each join
      obtain rfl : last = other := by simpa using congrArg List.getLast? whole
      simp only [isWord, Bool.and_eq_true, beq_iff_eq] at ends join
      exact absurd (ends.2.symm.trans join.2) (by decide)
    · apply ih
      rw [show earlier ++ [first, last] = (earlier ++ [first]) ++ [last] by simp]
      exact held_of_isWord (.inl rfl) ends
  | @ofJoin words last _ _ _ each ends _ ih =>
    apply longest_cons
    · intro others other whole _ _ join
      refine ⟨?_, isJoinPrefix_of_isWord (.inr rfl) join⟩
      intro lexeme member
      rw [Bool.eq_false_iff]
      exact fun joins => held lexeme member ⟨joins, joinFollows_words each ends⟩
    · apply ih
      rw [← List.append_assoc]
      exact held_of_isWord (.inr rfl) ends

end Groups

section Neighbours

variable {lexemes : List Lexeme} {groups : List (List Lexeme)}

/-- A space is within a keyword of several words, and in no word of one. -/
theorem single_or_spaced {group : List Lexeme} {lexeme : Lexeme} (reads : ReadAs group lexeme) :
    group = [lexeme] ∨ ' ' ∈ lexeme.value.toList := by
  cases reads with
  | single => exact .inl rfl
  | @compound first rest words =>
    obtain ⟨second, others, rfl⟩ := List.exists_cons_of_ne_nil words.several
    apply Or.inr
    rw [List.map_cons, List.map_cons, String.intercalate_cons_cons]
    simp

theorem isWord_of_spaced {lexeme : Lexeme} (spaced : ' ' ∈ lexeme.value.toList) {word : String}
    (solid : ' ' ∉ word.toList) :
    lexeme.isWord word = false := by
  rw [Bool.eq_false_iff]
  intro reads
  obtain ⟨-, same⟩ := (Bool.and_eq_true _ _).mp reads
  apply solid
  rw [← beq_iff_eq.mp same]
  exact List.mem_map.mpr ⟨' ', spaced, rfl⟩

theorem starts_none_of_spaced {lexeme : Lexeme} (spaced : ' ' ∈ lexeme.value.toList) :
    lexeme.takesBy = false ∧ lexeme.isJoinPrefix = false := by
  have inside : ' ' ∈ (upper lexeme.value).toList := by
    rw [upper, String.toList_ofList]
    exact List.mem_flatMap.mpr ⟨' ', spaced, by decide⟩
  have other {words : List String} (solid : ∀ word ∈ words, ' ' ∉ word.toList) :
      words.contains (upper lexeme.value) = false := by
    rw [Bool.eq_false_iff]
    exact fun member => solid _ (List.contains_iff_mem.mp member) inside
  constructor
  · rw [takesBy, other (by decide), Bool.and_false]
  · rw [isJoinPrefix, Keyword.isJoinPrefix, other (by decide), Bool.and_false]

private theorem apart_of_spaced {lexeme : Lexeme} (spaced : ' ' ∈ lexeme.value.toList) (next : Lexeme) :
    Apart lexeme next := by
  obtain ⟨noBy, noJoin⟩ := starts_none_of_spaced spaced
  simp [Apart, noBy, noJoin]

private theorem head_merged (grouping : Grouping lexemes groups) :
    ∀ next ∈ (groups.map ofCompound).head?, lexemes.head? = some next ∨ ' ' ∈ next.value.toList := by
  intro next member
  have whole := flatten_groups grouping
  cases groups_readAs grouping with
  | nil => cases member
  | cons reads _ =>
    obtain rfl := Option.some.inj member
    apply (single_or_spaced reads).imp_left
    intro single
    rw [← whole, single]
    rfl

/-- In what is read no two neighbours are words of one keyword. -/
theorem groups_apart (grouping : Grouping lexemes groups) : (groups.map ofCompound).IsChain Apart := by
  induction grouping with
  | nil => exact .nil
  | @alone first rest groups noBy noJoin grouping ih =>
    apply List.isChain_cons.mpr
    refine ⟨?_, ih⟩
    intro next member
    rcases head_merged grouping next member with head | spaced
    · obtain ⟨others, rfl⟩ := List.head?_eq_some_iff.mp head
      constructor
      · rintro ⟨takes, ends⟩
        exact noBy ⟨takes, ends⟩
      · rintro ⟨joins, ends⟩
        have follows : joinFollows ([] ++ next :: others) = true := joinFollows_words nofun ends
        exact noJoin ⟨joins, follows⟩
    · simp [Apart, isWord_of_spaced spaced]
  | @ofBy first last _ _ takes ends _ ih =>
    have spaced := (single_or_spaced (ofCompound_readAs (.ofBy takes ends))).resolve_left (by simp)
    exact List.isChain_cons.mpr ⟨fun next _ => apart_of_spaced spaced next, ih⟩
  | @ofJoin words last _ _ more each ends _ ih =>
    obtain ⟨first, others, rfl⟩ := List.exists_cons_of_ne_nil more
    have spaced := (single_or_spaced (ofCompound_readAs (.ofJoin more each ends))).resolve_left (by simp)
    exact List.isChain_cons.mpr ⟨fun next _ => apart_of_spaced spaced next, ih⟩

/-- Where no two neighbours are words of one keyword, nothing is read as one. -/
theorem groups_of_apart (grouping : Grouping lexemes groups) (apart : lexemes.IsChain Apart) :
    groups.map ofCompound = lexemes := by
  induction grouping with
  | nil => rfl
  | alone _ _ _ ih => exact congrArg _ (ih apart.tail)
  | ofBy takes ends => exact absurd ⟨takes, ends⟩ (List.isChain_cons_cons.mp apart).1.1
  | @ofJoin words last rest groups more each ends =>
    obtain ⟨front, word, rfl⟩ := (List.eq_nil_or_concat' words).resolve_left more
    rw [List.append_assoc, List.singleton_append] at apart
    have joins : word.isJoinPrefix = true := each word (by simp)
    exact absurd ⟨joins, ends⟩ (List.isChain_append_cons_cons.mp apart).2.1.2

theorem mergeCompounds_of_apart (apart : lexemes.IsChain Apart) : mergeCompounds lexemes = lexemes :=
  groups_of_apart (grouping lexemes) apart

end Neighbours

/-- The lexemes of a text are read in groups. Each is one lexeme that stays as it is, or the words of one
keyword, which takes all the words that may stand before JOIN; the groups lose none of the lexemes. What is
read has no neighbours left that are words of one keyword, and is read as itself. -/
theorem mergeCompounds_groups (lexemes : List Lexeme) :
    (∃ groups, groups.flatten = lexemes ∧ List.Forall₂ ReadAs groups (mergeCompounds lexemes) ∧
      ∀ before group after, groups = before ++ group :: after → IsLongest before.flatten group) ∧
    (mergeCompounds lexemes).IsChain Apart ∧ mergeCompounds (mergeCompounds lexemes) = mergeCompounds lexemes := by
  have groups := grouping lexemes
  have apart := groups_apart groups
  have held : Held [] lexemes := fun _ member => absurd member (Option.not_mem_none _)
  refine ⟨⟨compounds lexemes, flatten_groups groups, groups_readAs groups, ?_⟩, apart, mergeCompounds_of_apart apart⟩
  exact groups_longest groups held

end QueryFacts.Proofs.CompoundKeywords
