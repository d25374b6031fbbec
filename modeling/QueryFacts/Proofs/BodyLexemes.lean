import QueryFacts.Proofs.LexemeItems

/-! The lexemes between two parentheses are those of the text between them: nothing around
a parenthesis tells keywords from names inside it, and no keyword reaches across it. -/

namespace QueryFacts.Lexeme

/-- What a lexeme reads, without what is in front of it. -/
def bare (lexeme : Lexeme) : Lexeme := { lexeme with spaceBefore := true }

@[simp] theorem bare_kind (lexeme : Lexeme) : lexeme.bare.kind = lexeme.kind := rfl

@[simp] theorem bare_value (lexeme : Lexeme) : lexeme.bare.value = lexeme.value := rfl

@[simp] theorem bare_isPunctuation (lexeme : Lexeme) (text : String) :
    lexeme.bare.isPunctuation text = lexeme.isPunctuation text := rfl

@[simp] theorem bare_isKeyword (lexeme : Lexeme) : lexeme.bare.isKeyword = lexeme.isKeyword := rfl

end QueryFacts.Lexeme

namespace QueryFacts.Proofs.BodyLexemes
open Lexer Lexeme LexemeItems CompoundKeywords

theorem kind_of_isPunctuation {lexeme : Lexeme} {text : String} (mark : lexeme.isPunctuation text = true) :
    lexeme.kind = .punctuation ∧ lexeme.value = text := by
  simpa [isPunctuation] using mark

theorem not_keyword_of_isPunctuation {lexeme : Lexeme} {text : String} (mark : lexeme.isPunctuation text = true) :
    lexeme.isKeyword = false := by
  simp [isKeyword, (kind_of_isPunctuation mark).1]

section Boundary

variable {bound : Lexeme}

private theorem any_isWord_append (free : bound.isKeyword = false) (front rest : List Lexeme) (text : String) :
    (front ++ bound :: rest).head?.any (·.isWord text) = front.head?.any (·.isWord text) := by
  cases front with
  | nil => simp [isWord, free]
  | cons => rfl

private theorem joinFollows_append (free : bound.isKeyword = false) (front rest : List Lexeme) :
    joinFollows (front ++ bound :: rest) = joinFollows front := by
  have stops : (bound :: rest).dropWhile isJoinPrefix = bound :: rest :=
    List.dropWhile_cons_of_neg (by simp [isJoinPrefix, free])
  rw [joinFollows, joinFollows, List.dropWhile_append]
  split
  next all =>
    rw [List.isEmpty_iff.mp all, stops]
    exact any_isWord_append free [] rest "JOIN"
  next => exact any_isWord_append free _ rest "JOIN"

theorem grouping_alone (free : bound.isKeyword = false) {rest : List Lexeme} {groups : List (List Lexeme)}
    (grouping : Grouping rest groups) :
    Grouping (bound :: rest) ([bound] :: groups) :=
  .alone (by simp [takesBy, free]) (by simp [isJoinPrefix, free]) grouping

theorem grouping_append (free : bound.isKeyword = false) {front rest : List Lexeme} {groups others : List (List Lexeme)}
    (before : Grouping front groups) (after : Grouping rest others) :
    Grouping (front ++ bound :: rest) (groups ++ [bound] :: others) := by
  induction before with
  | nil => exact grouping_alone free after
  | alone noBy noJoin _ ih =>
    rw [← any_isWord_append free _ rest] at noBy
    rw [← joinFollows_append free _ rest] at noJoin
    exact .alone noBy noJoin ih
  | ofBy takes ends _ ih => exact .ofBy takes ends ih
  | ofJoin more each ends _ ih =>
    rw [List.append_assoc]
    exact .ofJoin more each ends ih

/-- A lexeme that is no keyword stays by itself. -/
theorem mergeCompounds_free (free : bound.isKeyword = false) (front rest : List Lexeme) :
    mergeCompounds (front ++ bound :: rest) = mergeCompounds front ++ bound :: mergeCompounds rest := by
  rw [mergeCompounds_eq (grouping_append free (grouping front) (grouping rest)), List.map_append]
  rfl

/-- Groups on both sides of a lexeme that is no keyword are groups without it. -/
theorem grouping_split (free : bound.isKeyword = false) {lexemes : List Lexeme} {groups others : List (List Lexeme)}
    (grouping : Grouping lexemes (groups ++ [bound] :: others)) :
    ∃ before after, lexemes = before ++ bound :: after ∧ Grouping before groups ∧ Grouping after others := by
  generalize whole : groups ++ [bound] :: others = all at grouping
  induction grouping generalizing groups with
  | nil => simp at whole
  | @alone first rest later noBy noJoin grouping ih =>
    cases groups with
    | nil =>
      obtain ⟨same, rfl⟩ := List.cons.inj whole
      obtain rfl : bound = first := by simpa using same
      exact ⟨[], rest, rfl, .nil, grouping⟩
    | cons group groups =>
      obtain ⟨rfl, same⟩ := List.cons.inj whole
      obtain ⟨before, after, rfl, left, right⟩ := ih same
      rw [any_isWord_append free] at noBy
      rw [joinFollows_append free] at noJoin
      exact ⟨first :: before, after, rfl, .alone noBy noJoin left, right⟩
  | ofBy takes ends _ ih =>
    cases groups with
    | nil => simp at whole
    | cons group groups =>
      obtain ⟨rfl, same⟩ := List.cons.inj whole
      obtain ⟨before, after, rfl, left, right⟩ := ih same
      exact ⟨_, after, rfl, .ofBy takes ends left, right⟩
  | @ofJoin words last _ _ more each ends _ ih =>
    cases groups with
    | nil =>
      obtain ⟨same, -⟩ := List.cons.inj whole
      exact absurd (by simpa using congrArg List.length same) more
    | cons group groups =>
      obtain ⟨rfl, same⟩ := List.cons.inj whole
      obtain ⟨before, after, rfl, left, right⟩ := ih same
      exact ⟨words ++ last :: before, after, by simp, .ofJoin more each ends left, right⟩

/-- On both sides of a lexeme that is no keyword, keywords are joined as they would be alone. -/
theorem mergeCompounds_split (free : bound.isKeyword = false) {lexemes front rest : List Lexeme}
    (merged : mergeCompounds lexemes = front ++ bound :: rest) :
    ∃ before after, lexemes = before ++ bound :: after ∧ mergeCompounds before = front ∧
        mergeCompounds after = rest := by
  obtain ⟨groups, others, split, rfl, later⟩ := List.map_eq_append_iff.mp merged
  obtain ⟨group, others, rfl, joined, rfl⟩ := List.map_eq_cons_iff.mp later
  have whole := grouping lexemes
  rw [split] at whole
  have reads := readAs_of_mem whole group (by simp)
  rw [joined] at reads
  cases reads with
  | single =>
    obtain ⟨before, after, parts, left, right⟩ := grouping_split free whole
    exact ⟨before, after, parts, mergeCompounds_eq left, mergeCompounds_eq right⟩
  | compound => cases free

private theorem reclassify_punctuation {before after : Option Lexeme} {lexeme : Lexeme}
    (kind : (reclassify before lexeme after).kind = .punctuation) : reclassify before lexeme after = lexeme := by
  unfold reclassify at kind ⊢
  split at kind
  next =>
    dsimp only at kind ⊢
    split at kind
    next => cases kind
    next other => rw [if_neg other]
  next =>
    dsimp only at kind ⊢
    split at kind
    next starts => rw [if_pos starts]
    next => cases kind
  next => rfl

theorem reclassifyFrom_after {before : Option Lexeme} (mark : bound.kind = .punctuation)
    {lexemes front rest : List Lexeme}
    (known : reclassifyFrom before lexemes = front ++ bound :: rest) :
    ∃ first after, lexemes = first ++ bound :: after ∧ reclassifyFrom (some bound) after = rest := by
  induction lexemes generalizing before front with
  | nil =>
    cases front with
    | nil => cases known
    | cons lexeme others => cases known
  | cons lexeme others ih =>
    rw [reclassifyFrom] at known
    cases front with
    | nil =>
      obtain ⟨same, after⟩ := List.cons.inj known
      have kept := reclassify_punctuation (same ▸ mark)
      rw [same] at after
      exact ⟨[], others, by rw [← kept, same]; rfl, after⟩
    | cons other front =>
      obtain ⟨first, after, rfl, later⟩ := ih (List.cons.inj known).2
      exact ⟨lexeme :: first, after, rfl, later⟩

private theorem reclassify_last (mark : bound.kind = .punctuation) (plain : bound.value ≠ "(") (before : Option Lexeme)
    (lexeme : Lexeme) : reclassify before lexeme (some bound) = reclassify before lexeme none := by
  have dot : (bound.kind == .dot) = false := by rw [mark]; rfl
  have opening : bound.isPunctuation "(" = false := by simp [isPunctuation, plain]
  simp only [reclassify, Option.any_some, Option.any_none, dot, opening]

/-- What comes before a punctuation mark that is no opening parenthesis is told without it. -/
theorem reclassifyFrom_before {before : Option Lexeme} (mark : bound.kind = .punctuation) (plain : bound.value ≠ "(")
    {lexemes front rest : List Lexeme} (known : reclassifyFrom before lexemes = front ++ bound :: rest) :
    ∃ first after, lexemes = first ++ bound :: after ∧ reclassifyFrom before first = front := by
  induction lexemes generalizing before front with
  | nil =>
    cases front with
    | nil => cases known
    | cons lexeme others => cases known
  | cons lexeme others ih =>
    rw [reclassifyFrom] at known
    cases front with
    | nil =>
      have same := (List.cons.inj known).1
      have kept := reclassify_punctuation (same ▸ mark)
      exact ⟨[], others, by rw [← kept, same]; rfl, rfl⟩
    | cons other front =>
      obtain ⟨same, later⟩ := List.cons.inj known
      obtain ⟨first, after, rfl, earlier⟩ := ih later
      refine ⟨lexeme :: first, after, rfl, ?_⟩
      have context : reclassify before lexeme first.head? = other := by
        rw [← same]
        cases first with
        | nil => exact (reclassify_last mark plain before lexeme).symm
        | cons next others => rfl
      rw [reclassifyFrom, context, ← earlier, same]

/-- After an opening parenthesis, lexemes are told as at the start of a text. -/
theorem reclassifyFrom_opening (opening : bound.isPunctuation "(" = true) (lexemes : List Lexeme) :
    reclassifyFrom (some bound) lexemes = reclassifyAll lexemes := by
  have dot : (bound.kind == .dot) = false := by rw [(kind_of_isPunctuation opening).1]; rfl
  cases lexemes with
  | nil => rfl
  | cons lexeme rest =>
    have known : reclassify (some bound) lexeme rest.head? = reclassify none lexeme rest.head? := by
      simp only [reclassify, Option.any_some, Option.any_none, Option.all_some, Option.all_none,
        dot, opening, Bool.or_true]
    rw [reclassifyAll, reclassifyFrom, reclassifyFrom, known]

end Boundary

/-- The lexemes between two parentheses of a text are found in it without what is around them. -/
theorem lexemes_between {lexemes front body rest : List Lexeme} {first last : Lexeme}
    (opening : first.isPunctuation "(" = true) (closing : last.isPunctuation ")" = true)
    (found : mergeCompounds (reclassifyAll lexemes) = front ++ first :: (body ++ last :: rest)) :
    ∃ inner, inner ⊆ lexemes ∧ mergeCompounds (reclassifyAll inner) = body := by
  obtain ⟨before, around, known, -, merged⟩ := mergeCompounds_split (not_keyword_of_isPunctuation opening) found
  obtain ⟨inside, after, rfl, body, -⟩ := mergeCompounds_split (not_keyword_of_isPunctuation closing) merged
  obtain ⟨start, raw, rfl, later⟩ := reclassifyFrom_after (kind_of_isPunctuation opening).1 known
  obtain ⟨mark, text⟩ := kind_of_isPunctuation closing
  obtain ⟨inner, ending, rfl, told⟩ := reclassifyFrom_before mark (by rw [text]; decide) later
  refine ⟨inner, ?_, ?_⟩
  · intro lexeme member
    simp [member]
  · rw [← reclassifyFrom_opening opening, told, body]

section Bare

private theorem reclassify_bare (before after : Option Lexeme) (lexeme : Lexeme) :
    reclassify (before.map bare) lexeme.bare (after.map bare) = (reclassify before lexeme after).bare := by
  simp only [reclassify, bare_kind, bare_value, Option.any_map, Option.all_map, bare_isPunctuation,
    bare_isKeyword]
  split
  next => split <;> rfl
  next => split <;> rfl
  next => rfl

theorem reclassifyFrom_bare (before : Option Lexeme) (lexemes : List Lexeme) :
    reclassifyFrom (before.map bare) (lexemes.map bare) = (reclassifyFrom before lexemes).map bare := by
  induction lexemes generalizing before with
  | nil => rfl
  | cons lexeme rest ih =>
    have known := reclassify_bare before rest.head? lexeme
    have later := ih (some (reclassify before lexeme rest.head?))
    rw [List.map_cons, reclassifyFrom, List.head?_map, known, reclassifyFrom, List.map_cons]
    exact congrArg _ later

private theorem ofCompound_bare {words : List Lexeme} (nonempty : words ≠ []) :
    ofCompound (words.map bare) = (ofCompound words).bare := by
  match words, nonempty with
  | [single], _ => rfl
  | first :: second :: rest, _ =>
    have values : ((first :: second :: rest).map bare).map (·.value) = (first :: second :: rest).map (·.value) := by
      rw [List.map_map]
      rfl
    change (⟨.keyword, String.intercalate " " (((first :: second :: rest).map bare).map (·.value)), none, true⟩ :
        Lexeme) = _
    rw [values]
    rfl

theorem grouping_bare {lexemes : List Lexeme} {groups : List (List Lexeme)} (grouping : Grouping lexemes groups) :
    Grouping (lexemes.map bare) (groups.map (·.map bare)) := by
  induction grouping with
  | nil => exact .nil
  | @alone first rest _ noBy noJoin _ ih =>
    have next : (rest.map bare).head?.any (·.isWord "BY") = rest.head?.any (·.isWord "BY") := by
      rw [List.head?_map, Option.any_map]
      rfl
    have follows : joinFollows (rest.map bare) = joinFollows rest := by
      rw [joinFollows, joinFollows, List.dropWhile_map, List.head?_map, Option.any_map]
      rfl
    exact .alone (next ▸ noBy) (follows ▸ noJoin) ih
  | ofBy takes ends _ ih => exact .ofBy takes ends ih
  | @ofJoin words last _ _ more each ends _ ih =>
    have others : ∀ word ∈ words.map bare, word.isJoinPrefix = true := List.forall_mem_map.mpr each
    have closes : last.bare.isWord "JOIN" = true := ends
    simpa using Grouping.ofJoin (mt List.map_eq_nil_iff.mp more) others closes ih

theorem mergeCompounds_bare (lexemes : List Lexeme) :
    mergeCompounds (lexemes.map bare) = (mergeCompounds lexemes).map bare := by
  have groups := grouping lexemes
  rw [mergeCompounds_eq (grouping_bare groups), mergeCompounds, List.map_map, List.map_map]
  apply List.map_congr_left
  intro group member
  apply ofCompound_bare
  rintro rfl
  cases readAs_of_mem groups [] member

theorem ofItemsFrom_bare {lexemes : List Lexeme} (singles : ∀ lexeme ∈ lexemes, lexeme.Single) (glued : Bool) :
    (ofItemsFrom glued (lexemes.flatMap Lexeme.items)).map bare = lexemes.map bare := by
  induction lexemes generalizing glued with
  | nil => rfl
  | cons lexeme rest ih =>
    have others := ih (fun other member => singles other (List.mem_cons_of_mem _ member)) true
    rw [List.flatMap_cons, (singles lexeme List.mem_cons_self).items, List.singleton_append,
      ofItemsFrom, List.map_cons, others]
    simp [bare]

/-- Lexemes of the same items are joined to the same keywords. -/
theorem merged_bare {lexemes others : List Lexeme} (singles : ∀ lexeme ∈ lexemes, lexeme.Single)
    (also : ∀ lexeme ∈ others, lexeme.Single) (same : lexemes.flatMap Lexeme.items = others.flatMap Lexeme.items) :
    (mergeCompounds (reclassifyAll lexemes)).map bare = (mergeCompounds (reclassifyAll others)).map bare := by
  have texts : lexemes.map bare = others.map bare := by
    rw [← ofItemsFrom_bare singles false, same, ofItemsFrom_bare also false]
  have known := congrArg (reclassifyFrom none) texts
  have told := reclassifyFrom_bare none
  rw [Option.map_none] at told
  rw [told, told] at known
  rw [← mergeCompounds_bare, ← mergeCompounds_bare, reclassifyAll, reclassifyAll, known]

end Bare

end QueryFacts.Proofs.BodyLexemes
