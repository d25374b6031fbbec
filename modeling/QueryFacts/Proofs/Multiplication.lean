import QueryFacts.Proofs.Formulas

/-! Products in a select list. Whether a star multiplies is told from the lexeme in front of it alone. Behind
a name, a literal or a parenthesis it does, but a keyword such as NULL or END ends an operand as well, and behind
one the star is taken for the wildcard of all columns. -/

namespace QueryFacts.Proofs.Multiplication
open Formulas Lexeme Parenthesis Spots Clauses ColumnSpots MentionSpots ExpressionSpots SelectList NestingRun
open CreatedColumns CallArguments
  LiteralRowReading SpelledLiterals Unnested MeantColumns

section Statement

variable {selection : FormulaSelection}

theorem letters_selection : ∀ word ∈ FormulaSelection.words, word.toList.all (·.isUpper) = true := by decide

theorem within_selection (selection : FormulaSelection) :
    ∀ lexeme ∈ selection.classified, lexeme.KeywordsIn FormulaSelection.words := by
  refine List.forall_mem_cons.mpr
    ⟨within_of_word (by decide) selection.select.bare, List.forall_mem_append.mpr ⟨fun lexeme member keyword => ?_,
    List.forall_mem_cons.mpr
      ⟨within_of_word (by decide) selection.source.bare, List.forall_mem_singleton.mpr fun keyword => ?_⟩⟩⟩
  · obtain ⟨word, listed, spelled⟩ := within_formula selection.formula lexeme member keyword
    exact ⟨word, List.mem_cons_of_mem _ (List.mem_cons_of_mem _ listed), spelled⟩
  · cases (unkeyed_of_name selection.named).symm.trans keyword

theorem reclassifyAll_selection (selection : FormulaSelection) :
    reclassifyAll selection.lexemes = selection.classified := by
  have noDot : selection.select.lexeme.isDot = false := (completes_of_word selection.select.bare).noDot
  have table : selection.table.kind = .name := eq_of_beq selection.named
  have undotted : [selection.table].head?.any isDot = false := by simp [isDot, table]
  have source : (selection.source.lexeme :: [selection.table]).head?.any isDot = false :=
    (completes_of_word selection.source.bare).noDot
  rw [reclassifyAll, FormulaSelection.lexemes, FormulaSelection.around, reclassifyFrom,
    reclassify_word (by decide) selection.select.bare rfl (noDot_lexemes selection.formula _),
    reclassifyFrom_formula selection.formula noDot source,
    reclassifyFrom_word (completes_last selection.formula).noDot
      (by decide) selection.source.bare undotted, reclassifyFrom,
    reclassify_other (by simp [table])]
  rfl

theorem ofText_selection {text : List Char} (read : (Lexer.items text).map ofItems = .ok selection.lexemes) :
    Lexeme.ofText text = .ok selection.classified := by
  have words : ∀ word ∈ FormulaSelection.words, word.toList ≠ "JOIN".toList ∧ word.toList ≠ "BY".toList := by decide
  have merged : mergeCompounds selection.classified = selection.classified := by
    refine JoinKeywords.mergeCompounds_endless fun lexeme member => ?_
    cases keyword : lexeme.isKeyword with
    | false => simp [isWord, keyword]
    | true =>
      obtain ⟨word, listed, -, -, spelled⟩ :=
        word_of_within letters_selection (within_selection selection lexeme member) keyword
      have other := words word listed
      rw [← spelled] at other
      simp only [isWord, keyword, Bool.true_and, beq_eq_false_iff_ne]
      exact other
  have ended : dropTerminators selection.classified = selection.classified := by
    have table : selection.table.kind = .name := eq_of_beq selection.named
    have last : selection.classified.getLast? = some selection.table := by
      simp [FormulaSelection.classified, FormulaSelection.around, List.getLast?_cons]
    refine WrittenBody.dropTerminators_eq ?_
    rw [last, Option.any_some]
    simp [isPunctuation, table]
  rw [Lexeme.ofText]
  cases items : Lexer.items text with
  | error stop => rw [items] at read; cases read
  | ok found =>
    rw [items] at read
    have whole : ofItems found = selection.lexemes := Except.ok.inj read
    simp only [Except.map, whole, reclassifyAll_selection, merged, ended]

theorem exists_reading_selection {limits : Limits} {text : String}
    (read : (Lexer.items (normalize text.toList)).map ofItems = .ok selection.lexemes)
    (few : selection.classified.length ≤ limits.maxTokens) (deep : selection.formula.depth ≤ limits.maxNestingDepth) :
    ∃ sequence, Reading limits text selection.classified sequence := by
  have flat {part : List Lexeme} (level : ∀ lexeme ∈ part, lexeme.side? = none) (bound : Nat) :
      Selections.Shallow (sides part) bound :=
    Selections.shallow_level level bound
  have word {word : String} (spelled : BareWord word) : spelled.lexeme.side? = none :=
    side?_of_keyword (by rw [isKeyword, (spelled_of_word spelled.bare).1]; rfl)
  have shallow : Selections.Shallow (sides selection.classified) selection.formula.depth := by
    have parts : sides selection.classified = sides [selection.select.lexeme] ++ (sides selection.formula.classified ++
        sides [selection.source.lexeme, selection.table]) := by simp [FormulaSelection.classified,
          FormulaSelection.around, sides]
    rw [parts]
    refine (flat (List.forall_mem_singleton.mpr (word selection.select)) _).append
      ((shallow_formula selection.formula).append (flat ?_ _))
    exact List.forall_mem_cons.mpr ⟨word selection.source,
      List.forall_mem_singleton.mpr (wordless_of_name selection.named).1⟩
  obtain ⟨sequence, annotated⟩ := Selections.annotate_of_shallow shallow deep
  exact ⟨sequence, tokenize_ok_iff.mpr ⟨_, ofText_selection read, few, annotated⟩, annotated⟩

theorem length_classified (selection : FormulaSelection) : selection.classified.length = selection.lexemes.length := by
  have same (before : Option Lexeme) (lexemes : List Lexeme) :
      (reclassifyFrom before lexemes).length = lexemes.length := by
    induction lexemes generalizing before with
    | nil => rfl
    | cons lexeme rest ih => exact congrArg (· + 1) (ih _)
  rw [← reclassifyAll_selection, reclassifyAll, same]

theorem start_selection (selection : FormulaSelection) : Context.start selection.classified = {} := by
  obtain ⟨keyword, normalized⟩ := normalized_of_word (by decide) selection.select.bare
  have first : selection.classified.find? isKeyword = some selection.select.lexeme := List.find?_cons_of_pos keyword
  have noTable : isCreateTable selection.classified = false := by
    refine Union.isCreateTable_of_select ?_
    rw [first, Option.any_some, reads, keyword, normalized]
    rfl
  rw [Context.start, noTable]

theorem projecting_select (selection : FormulaSelection) :
    ((Context.start selection.classified).step selection.select.lexeme).Projecting := by
  obtain ⟨keyword, normalized⟩ := normalized_of_word (by decide) selection.select.bare
  obtain ⟨clause, -, opened⟩ := step_significant {} selection.select.lexeme keyword (by rw [normalized]; decide)
  have moved : (Context.step {} selection.select.lexeme).headers = [] ∧
      (Context.step {} selection.select.lexeme).awaitsColumns = false := by
    simp [Context.step, side?_of_keyword keyword, keyword, Context.headersAfter, normalized]
  rw [start_selection]
  refine ⟨by rw [clause, normalized], ?_, moved.1, moved.2, fun last found => ?_⟩
  · rw [opened]
    exact List.forall_mem_nil _
  · rw [Context.last_step] at found
    rw [← Option.some.inj found, keyword, normalized]
    decide

theorem opened_formula (selection : FormulaSelection) :
    (((Context.start selection.classified).step selection.select.lexeme).after
    selection.formula.classified).opened = [] := by
  obtain ⟨keyword, -⟩ := normalized_of_word (by decide) selection.select.bare
  rw [opened_balanced (shallow_formula selection.formula).balanced, opened_step (side?_of_keyword keyword)]
  rfl

/-- The columns are those of the formula. -/
theorem names_selection (selection : FormulaSelection) :
    Names ⟨{}, []⟩ (Context.start selection.classified) [] selection.classified []
    ((selected (selection.formula.mentioned true)).map mentionOf) [] := by
  obtain ⟨keyword, normalized⟩ := normalized_of_word (by decide) selection.source.bare
  have plain {word : String} (spelled : BareWord word) :
      spelled.lexeme.isName = false ∧ spelled.lexeme.isWildcard = false := by
    have kind := (spelled_of_word spelled.bare).1
    exact ⟨by simp [isName, kind], by simp [isWildcard, kind]⟩
  obtain ⟨fresh, noDot⟩ := fresh_of_word (by decide) selection.select.bare
  have ended := completes_of_word selection.source.bare
  have halts : Halts ([selection.source.lexeme, selection.table] ++ []) := ⟨ended.noDot, ended.noOpening⟩
  have formula := @selects_formula selection.formula _ [] _ _ (projecting_select selection) fresh noDot halts
  have table (context : Context) (before : List Lexeme) (opened : context.opened = []) :
      Names ⟨{}, []⟩ context before [selection.source.lexeme, selection.table] [] [] [] := by
    obtain ⟨clause, -, frames⟩ := step_significant context selection.source.lexeme keyword (by rw [normalized]; decide)
    have avoids : (context.step selection.source.lexeme).Avoids fun word =>
        Keyword.precedesColumns word || word == "INTO" := by
      refine ⟨?_, ?_⟩
      · rw [clause, normalized]
        decide
      · rw [frames, opened]
        exact List.forall_mem_nil _
    exact .skip (plain selection.source) (names_avoiding avoids (List.forall_mem_singleton.mpr
      (avoids_unkeyed (unkeyed_of_name selection.named))))
  have whole := formula.append (table _ _ (opened_formula selection))
  rw [List.append_nil, List.append_nil] at whole
  exact .skip (plain selection.select) whole

variable {limits : Limits} {text : String} {sequence : TokenSequence}
    (reading : Reading limits text selection.classified sequence)
include reading

theorem kind_selection : StatementKind.ofTokens sequence = .ok .select := by
  obtain ⟨keyword, normalized⟩ := normalized_of_word (by decide) selection.select.bare
  obtain ⟨second, more, begins⟩ :
      ∃ second more, selection.formula.classified ++ [selection.source.lexeme, selection.table] = second :: more :=
    List.exists_cons_of_ne_nil (by simp)
  have noParen : selection.select.lexeme.value ≠ "(" := by
    intro same
    have spelled := (spelled_of_word selection.select.bare).2
    rw [same] at spelled
    exact absurd spelled (by decide)
  refine reading.kind (congrArg (selection.select.lexeme :: ·) begins) noParen ?_
  rw [normalized]
  rfl

/-- No parenthesis holds a query. -/
theorem bodiless_selection : Subquery.bodies sequence = {} := by
  have bare {word : String} (spelled : BareWord word) : spelled.lexeme.side? = none :=
    side?_of_keyword (by rw [isKeyword, (spelled_of_word spelled.bare).1]; rfl)
  refine BareFacts.bodies_unqueried reading fun spot within closes => ?_
  have member := within.mem
  rw [FormulaSelection.classified, FormulaSelection.around, spots, spots_append] at member
  have closing := side?_eq_closing.mpr closes
  rcases List.mem_cons.mp member with rfl | later
  · cases closing.symm.trans (bare selection.select)
  · rcases List.mem_append.mp later with inside | late
    · exact unqueried_of_projecting
        (projecting_spots (projecting_select selection) (staying_formula selection.formula) spot inside)
    · have here := here_mem late
      simp only [List.mem_cons, List.not_mem_nil, or_false] at here
      rcases here with same | same
      · cases (same ▸ closing).symm.trans (bare selection.source)
      · cases (same ▸ closing).symm.trans (wordless_of_name selection.named).1

theorem any_wildcard_tokens : sequence.tokens.any (·.kind == .wildcard) = selection.formula.hasKeywordStar := by
  have word {word : String} (spelled : BareWord word) : spelled.lexeme.isWildcard = false := by
    simp [isWildcard, (spelled_of_word spelled.bare).1]
  have table : selection.table.isWildcard =
      false := by simp [isWildcard, show selection.table.kind = .name from eq_of_beq selection.named]
  have told := Signs.lexemes_of_annotated reading.annotated
  have same : sequence.tokens.any (·.kind == .wildcard) = (sequence.tokens.toList.map lexemeOf).any isWildcard := by
    rw [List.any_map, Array.any_toList]
    rfl
  rw [same, told, FormulaSelection.classified, FormulaSelection.around, List.any_cons, List.any_append, any_isWildcard]
  simp [word, table]

theorem facts_selection : ∃ facts, (Query.ofText text limits).facts = .ok facts ∧
    facts.columns = distinct (selection.formula.mentioned true) := by
  have annotated := reading.annotated
  have names := names_selection selection
  have bodiless := bodiless_selection reading
  have noWith : ∀ lexeme ∈ selection.classified, lexeme.reads "WITH" = false := by
    have others : ∀ word ∈ FormulaSelection.words, (word == "WITH") = false := by decide
    intro lexeme member
    cases keyword : lexeme.isKeyword with
    | false => rw [reads, keyword, Bool.false_and]
    | true =>
      obtain ⟨word, listed, normalized, -⟩ :=
        word_of_within letters_selection (within_selection selection lexeme member) keyword
      rw [reads, normalized, others word listed, Bool.and_false]
  have undeclared : Facts.declarations sequence {} = [] := List.map_eq_nil_iff.mp (labels_eq annotated bodiless names)
  have mentioned := MentionSpots.mentions_eq annotated bodiless names
  rw [undeclared] at mentioned
  have means : ∀ use ∈ selected (selection.formula.mentioned true),
      Column.meaning (Table.aliases sequence (Table.names sequence [])) {} use.1 = .ok ([use.1], use.1) :=
    List.forall_mem_map.mpr fun name inside => meaning_bare (undotted_mentioned name inside)
  have found :=
    BareFacts.facts_undeclared reading (kind_selection reading) (by decide) (withClause_bare annotated noWith) bodiless
    undeclared means mentioned
  refine ⟨_, found, (BareFacts.lists_undeclared undeclared _).columns.trans ?_⟩
  rw [selected, List.map_map]
  exact congrArg distinct (List.map_id _)

end Statement

/-- A star of a formula multiplies, and its columns are those of the formula, unless the star stands directly
behind a keyword. Then it is a wildcard and a column. -/
theorem columns_of_products {selection : FormulaSelection} {text : String} {limits : Limits}
    (read : (Lexer.items (normalize text.toList)).map ofItems = .ok selection.lexemes)
    (few : selection.lexemes.length ≤ limits.maxTokens) (deep : selection.formula.depth ≤ limits.maxNestingDepth) :
    ∃ sequence facts, queryTokens limits text = .ok sequence ∧ sequence.tokens.toList.map lexemeOf =
      selection.classified ∧
      (Query.ofText text limits).facts = .ok facts ∧ facts.columns = distinct (selection.formula.mentioned true) ∧
      if selection.formula.hasKeywordStar then (∃ token ∈ sequence.tokens, token.kind = .wildcard) ∧ "*" ∈ facts.columns
      else (∀ token ∈ sequence.tokens, token.kind ≠ .wildcard) ∧
          facts.columns = distinct selection.formula.columns := by
  obtain ⟨sequence, reading⟩ := exists_reading_selection read ((length_classified selection).trans_le few) deep
  obtain ⟨facts, known, columns⟩ := facts_selection reading
  have told := Signs.lexemes_of_annotated reading.annotated
  have wild := any_wildcard_tokens reading
  refine ⟨sequence, facts, reading.tokens, told, known, columns, ?_⟩
  split
  next has =>
    rw [has, Array.any_eq_true'] at wild
    obtain ⟨token, member, kind⟩ := wild
    refine ⟨⟨token, member, eq_of_beq kind⟩, ?_⟩
    rw [columns, mem_distinct]
    exact star_mem_mentioned has
  next none =>
    rw [Bool.not_eq_true] at none
    rw [none, Array.any_eq_false'] at wild
    refine ⟨fun token member kind => wild token member (beq_iff_eq.mpr kind), ?_⟩
    rw [columns, mentioned_of_starless none]

/-- A star behind NULL is a column, and the one behind a name is none. -/
theorem columns_of_products_null :
    ∃ sequence facts, queryTokens {} "SELECT NULL * a, f((b + 1) * c) FROM t" = .ok sequence ∧
    (Query.ofText "SELECT NULL * a, f((b + 1) * c) FROM t" {}).facts = .ok facts ∧
      facts.columns = ["*", "a", "b", "c"] ∧
    (sequence.tokens.toList.filter (·.value == "*")).map (·.kind) = [.wildcard, .operator] := by
  let keyword (text : String) : Lexeme := ⟨.keyword, text, none, true⟩
  let name (text : String) (apart : Bool) : Lexeme := ⟨.name, text, none, apart⟩
  let opening : Lexeme := ⟨.punctuation, "(", none, false⟩
  let parentheses : Parentheses := ⟨opening, ⟨.punctuation, ")", none, false⟩, rfl, rfl⟩
  let star : Lexeme := ⟨.wildcard, "*", none, true⟩
  let sum : Formula :=
    .joined (.column (name "b" false) rfl (by decide)) ⟨.operator, "+", none, true⟩ (.operator rfl (by decide))
    (.literal ⟨.integer, "1", none, true⟩ (.inl rfl))
  let product : Formula :=
    .joined (.group parentheses sum) star (.star rfl rfl) (.column (name "c" true) rfl (by decide))
  let scaled : Formula :=
    .joined (.constant (show "NULL" ∈ _ by decide) ⟨keyword "NULL", by decide, rfl⟩) star (.star rfl rfl)
    (.column (name "a" true) rfl (by decide))
  let selection : FormulaSelection := {
    select := ⟨keyword "SELECT", by decide, rfl⟩
    formula :=
  .joined scaled ⟨.punctuation, ",", none, false⟩ (.comma rfl) (.call (name "f" true) (.inl rfl) parentheses product)
    source := ⟨keyword "FROM", by decide, rfl⟩
    table := name "t" true
    named := rfl }
  have read : (Lexer.items (normalize "SELECT NULL * a, f((b + 1) * c) FROM t".toList)).map ofItems =
      .ok selection.lexemes := by
    decide +kernel
  obtain ⟨sequence, facts, tokens, told, known, columns, -⟩ :=
    @columns_of_products selection _ {} read (by decide) (by decide)
  refine ⟨sequence, facts, tokens, known, columns.trans (by decide), ?_⟩
  have same : (sequence.tokens.toList.filter (·.value == "*")).map (·.kind) =
      ((sequence.tokens.toList.map lexemeOf).filter (·.value == "*")).map (·.kind) := by
    rw [List.filter_map, List.map_map]
    rfl
  rw [same, told]
  decide

end QueryFacts.Proofs.Multiplication
