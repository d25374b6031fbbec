import QueryFacts.Proofs.TableSpots
import QueryFacts.Proofs.Unnested

/-! The tables and the aliases of a statement that selects from tables. A reference after a comma
is read as a table unless the step before it has a condition: the last keyword is that of the
condition then, and names after it are columns. -/

namespace QueryFacts
open Text

/-- The references of steps that are read as tables, the first of them also after a comma if `counting`. -/
def FromStep.counted : Bool → List FromStep → List TableReference
  | _, [] => []
  | counting, step :: rest =>
    if step.isComma && !counting then counted false rest else step.reference :: counted step.condition?.isNone rest

namespace FromClause

/-- The references that are read as tables. -/
def counted (clause : FromClause) : List TableReference := clause.first :: FromStep.counted true clause.steps

/-- No comma comes directly after a condition. -/
def Separated (clause : FromClause) : Prop :=
  clause.steps.IsChain fun step next => next.isComma = true → step.condition? = none

/-- The aliases in the clause with their tables. -/
def declared (clause : FromClause) : List (String × String) := clause.references.filterMap TableReference.declared?

end FromClause

/-- Where a step may come next. If `counting`, a name after a comma is a table. -/
structure Context.Awaits (context : Context) (counting : Bool) : Prop where
  frames : ∀ frame ∈ context.opened, Keyword.precedesTables (frame.clause.getD "") = false
  clause : if counting then ∃ word, context.Lists word else Keyword.precedesTables (context.clause.getD "") = false

end QueryFacts

namespace QueryFacts.Proofs.FromTables
open Text Lexeme PlainText SelectList ColumnListStatement Selections TextParts JoinKeywords FromClauses
open Clauses Spots TableSpots Unnested

theorem counted_of_chain {steps : List FromStep} {counting : Bool}
    (separated : steps.IsChain fun step next => next.isComma = true → step.condition? = none)
    (first : ∀ step ∈ steps.head?, step.isComma = true → counting = true) :
    FromStep.counted counting steps = steps.map FromStep.reference := by
  induction steps generalizing counting with
  | nil => rfl
  | cons step steps ih =>
    have counts : (step.isComma && !counting) = false := by
      cases comma : step.isComma with
      | false => rfl
      | true => simp [first step rfl comma]
    have later : FromStep.counted step.condition?.isNone steps = steps.map FromStep.reference := by
      refine ih separated.of_cons fun next found comma => ?_
      cases steps with
      | nil => cases found
      | cons other steps =>
        cases found
        rw [(List.isChain_cons_cons.mp separated).1 comma]
        rfl
    rw [FromStep.counted, counts, if_neg Bool.false_ne_true, later, List.map_cons]

theorem counted_of_separated {clause : FromClause} (separated : clause.Separated) :
    clause.counted = clause.references := by
  rw [FromClause.counted, counted_of_chain separated fun _ _ _ => rfl, FromClause.references]

section Steps

variable {tables : List String} {context : Context} {before after : List Lexeme}

theorem avoids_of_flat {lexeme : Lexeme} (flat : Flat lexeme) : lexeme.Avoids Keyword.precedesTables := by
  cases flat with
  | word known =>
    have words : ∀ word ∈ ["AS", "ON", "USING", "AND", "OR"],
        Keyword.precedesTables (ofKeyword word true).normalized = false := by decide
    exact fun _ => .inr (words _ known)
  | name | comparison | dot | comma => exact nofun

/-- Of the lexemes of a condition none is a table, nor is any name after it before the next keyword. -/
theorem finds_condition {condition : JoinCondition} (known : condition.Known)
    (frames : ∀ frame ∈ context.opened, Keyword.precedesTables (frame.clause.getD "") = false) :
    Finds tables context before (joinConditionLexemes condition) after [] [] ∧
      (context.after (joinConditionLexemes condition)).Awaits false := by
  have words : ∀ word ∈ ["ON", "USING"], Keyword.isInsignificant (ofKeyword word true).normalized = false ∧
      Keyword.precedesTables (ofKeyword word true).normalized = false := by decide
  obtain ⟨word, rest, inside, split⟩ :
      ∃ word rest, word ∈ ["ON", "USING"] ∧ joinConditionLexemes condition = ofKeyword word true :: rest := by
    cases condition with
    | on first more => exact ⟨"ON", _, by decide, rfl⟩
    | columns first more => exact ⟨"USING", _, by decide, rfl⟩
  have none : ∀ lexeme ∈ rest, lexeme.Avoids Keyword.precedesTables := by
    intro lexeme member
    rcases flat_condition known lexeme (split ▸ List.mem_cons_of_mem _ member) with flat | rfl | rfl
    · exact avoids_of_flat flat
    · exact nofun
    · exact nofun
  obtain ⟨clause, -, opened⟩ := step_significant context (ofKeyword word true) rfl (words word inside).1
  have avoids : (context.step (ofKeyword word true)).Avoids Keyword.precedesTables := by
    refine ⟨?_, opened ▸ frames⟩
    rw [clause]
    exact (words word inside).2
  have ends := avoids.after none
  rw [split]
  exact ⟨.skip (silent_of_other rfl) (.avoiding avoids none), ⟨ends.later, ends.here⟩⟩

theorem finds_stepTail {step : FromStep} (known : step.Known) {word : String} {last : Lexeme}
    (lists : context.Lists word)
    (frames : ∀ frame ∈ context.opened, Keyword.precedesTables (frame.clause.getD "") = false)
    (introduces : last.Introduces word)
    (unlisted : nameBefore (last :: before) ∉ tables) (listed : step.reference.dotted ∈ tables)
    (ends : after.head?.any isDot = false ∧ after.head?.any (reads "AS") = false) :
    Finds tables context (last :: before) (stepTail step) after
      [step.reference.dotted] step.reference.declared?.toList ∧
      (context.after (stepTail step)).Awaits step.condition?.isNone := by
  have resumes : context.Resumes (context.after (referenceLexemes step.reference)) :=
    resumes_after (staying_reference _)
  have frames' : ∀ frame ∈ (context.after (referenceLexemes step.reference)).opened,
      Keyword.precedesTables (frame.clause.getD "") = false := resumes.opened ▸ frames
  have knownReference := known_reference known
  cases found : step.condition? with
  | none =>
    have tail : stepTail step = referenceLexemes step.reference := by
      rw [stepTail, found]
      exact List.append_nil _
    rw [tail]
    exact ⟨finds_reference lists knownReference introduces unlisted listed ends, frames', _, lists.resumes resumes⟩
  | some condition =>
    have tail : stepTail step =
        referenceLexemes step.reference ++ joinConditionLexemes condition := by rw [stepTail, found]; rfl
    have knownCondition : condition.Known := by
      cases step with
      | comma reference => cases found
      | join prefixes reference condition' => exact known.2.2 condition found
    have follows : (joinConditionLexemes condition ++ after).head?.any isDot = false ∧
        (joinConditionLexemes condition ++ after).head?.any (reads "AS") = false := by
      have words : (ofKeyword "ON" true).reads "AS" = false ∧ (ofKeyword "USING" true).reads "AS" = false := by decide
      cases condition with
      | on first more => exact ⟨rfl, words.1⟩
      | columns first more => exact ⟨rfl, words.2⟩
    rw [tail, Context.after_append]
    obtain ⟨later, awaits⟩ := finds_condition knownCondition frames'
    have whole := (finds_reference lists knownReference introduces unlisted listed follows).append later
    rw [List.append_nil, List.append_nil] at whole
    exact ⟨whole, awaits⟩

theorem reads_joinKeyword {prefixes : List String}
    (known : ∀ word ∈ prefixes, word ∈ Keyword.joinPrefixes) {word : String}
    (joinless : Keyword.isJoin word = false) : (joinKeyword prefixes).reads word = false := by
  simp [reads, normalized_joinKeyword known, mergedJoin_ne joinless]

theorem head_stepLexemes {step : FromStep} (known : step.Known) :
    (stepLexemes step).head?.any isDot = false ∧ (stepLexemes step).head?.any (reads "AS") = false := by
  cases step with
  | comma reference => exact ⟨rfl, rfl⟩
  | join prefixes reference condition =>
    exact ⟨rfl, reads_joinKeyword known.1 (by decide)⟩

theorem head_steps {steps : List FromStep} (known : ∀ step ∈ steps, step.Known) :
    (steps.flatMap stepLexemes ++ []).head?.any isDot = false ∧
        (steps.flatMap stepLexemes ++ []).head?.any (reads "AS") = false := by
  cases steps with
  | nil => exact ⟨rfl, rfl⟩
  | cons next steps =>
    have head := head_stepLexemes (known next List.mem_cons_self)
    cases next <;> exact head

theorem undotted_reverse {part : List Lexeme} {glued : Bool} (isPart : Part glued part) (some : part ≠ [])
    (before : List Lexeme) :
    ∀ last ∈ (part.reverse ++ before).head?, last.isDot = false := by
  intro last found
  have ends : last ∈ part.getLast? := by
    obtain ⟨final, ends⟩ := Option.ne_none_iff_exists'.mp (mt List.getLast?_eq_none_iff.mp some)
    rw [List.head?_append, List.head?_reverse, ends] at found
    exact ends.trans found
  exact beq_eq_false_iff_ne.mpr (isPart.ends last ends).noDot

theorem undotted_step {step : FromStep} (known : step.Known) (before : List Lexeme) :
    ∀ last ∈ ((stepLexemes step).reverse ++ before).head?, last.isDot = false := by
  have tail := undotted_reverse (part_stepTail known) (by simp [stepTail, referenceLexemes, dottedLexemes])
  cases step with
  | comma reference =>
    rw [stepLexemes, List.reverse_cons, List.append_assoc]
    exact tail _
  | join prefixes reference condition =>
    rw [stepLexemes, List.reverse_cons, List.append_assoc]
    exact tail _

/-- What the passes find in one step. -/
theorem finds_step {step : FromStep} (known : step.Known) {counting : Bool} (awaits : context.Awaits counting)
    (undotted : ∀ last ∈ before.head?, last.isDot = false) (named : ∀ table ∈ tables, IsDottedName table)
    (ends : after.head?.any isDot = false ∧ after.head?.any (reads "AS") = false) :
    if step.isComma && !counting then
      Finds tables context before (stepLexemes step) after [] [] ∧ (context.after (stepLexemes step)).Awaits false
    else step.reference.dotted ∈ tables →
      Finds tables context before (stepLexemes step) after [step.reference.dotted] step.reference.declared?.toList ∧
        (context.after (stepLexemes step)).Awaits step.condition?.isNone := by
  obtain ⟨frames, clause⟩ := awaits
  cases step with
  | comma reference =>
    cases counting with
    | false =>
      have none : ∀ lexeme ∈ stepLexemes (.comma reference), lexeme.Avoids Keyword.precedesTables := by
        intro lexeme member
        rcases List.mem_cons.mp member with rfl | tail
        · exact nofun
        · rcases flat_stepTail known lexeme tail with flat | rfl | rfl
          · exact avoids_of_flat flat
          · exact nofun
          · exact nofun
      have avoids : context.Avoids Keyword.precedesTables := ⟨clause, frames⟩
      have ends := avoids.after none
      exact ⟨.avoiding avoids none, ⟨ends.later, ends.here⟩⟩
    | true =>
      intro listed
      obtain ⟨word, lists⟩ := clause
      have mark : context.Resumes (context.step comma) := resumes_step ⟨by decide, nofun⟩
      have unlisted : nameBefore (comma :: before) ∉ tables := by
        rw [nameBefore_undotted undotted]
        intro inside
        exact ne_of_isDottedName (named _ inside) (by decide) (fun known => absurd known.spelled (by decide)) rfl
      have introduces : comma.Introduces word := ⟨rfl, ⟨rfl, rfl⟩, by decide, .inr (.inr rfl)⟩
      obtain ⟨found, awaits⟩ :=
        finds_stepTail known (lists.resumes mark) (mark.opened ▸ frames) introduces unlisted listed ends
      exact ⟨.skip (silent_of_other rfl) found, awaits⟩
  | join prefixes reference condition =>
    intro listed
    have normalized := normalized_joinKeyword known.1
    obtain ⟨clause, outside, opened⟩ := step_significant context (joinKeyword prefixes) rfl
      (by rw [normalized]; exact significant_of_isJoin (isJoin_mergedJoin prefixes))
    rw [normalized] at clause
    have unlisted : nameBefore (joinKeyword prefixes :: before) ∉ tables := by
      rw [nameBefore_undotted undotted]
      intro inside
      exact ne_of_isDottedName (named _ inside) (undotted_joinKeyword known.1)
        (fun plain => plain.unmerged prefixes known.1 normalized) rfl
    have introduces : (joinKeyword prefixes).Introduces (mergedJoin prefixes) :=
      ⟨rfl, ⟨reads_joinKeyword known.1 (by decide), reads_joinKeyword known.1 (by decide)⟩, rfl, .inl normalized⟩
    obtain ⟨found, awaits⟩ :=
      finds_stepTail known ⟨clause, outside, isTableWord_join known.1⟩ (opened ▸ frames) introduces unlisted
      listed ends
    exact ⟨.skip (silent_of_other rfl) found, awaits⟩

/-- What the passes find in the steps of a clause. -/
theorem finds_steps {steps : List FromStep} (known : ∀ step ∈ steps, step.Known) {counting : Bool}
    (awaits : context.Awaits counting)
    (undotted : ∀ last ∈ before.head?, last.isDot = false) (named : ∀ table ∈ tables, IsDottedName table)
    (listed : ∀ reference ∈ FromStep.counted counting steps, reference.dotted ∈ tables) :
    Finds tables context before (steps.flatMap stepLexemes)
      [] ((FromStep.counted counting steps).map TableReference.dotted)
      ((FromStep.counted counting steps).filterMap TableReference.declared?) := by
  induction steps generalizing context before counting with
  | nil => exact ⟨rfl, rfl⟩
  | cons step steps ih =>
    have later (other : FromStep) (member : other ∈ steps) := known other (List.mem_cons_of_mem _ member)
    have knownStep := known step List.mem_cons_self
    have ends := head_steps later
    have undotted' := undotted_step knownStep before
    have here := finds_step knownStep awaits undotted named ends
    rw [FromStep.counted] at listed ⊢
    rw [List.flatMap_cons]
    split at here
    next uncounted =>
      rw [if_pos uncounted] at listed ⊢
      exact here.1.append (ih later here.2 undotted' listed)
    next counts =>
      rw [if_neg counts] at listed ⊢
      obtain ⟨found, awaits⟩ := here (listed _ List.mem_cons_self)
      have whole :=
        found.append (ih later awaits undotted' fun reference member =>
          listed reference (List.mem_cons_of_mem _ member))
      rw [List.map_cons, List.filterMap_cons]
      cases pair : step.reference.declared? <;> rw [pair] at whole <;> exact whole

end Steps

section Statements

theorem isDottedName_dotted {reference : TableReference} (known : reference.Known) : IsDottedName reference.dotted :=
  ⟨reference.first, reference.more, known.parts, rfl⟩

/-- The context of the first reference. -/
theorem after_selectStar (lexemes : List Lexeme) : (Context.start lexemes).after selectStar =
    { last := some (ofKeyword "FROM" true), clause := some "FROM", awaitsColumns := isCreateTable lexemes } := by
  have select := step_keyword normalForm_select (by decide) true (Context.start lexemes)
  have last : ∀ context : Context, context.step star = { context with last := some star } := fun _ => rfl
  rw [Context.after, selectStar, List.foldl_cons, List.foldl_cons, List.foldl_cons, List.foldl_nil,
    select, last, step_from]
  rfl

theorem known_of_counted {steps : List FromStep} (known : ∀ step ∈ steps, step.Known) {counting : Bool} :
    ∀ reference ∈ FromStep.counted counting steps, reference.Known := by
  induction steps generalizing counting with
  | nil => nofun
  | cons step steps ih =>
    have later := @ih fun other member => known other (List.mem_cons_of_mem _ member)
    have here := known_reference (known step List.mem_cons_self)
    rw [FromStep.counted]
    split
    · exact later
    · exact List.forall_mem_cons.mpr ⟨here, later⟩

variable {clause : FromClause} {limits : Limits} (known : clause.Known)
include known

theorem finds_lexemes {tables : List String} (named : ∀ table ∈ tables, IsDottedName table)
    (listed : ∀ reference ∈ clause.counted, reference.dotted ∈ tables) :
    Finds tables (Context.start clause.lexemes) [] clause.lexemes [] (clause.counted.map TableReference.dotted)
      (clause.counted.filterMap TableReference.declared?) := by
  have sourced := after_selectStar clause.lexemes
  have lists : ((Context.start clause.lexemes).after selectStar).Lists "FROM" := by
    rw [sourced]
    exact ⟨rfl, rfl, isTableWord_reserved (by decide) (by decide)⟩
  have unlisted : nameBefore [ofKeyword "FROM" true, star, ofKeyword "SELECT" true] ∉ tables := by
    rw [nameBefore_undotted (by decide)]
    intro inside
    exact ne_of_isDottedName (named _ inside) (by decide) (fun known => absurd known.free (by decide)) rfl
  have words : Lexeme.Introduces "FROM" (ofKeyword "FROM" true) := ⟨rfl, by decide, rfl, .inl (by decide)⟩
  have resumes : ((Context.start clause.lexemes).after selectStar).Resumes
      (((Context.start clause.lexemes).after selectStar).after (referenceLexemes clause.first)) :=
    resumes_after (staying_reference clause.first)
  have awaits :
      (((Context.start clause.lexemes).after selectStar).after (referenceLexemes clause.first)).Awaits true := by
    refine ⟨?_, _, lists.resumes resumes⟩
    rw [resumes.opened, sourced]
    nofun
  have undotted := undotted_reverse (part_reference known.first) (by simp [referenceLexemes, dottedLexemes])
    [ofKeyword "FROM" true, star, ofKeyword "SELECT" true]
  have begins : Finds tables (Context.start clause.lexemes) [] selectStar
      (referenceLexemes clause.first ++ clause.steps.flatMap stepLexemes ++ []) [] [] :=
    .skip (silent_of_other rfl) (.skip (silent_of_other rfl) (.silent (silent_of_other rfl)))
  have first := finds_reference lists known.first words unlisted (listed _ List.mem_cons_self) (head_steps known.steps)
  have rest := finds_steps known.steps awaits undotted named fun reference member =>
    listed reference (List.mem_cons_of_mem _ member)
  have whole := begins.append (first.append rest)
  rw [← List.append_assoc, List.nil_append, List.nil_append] at whole
  rw [FromClause.counted, List.map_cons, List.filterMap_cons]
  cases pair : clause.first.declared? <;> rw [pair] at whole <;> exact whole

variable (deep : clause.depth ≤ limits.maxNestingDepth) (few : clause.lexemes.length ≤ limits.maxTokens)
include deep few

theorem exists_selecting : ∃ sequence, Reading limits clause.text clause.lexemes sequence ∧
    StatementKind.ofTokens sequence = .ok .select := by
  obtain ⟨sequence, reading⟩ :=
    exists_reading (readable_words known) (merge_words known) (shallow_lexemes known) deep few
  refine ⟨sequence, reading, reading.kind rfl (show (ofKeyword "SELECT" true).value ≠ "(" by decide) ?_⟩
  rw [show (ofKeyword "SELECT" true).normalized = "SELECT" from normalForm_select]
  rfl

/-- The tables of the statement are the references that count, and its aliases are those given to them. -/
theorem exists_facts : ∃ facts, (Query.ofText clause.text limits).facts = .ok facts ∧
    facts.tables = distinct (clause.counted.map TableReference.dotted) ∧
      facts.tableAliases = NameMap.ofPairs (clause.counted.filterMap TableReference.declared?) := by
  have knownCounted : ∀ reference ∈ clause.counted, reference.Known :=
    List.forall_mem_cons.mpr ⟨known.first, known_of_counted known.steps⟩
  have named (table : String) (member : table ∈ distinct (clause.counted.map TableReference.dotted)) :
      IsDottedName table := by
    obtain ⟨reference, inside, rfl⟩ := List.mem_map.mp (mem_distinct.mp member)
    exact isDottedName_dotted (knownCounted reference inside)
  have listed (reference : TableReference) (member : reference ∈ clause.counted) :
      reference.dotted ∈ distinct (clause.counted.map TableReference.dotted) :=
    mem_distinct.mpr (List.mem_map_of_mem member)
  have found := finds_lexemes known named listed
  obtain ⟨noWith, noSelect⟩ := normalized_lexemes known
  obtain ⟨sequence, reading, kind⟩ := exists_selecting known deep few
  obtain ⟨facts, read, tables, aliases⟩ := reading.exists_facts kind rfl noWith noSelect found.names
  exact ⟨facts, read, tables, aliases.trans (congrArg NameMap.ofPairs found.aliases)⟩

/-- Without commas after conditions, every reference is a table, and the aliases are those that are declared. -/
theorem from_clause_tables (separated : clause.Separated) :
    ∃ facts, (Query.ofText clause.text limits).facts = .ok facts ∧
      facts.tables = distinct (clause.references.map TableReference.dotted) ∧
        facts.tableAliases.keys = distinct (clause.declared.map (·.1)) ∧
          ∀ name, facts.tableAliases.find? name = clause.declared.reverse.lookup name := by
  obtain ⟨facts, read, tables, aliases⟩ := exists_facts known deep few
  rw [counted_of_separated separated] at tables aliases
  refine ⟨facts, read, tables, ?_, fun name => ?_⟩
  · rw [aliases, NameMap.keys_ofPairs]
    rfl
  · rw [aliases, NameMap.find?_ofPairs]
    rfl

end Statements

/-- An alias that is declared twice belongs to the later table. -/
theorem from_clause_tables_mixed :
    ∃ facts, (Query.ofText "SELECT * FROM shop.orders AS o, users u LEFT JOIN dates o USING (id)" {}).facts =
      .ok facts ∧
      facts.tables = ["shop.orders", "users", "dates"] ∧ facts.tableAliases.keys = ["o", "u"] ∧
        facts.tableAliases.find? "o" = some "dates" ∧ facts.tableAliases.find? "u" = some "users" := by
  let clause : FromClause := {
    first := { first := "shop", more := ["orders"], label := some ⟨"o", true⟩ }
    steps := [.comma { first := "users", label := some ⟨"u", false⟩ },
      .join ["LEFT"] { first := "dates", label := some ⟨"o", false⟩ } (some (.columns "id" []))] }
  have checked : ∀ name ∈ ["shop", "orders", "o", "users", "u", "dates", "id"], isIdentifier name.toList = true ∧
      Keyword.isReserved (upper name) = false ∧ Keyword.isReserved (Keyword.normalForm name) = false ∧
        Keyword.isJoin (Keyword.normalForm name) = false := by decide
  have plain {names : List String}
      (among : ∀ name ∈ names, name ∈ ["shop", "orders", "o", "users", "u", "dates", "id"]) :
      ∀ name ∈ names, IsPlainName name := fun name member => isPlainName_of_joinless (checked name (among name member))
  have known : clause.Known := by
    have table {reference : TableReference} (parts : ∀ part ∈ reference.parts, IsPlainName part)
    {name : String} {marked : Bool}
        (labelled : reference.label = some ⟨name, marked⟩) (label : IsPlainName name) : reference.Known :=
      ⟨parts, fun found same => by cases labelled.symm.trans same; exact label⟩
    have o : IsPlainName "o" := isPlainName_of_joinless (checked "o" (by decide))
    have u : IsPlainName "u" := isPlainName_of_joinless (checked "u" (by decide))
    refine ⟨table (plain (by decide)) rfl o, List.forall_mem_cons.mpr ⟨?_, List.forall_mem_cons.mpr ⟨?_, nofun⟩⟩⟩
    · exact table (plain (by decide)) rfl u
    · exact ⟨by decide, table (plain (by decide)) rfl o, fun condition found => by cases found; exact plain (by decide)⟩
  have text : clause.text = "SELECT * FROM shop.orders AS o, users u LEFT JOIN dates o USING (id)" := by decide
  have deep : clause.depth ≤ ({} : Limits).maxNestingDepth := by decide
  obtain ⟨facts, read, tables, keys, found⟩ := from_clause_tables known deep (by decide)
    (List.isChain_cons_cons.mpr ⟨nofun, List.isChain_singleton _⟩)
  rw [text] at read
  exact ⟨facts, read, tables.trans (by decide), keys.trans (by decide), (found "o").trans (by decide),
    (found "u").trans (by decide)⟩

end QueryFacts.Proofs.FromTables
