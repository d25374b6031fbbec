import QueryFacts.Proofs.MeantColumns
import QueryFacts.Proofs.Selections.Bodies

/-! Statements that select columns, each as a query of its own: that it is read, and what the
passes over it find. -/

namespace QueryFacts.Proofs.Selections
open Text Lexeme PlainText SelectList Signs Places

section Reading

variable {limits : Limits} {lexemes : List Lexeme}

/-- A text is read as its lexemes. -/
theorem exists_reads (usual : ∀ lexeme ∈ lexemes, Usual lexeme) (chain : lexemes.IsChain Adjacent)
    (first : ∀ lexeme ∈ lexemes.head?, lexeme.spaceBefore = true ∧ lexeme.kind ≠ .operator) {bound : Nat}
    (shallow : Shallow (NestingRun.sides lexemes) bound) (deep : bound ≤ limits.maxNestingDepth)
    (few : lexemes.length ≤ limits.maxTokens) : ∃ sequence,
      queryTokens limits (String.ofList (written lexemes)) = .ok sequence ∧ Reads limits lexemes sequence := by
  obtain ⟨sequence, annotated⟩ := annotate_of_shallow shallow deep
  have read := ofText_written (legible_of_chain usual chain first)
  refine ⟨sequence, ?_, annotated, usual, chain⟩
  rw [queryTokens, String.toList_ofList]
  exact NestingRun.tokenize_ok_iff.mpr ⟨lexemes, read, few, annotated⟩

theorem Reads.signed {sequence : TokenSequence} (reads : Reads limits lexemes sequence) {signs : List Sign}
    (told : (Context.start lexemes).signs lexemes = signs) (simple : ∀ sign ∈ signs, sign.Simple) :
    Signed sequence signs where
  sign? index := by rw [sign?_cursor reads.annotated, told]
  simple := simple

end Reading

/-- Without labels nothing is declared. -/
theorem undeclared_signs {selection : Selection} (unlabelled : ∀ item ∈ selection.items, item.label = none)
    (outer : Option String) (around : Option ParenRole) (outside apart : Bool) (before after : List Sign) :
    (places before (signs outer around outside apart selection) after).filterMap Place.declaration? = [] := by
  have undeclared (place : Place) (none : place.declares = false) : place.declaration? = Option.none := by
    rw [Place.declaration?, none]
    rfl
  have nothing : (places before (signs outer around outside apart selection) after).filterMap Place.declaration? =
      selection.items.flatMap fun _ => [] := by
    refine declarations_signs undeclared ?_ outer outside apart before after
    intro item member around begin front close rest starts ends
    rw [projectionLexemes, unlabelled item member, labelLexemes, List.append_nil]
    exact declarations_column undeclared "SELECT" item.qualifier item.column starts.toBegins front (close :: rest)
  exact nothing.trans (List.flatMap_eq_nil_iff.mpr fun _ _ => rfl)

/-- Names are no keywords, so what stands before an unaliased name is no table. -/
theorem aliases_of_unaliased {sequence : TokenSequence} {all : List Sign} (signed : Signed sequence all)
    (unaliased : ∀ place ∈ places [] all [], Unaliased place) {tables : List String}
    (names : ∀ table ∈ tables, IsColumnName table) : Table.aliases sequence tables = {} := by
  refine aliases_eq signed fun place member isName told => ?_
  obtain ⟨sign, rest, before, noAs, value⟩ := unaliased place member isName told
  refine ⟨sign, rest, before, noAs, fun inside => ?_⟩
  have isColumn := names _ inside
  generalize String.intercalate "." (Place.nameParts rest sign) = name at value isColumn
  simp only [List.mem_cons, List.not_mem_nil, or_false] at value
  rcases value with rfl | rfl | rfl
  · exact absurd isColumn.free (by decide)
  · exact absurd isColumn.free (by decide)
  · exact absurd isColumn.spelled (by decide)

/-- A statement that is a query of its own, as it is read. -/
structure Standalone (limits : Limits) (selection : Selection) (sequence : TokenSequence) : Prop where
  tokens : queryTokens limits selection.text = .ok sequence
  reads : Reads limits (lexemes true selection) sequence
  signed : Signed sequence (signs none none false true selection)

theorem exists_standalone {limits : Limits} {selection : Selection} (known : selection.Known)
    (deep : selection.depth ≤ limits.maxNestingDepth) (few : (lexemes true selection).length ≤ limits.maxTokens) :
    ∃ sequence, Standalone limits selection sequence := by
  have ends : AfterName [] := fun _ _ _ => List.isChain_singleton _
  have chain : (lexemes true selection).IsChain Adjacent := by simpa using chain_lexemes known true ends
  have first : ∀ lexeme ∈ (lexemes true selection).head?, lexeme.spaceBefore = true ∧ lexeme.kind ≠ .operator := by
    obtain ⟨rest, starts⟩ := head_lexemes selection true
    rw [starts]
    rintro lexeme ⟨⟩
    exact ⟨rfl, fun same => by cases same⟩
  obtain ⟨sequence, tokens, reads⟩ :=
    exists_reads (usual_lexemes known true) chain first (shallow_lexemes selection true) deep few
  rw [written_lexemes, String.ofList_toList] at tokens
  obtain ⟨told, -⟩ :=
    signing selection (Context.start (lexemes true selection)) true (by simp [Context.start, Context.headersAfter])
  have alone : Surrounds none none :=
    ⟨⟨fun same => (by cases same), fun same => (by cases same)⟩, fun _ none => (by cases none)⟩
  exact ⟨sequence, tokens, reads, reads.signed told (simple_signs known alone false true)⟩

namespace Standalone

variable {limits : Limits} {selection : Selection} {sequence : TokenSequence}
    (standalone : Standalone limits selection sequence)
include standalone

theorem kind : StatementKind.ofTokens sequence = .ok .select := by
  obtain ⟨rest, starts⟩ := head_signs selection none none false true
  exact kind_eq standalone.signed starts (.inl normalForm_select) (show "SELECT" ≠ "(" by decide)

theorem withClause : WithClause.ofTokens sequence = .ok {} :=
  withClause_eq standalone.signed (noWith_signs selection _ _ _ _)

theorem subqueries : Subquery.bodies sequence =
    NameMap.ofFirstPairs (selection.bodies.map fun (name, inner) => (name, inner.text)) := by
  have found := bodies_signs standalone.reads standalone.signed (lexemes_signs selection none none false true)
    (show _ = [].reverse ++ (_ ++ []) from (List.append_nil _).symm)
  rw [Subquery.bodies, filterMap_places standalone.signed fun place _ =>
    show Subquery.named? _ = namedAt sequence place from rfl]
  exact congrArg NameMap.ofFirstPairs found

theorem tables (withNames : List String) : Table.names sequence withNames =
    (distinct selection.tables).filter (!withNames.contains ·) := by
  rw [names_eq standalone.signed, tables_signs selection none false true [] (by simp)]

omit standalone in
theorem undeclared (unlabelled : ∀ item ∈ selection.items, item.label = none) :
    declarations (signs none none false true selection) = [] := undeclared_signs unlabelled none none false true [] []

theorem mentions (known : selection.Known) (aliasNames : List String) : Column.mentions sequence aliasNames
    ((declarations (signs none none false true selection)).map (·.position)) = selection.mentions aliasNames := by
  rw [mentions_eq standalone.signed, mentions_signs known none false true [] (by simp)]

theorem tableAliases {tables : List String} (names : ∀ table ∈ tables, IsColumnName table) :
    Table.aliases sequence tables = {} :=
  aliases_of_unaliased standalone.signed (unaliased_signs selection none false true [] []) names

end Standalone

end QueryFacts.Proofs.Selections
