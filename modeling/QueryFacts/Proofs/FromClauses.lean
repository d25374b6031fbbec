import QueryFacts.Proofs.JoinKeywords
import QueryFacts.Proofs.Selections.Signs
import QueryFacts.Proofs.TextParts

/-! Statements that select from tables: references to tables between commas and join keywords,
a joined one perhaps with a condition or a list of columns. Their text, and the lexemes that it
is read as. -/

namespace QueryFacts
open Text

/-- A dotted name of a table, perhaps with an alias. -/
structure TableReference where
  first : String
  more : List String := []
  label : Option Label := none

/-- A column with the name of its table, which may be dotted itself. -/
structure QualifiedColumn where
  qualifier : String
  column : String
  more : List String := []

inductive Comparison where
  | equal
  | different
  | less
  | greater
  | atMost
  | atLeast
  | same

structure ColumnComparison where
  left : QualifiedColumn
  comparison : Comparison := .equal
  right : QualifiedColumn

inductive Connective where
  | both
  | either

inductive JoinCondition where
  | on (first : ColumnComparison) (more : List (Connective × ColumnComparison))
  | columns (first : String) (more : List String)

/-- A reference to a table and what stands before it. -/
inductive FromStep where
  | comma (reference : TableReference)
  | join (prefixes : List String) (reference : TableReference) (condition : Option JoinCondition)

structure FromClause where
  first : TableReference
  steps : List FromStep := []

namespace TableReference

def parts (reference : TableReference) : List String := reference.first :: reference.more

def dotted (reference : TableReference) : String := String.intercalate "." reference.parts

/-- The alias and the table that it is given to. -/
def declared? (reference : TableReference) : Option (String × String) :=
  reference.label.map fun label => (label.name, reference.dotted)

structure Known (reference : TableReference) : Prop where
  parts : ∀ part ∈ reference.parts, IsPlainName part
  label : ∀ label ∈ reference.label, IsPlainName label.name

end TableReference

namespace QualifiedColumn

def parts (column : QualifiedColumn) : List String := column.qualifier :: column.column :: column.more

def dotted (column : QualifiedColumn) : String := String.intercalate "." column.parts

end QualifiedColumn

namespace Comparison

def symbol : Comparison → String
  | equal => "="
  | different => "<>"
  | less => "<"
  | greater => ">"
  | atMost => "<="
  | atLeast => ">="
  | same => "<=>"

def lexeme (comparison : Comparison) : Lexeme := ⟨.operator, comparison.symbol, none, true⟩

end Comparison

def Connective.word : Connective → String
  | both => "AND"
  | either => "OR"

namespace JoinCondition

def Known : JoinCondition → Prop
  | on first more => ∀ comparison ∈ first :: more.map (·.2), ∀ part ∈ comparison.left.parts ++ comparison.right.parts,
      IsPlainName part
  | columns first more => ∀ name ∈ first :: more, IsPlainName name

end JoinCondition

namespace FromStep

def reference : FromStep → TableReference
  | comma reference => reference
  | join _ reference _ => reference

def condition? : FromStep → Option JoinCondition
  | comma _ => none
  | join _ _ condition => condition

def listsColumns : FromStep → Bool
  | join _ _ (some (.columns ..)) => true
  | _ => false

def isComma : FromStep → Bool
  | comma _ => true
  | join .. => false

def Known : FromStep → Prop
  | comma reference => reference.Known
  | join prefixes reference condition =>
    (∀ word ∈ prefixes, word ∈ Keyword.joinPrefixes) ∧ reference.Known ∧ ∀ found ∈ condition, found.Known

end FromStep

namespace FromClause

def references (clause : FromClause) : List TableReference := clause.first :: clause.steps.map FromStep.reference

structure Known (clause : FromClause) : Prop where
  first : clause.first.Known
  steps : ∀ step ∈ clause.steps, step.Known

/-- How many parentheses are open at one time. -/
def depth (clause : FromClause) : Nat :=
  if clause.steps.any FromStep.listsColumns then 1 else 0

end FromClause

end QueryFacts

namespace QueryFacts.Proofs.FromClauses
open Text Lexeme PlainText SelectList ColumnListStatement Selections TextParts JoinKeywords

def dottedLexemes (apart : Bool) (first : String) (more : List String) : List Lexeme :=
  ofName first apart :: more.flatMap fun part => [dot, ofName part false]

def referenceLexemes (reference : TableReference) : List Lexeme :=
  dottedLexemes true reference.first reference.more ++ labelLexemes reference.label

def qualifiedLexemes (column : QualifiedColumn) : List Lexeme :=
  dottedLexemes true column.qualifier (column.column :: column.more)

def comparisonLexemes (comparison : ColumnComparison) : List Lexeme :=
  qualifiedLexemes comparison.left ++ comparison.comparison.lexeme :: qualifiedLexemes comparison.right

/-- Names in parentheses. -/
def listedLexemes (first : String) (more : List String) : List Lexeme :=
  opening :: (ofName first false :: more.flatMap (fun name => [comma, ofName name true]) ++ [closing])

def joinConditionLexemes : JoinCondition → List Lexeme
  | .on first more =>
    ofKeyword "ON" true :: (comparisonLexemes first ++ more.flatMap fun (connective, comparison) =>
      ofKeyword connective.word true :: comparisonLexemes comparison)
  | .columns first more => ofKeyword "USING" true :: listedLexemes first more

/-- What follows the keyword or comma of a step. -/
def stepTail (step : FromStep) : List Lexeme :=
  referenceLexemes step.reference ++ (step.condition?.map joinConditionLexemes).getD []

/-- The words of a step. -/
def stepWords (step : FromStep) : List Lexeme :=
  match step with
  | .comma _ => comma :: stepTail step
  | .join prefixes _ _ => joinWords prefixes ++ stepTail step

/-- The lexemes that its words are read as. -/
def stepLexemes (step : FromStep) : List Lexeme :=
  match step with
  | .comma _ => comma :: stepTail step
  | .join prefixes _ _ => joinKeyword prefixes :: stepTail step

def star : Lexeme := ⟨.wildcard, "*", none, true⟩

/-- What stands between the keywords and commas of steps, apart from parentheses. -/
inductive Flat : Lexeme → Prop where
  | name {name : String} (known : IsPlainName name) (apart : Bool) : Flat (ofName name apart)
  | word {word : String} (known : word ∈ ["AS", "ON", "USING", "AND", "OR"]) : Flat (ofKeyword word true)
  | comparison (comparison : Comparison) : Flat comparison.lexeme
  | dot : Flat dot
  | comma : Flat comma

def selectStar : List Lexeme := [ofKeyword "SELECT" true, star, ofKeyword "FROM" true]

end QueryFacts.Proofs.FromClauses

namespace QueryFacts.FromClause
open Proofs.FromClauses

def words (clause : FromClause) : List Lexeme :=
  selectStar ++ referenceLexemes clause.first ++ clause.steps.flatMap stepWords

def lexemes (clause : FromClause) : List Lexeme :=
  selectStar ++ referenceLexemes clause.first ++ clause.steps.flatMap stepLexemes

/-- The statement that selects everything from the tables. -/
def text (clause : FromClause) : String := String.ofList (Lexeme.written clause.words)

end QueryFacts.FromClause

namespace QueryFacts.Proofs.FromClauses
open Text Lexeme PlainText SelectList ColumnListStatement Selections TextParts JoinKeywords

example : FromClause.text {
    first := { first := "shop", more := ["orders"], label := some ⟨"o", true⟩ }
    steps := [.comma { first := "users", label := some ⟨"u", false⟩ },
      .join ["LEFT", "OUTER"] { first := "items" } (some (.on ⟨⟨"o", "id", []⟩, .equal, ⟨"items", "k", []⟩⟩ [])),
      .join [] { first := "dates" } (some (.columns "id" ["k"]))] } =
    "SELECT * FROM shop.orders AS o, users u LEFT OUTER JOIN items ON o.id = items.k JOIN dates USING (id, k)" :=
  by decide

theorem known_reference {step : FromStep} (known : step.Known) : step.reference.Known := by
  cases step with
  | comma reference => exact known
  | join prefixes reference condition => exact known.2.1

section Parts

variable {glued : Bool}

private theorem near_dot (name : String) (apart : Bool) : Near (ofName name apart) dot :=
  (beside_ofName.mpr ⟨rfl, by decide⟩).near

private theorem near_after_dot (name : String) : Near dot (ofName name false) := (name_beside dot name rfl).near

theorem part_dotted {apart : Bool} {first : String} {more : List String}
    (known : ∀ part ∈ first :: more, IsUnquoted part)
    (space : (glued || apart) = true) : Part glued (dottedLexemes apart first more) where
  plain lexeme member := by
    have named {name : String} (inside : name ∈ first :: more) (apart : Bool) : (ofName name apart).Plain :=
      .word (known name inside).spelled (by simp [(known name inside).free])
    rcases List.mem_cons.mp member with rfl | later
    · exact named List.mem_cons_self apart
    · obtain ⟨part, inside, here⟩ := List.mem_flatMap.mp later
      simp only [List.mem_cons, List.not_mem_nil, or_false] at here
      rcases here with rfl | rfl
      · exact .dot
      · exact named (List.mem_cons_of_mem _ inside) false
  near := by
    clear known space
    unfold dottedLexemes
    induction more generalizing first apart with
    | nil => exact List.isChain_singleton _
    | cons part more ih =>
      exact List.isChain_cons_cons.mpr ⟨near_dot first apart, List.isChain_cons_cons.mpr ⟨near_after_dot part, ih⟩⟩
  leads lexeme found := by
    cases found
    have here := known first List.mem_cons_self
    exact (part_name here.spelled here.free space).leads _ rfl
  ends lexeme found := by
    have named (front : List Lexeme) (name : String) (apart : Bool) (more : List String)
        (found : lexeme ∈ (front ++ dottedLexemes apart name more).getLast?) : Ends lexeme := by
      induction more generalizing front name apart with
      | nil =>
        rw [show dottedLexemes apart name [] = [ofName name apart] from rfl, List.getLast?_concat] at found
        cases found
        exact ⟨nofun, nofun⟩
      | cons part more ih =>
        exact ih (front ++ [ofName name apart, dot]) part false (by simpa [dottedLexemes] using found)
    exact named [] first apart more found

theorem part_label {label : Option Label} (known : ∀ found ∈ label, IsPlainName found.name) :
    Part false (labelLexemes label) := by
  have as : Part false [ofKeyword "AS" true] := part_keyword (by decide) (by decide)
  rcases label with _ | ⟨name, _ | _⟩
  · exact part_nil false
  · exact part_name (known _ rfl).spelled (known _ rfl).free rfl
  · exact as.append (part_name (known _ rfl).spelled (known _ rfl).free rfl)

theorem part_reference {reference : TableReference} (known : reference.Known) :
    Part false (referenceLexemes reference) :=
  (part_dotted (fun part member => (known.parts part member).unquoted) rfl).append (part_label known.label)

/-- An operator stands between two parts. -/
theorem part_operator {first rest : List Lexeme} {operator : Lexeme} (begins : Part glued first) (some : first ≠ [])
    (later : Part false rest) (plain : operator.Plain)
    (symbolic : operator.kind = .operator ∧ operator.spaceBefore = true)
    (noParen : operator.value ≠ "(" ∧ operator.value ≠ "*")
    (apart : ∃ next tail, rest = next :: tail ∧ next.spaceBefore = true) : Part glued (first ++ operator :: rest) where
  plain lexeme member := by
    rcases List.mem_append.mp member with front | back
    · exact begins.plain lexeme front
    · rcases List.mem_cons.mp back with rfl | after
      · exact plain
      · exact later.plain lexeme after
  near := by
    obtain ⟨next, tail, rfl, space⟩ := apart
    have noDot : operator.kind ≠ .dot := by rw [symbolic.1]; nofun
    have leads : Leads false operator :=
      ⟨by rw [symbolic.2]; rfl, noDot, by rw [symbolic.1]; nofun, noParen.1, noParen.2⟩
    refine List.isChain_append.mpr ⟨begins.near, List.isChain_cons_cons.mpr
      ⟨near_space_after noDot space (later.leads next rfl), later.near⟩, fun last ends found same => ?_⟩
    cases same
    exact near_of_leads (begins.ends last ends) leads
  leads lexeme found := by
    obtain ⟨head, tail, rfl⟩ := List.exists_cons_of_ne_nil some
    exact begins.leads lexeme found
  ends lexeme found := by
    obtain ⟨next, tail, rfl, -⟩ := apart
    rw [← List.singleton_append, ← List.append_assoc, List.getLast?_append] at found
    cases ends : (next :: tail).getLast? with
    | none => simp at ends
    | some last =>
      rw [ends] at found
      cases found
      exact later.ends lexeme ends

theorem plain_comparison (comparison : Comparison) : comparison.lexeme.Plain := by
  cases comparison
  · exact .operator (.inr (.inr (.inr rfl)))
  all_goals exact .comparison (by decide)

theorem part_comparison {comparison : ColumnComparison}
    (known : ∀ part ∈ comparison.left.parts ++ comparison.right.parts, IsPlainName part) :
    Part false (comparisonLexemes comparison) := by
  have left : Part false (qualifiedLexemes comparison.left) :=
    part_dotted (fun part member => (known part (List.mem_append_left _ member)).unquoted) rfl
  have right : Part false (qualifiedLexemes comparison.right) :=
    part_dotted (fun part member => (known part (List.mem_append_right _ member)).unquoted) rfl
  exact part_operator left (List.cons_ne_nil _ _) right (plain_comparison _) ⟨rfl, rfl⟩
    (by cases comparison.comparison <;> decide) ⟨_, _, rfl, rfl⟩

theorem part_listed {before : List Lexeme} {first : String} {more : List String} (begins : Part glued before)
    (some : before ≠ []) (noCall : ∀ last ∈ before.getLast?, last.isCallable = false)
    (known : ∀ name ∈ first :: more, IsUnquoted name) : Part glued (before ++ listedLexemes first more) := by
  have name {name : String} (inside : name ∈ first :: more) {glued apart : Bool} (space : (glued || apart) = true) :
      Part glued [ofName name apart] := part_name (known name inside).spelled (known name inside).free space
  have others : Part false (more.flatMap fun name => [comma, ofName name true]) :=
    part_flatMap fun other member => part_comma.append (name (List.mem_cons_of_mem _ member) rfl)
  exact begins.group some noCall ((name List.mem_cons_self rfl).append others) true

theorem part_condition {condition : JoinCondition} (known : condition.Known) :
    Part false (joinConditionLexemes condition) := by
  cases condition with
  | on first more =>
    have on : Part false [ofKeyword "ON" true] := part_keyword (by decide) (by decide)
    have others : Part false (more.flatMap fun (connective, comparison) =>
        ofKeyword connective.word true :: comparisonLexemes comparison) := by
      refine part_flatMap fun ⟨connective, comparison⟩ member => ?_
      have word : Part false [ofKeyword connective.word true] := by
        cases connective <;> exact part_keyword (by decide) (by decide)
      exact word.append (part_comparison (known comparison (List.mem_cons_of_mem _ (List.mem_map_of_mem member))))
    exact on.append ((part_comparison (known first List.mem_cons_self)).append others)
  | columns first more =>
    have word : Part false [ofKeyword "USING" true] := part_keyword (by decide) (by decide)
    refine part_listed word (List.cons_ne_nil _ _) (fun last found => ?_) fun name member =>
      (known name member).unquoted
    cases found
    decide

theorem part_joinWords {prefixes : List String} (known : ∀ word ∈ prefixes, word ∈ Keyword.joinPrefixes) :
    Part false (joinWords prefixes) := by
  have words : ∀ word ∈ "JOIN" :: Keyword.joinPrefixes,
      isIdentifier word.toList = true ∧ Keyword.isReserved (upper word) = true := by decide
  rw [joinWords, ← List.flatMap_pure_eq_map]
  refine part_flatMap fun word member => ?_
  have listed : word ∈ "JOIN" :: Keyword.joinPrefixes := by
    rcases List.mem_append.mp member with inside | last
    · exact List.mem_cons_of_mem _ (known word inside)
    · exact List.mem_singleton.mp last ▸ List.mem_cons_self
  exact part_keyword (words word listed).1 (words word listed).2

theorem part_stepTail {step : FromStep} (known : step.Known) : Part false (stepTail step) := by
  refine (part_reference (known_reference known)).append ?_
  cases step with
  | comma reference => exact part_nil false
  | join prefixes reference condition =>
    cases condition with
    | none => exact part_nil false
    | some condition => exact part_condition (known.2.2 condition rfl)

theorem part_step {step : FromStep} (known : step.Known) : Part false (stepWords step) := by
  have tail := part_stepTail known
  cases step with
  | comma reference => exact part_comma.append tail
  | join prefixes reference condition => exact (part_joinWords known.1).append tail

theorem part_selectStar : Part false selectStar where
  plain := by
    intro lexeme member
    simp only [selectStar, List.mem_cons, List.not_mem_nil, or_false] at member
    rcases member with rfl | rfl | rfl
    · exact plain_keyword (by decide) (by decide) true
    · exact .star (.inr rfl)
    · exact plain_keyword (by decide) (by decide) true
  near := by
    have first : Near (ofKeyword "SELECT" true) star := ⟨rfl, by decide⟩
    have second : Near star (ofKeyword "FROM" true) := ⟨rfl, by decide⟩
    exact List.isChain_cons_cons.mpr ⟨first, List.isChain_cons_cons.mpr ⟨second, List.isChain_singleton _⟩⟩
  leads _ found := by
    cases found
    exact ⟨rfl, nofun, nofun, by decide, by decide⟩
  ends _ found := by
    cases found
    exact ⟨nofun, nofun⟩

theorem readable_words {clause : FromClause} (known : clause.Known) : Readable clause.words := by
  have whole : Part false clause.words :=
    (part_selectStar.append (part_reference known.first)).append (part_flatMap fun step member =>
      part_step (known.steps step member))
  refine whole.readable fun lexeme found => ?_
  cases found
  exact ⟨rfl, nofun⟩

end Parts

section Flat

theorem flat_dotted {apart : Bool} {first : String} {more : List String}
    (known : ∀ part ∈ first :: more, IsPlainName part) :
    ∀ lexeme ∈ dottedLexemes apart first more, Flat lexeme := by
  intro lexeme member
  rcases List.mem_cons.mp member with rfl | later
  · exact .name (known first List.mem_cons_self) apart
  · obtain ⟨part, inside, here⟩ := List.mem_flatMap.mp later
    simp only [List.mem_cons, List.not_mem_nil, or_false] at here
    rcases here with rfl | rfl
    · exact .dot
    · exact .name (known part (List.mem_cons_of_mem _ inside)) false

theorem flat_reference {reference : TableReference} (known : reference.Known) :
    ∀ lexeme ∈ referenceLexemes reference, Flat lexeme := by
  obtain ⟨parts, label⟩ := known
  intro lexeme member
  rcases List.mem_append.mp member with name | labelled
  · exact flat_dotted parts lexeme name
  · rcases found : reference.label with _ | ⟨name, _ | _⟩ <;> rw [found] at labelled label
    · cases labelled
    · exact List.mem_singleton.mp labelled ▸ .name (label _ rfl) true
    · rcases List.mem_cons.mp labelled with rfl | last
      · exact .word (by decide)
      · exact List.mem_singleton.mp last ▸ .name (label _ rfl) true

theorem flat_comparison {comparison : ColumnComparison}
    (known : ∀ part ∈ comparison.left.parts ++ comparison.right.parts, IsPlainName part) :
    ∀ lexeme ∈ comparisonLexemes comparison, Flat lexeme := by
  intro lexeme member
  rcases List.mem_append.mp member with left | right
  · exact flat_dotted (fun part inside => known part (List.mem_append_left _ inside)) lexeme left
  · rcases List.mem_cons.mp right with rfl | right
    · exact .comparison _
    · exact flat_dotted (fun part inside => known part (List.mem_append_right _ inside)) lexeme right

theorem flat_on {first : ColumnComparison} {more : List (Connective × ColumnComparison)}
    (known : (JoinCondition.on first more).Known) :
    ∀ lexeme ∈ joinConditionLexemes (.on first more), Flat lexeme := by
  intro lexeme member
  rcases List.mem_cons.mp member with rfl | later
  · exact .word (by decide)
  · rcases List.mem_append.mp later with here | others
    · exact flat_comparison (known first List.mem_cons_self) lexeme here
    · obtain ⟨⟨connective, comparison⟩, inside, here⟩ := List.mem_flatMap.mp others
      rcases List.mem_cons.mp here with rfl | here
      · cases connective <;> exact .word (by decide)
      · exact flat_comparison (known comparison (List.mem_cons_of_mem _ (List.mem_map_of_mem inside))) lexeme here

theorem flat_names {first : String} {more : List String} (known : ∀ name ∈ first :: more, IsPlainName name) :
    ∀ lexeme ∈ ofName first false :: more.flatMap (fun name => [comma, ofName name true]), Flat lexeme := by
  intro lexeme member
  rcases List.mem_cons.mp member with rfl | later
  · exact .name (known first List.mem_cons_self) false
  · obtain ⟨name, inside, here⟩ := List.mem_flatMap.mp later
    simp only [List.mem_cons, List.not_mem_nil, or_false] at here
    rcases here with rfl | rfl
    · exact .comma
    · exact .name (known name (List.mem_cons_of_mem _ inside)) true

theorem flat_condition {condition : JoinCondition} (known : condition.Known) :
    ∀ lexeme ∈ joinConditionLexemes condition, Flat lexeme ∨ lexeme = opening ∨ lexeme = closing := by
  intro lexeme member
  cases condition with
  | on first more => exact .inl (flat_on known lexeme member)
  | columns first more =>
    rcases List.mem_cons.mp member with rfl | listed
    · exact .inl (.word (by decide))
    · rcases List.mem_cons.mp listed with rfl | later
      · exact .inr (.inl rfl)
      · exact (List.mem_append.mp later).imp (flat_names known lexeme) fun last => .inr (List.mem_singleton.mp last)

/-- The lexemes of a step after its keyword or comma. -/
theorem flat_stepTail {step : FromStep} (known : step.Known) :
    ∀ lexeme ∈ stepTail step, Flat lexeme ∨ lexeme = opening ∨ lexeme = closing := by
  intro lexeme member
  rcases List.mem_append.mp member with table | rest
  · exact .inl (flat_reference (known_reference known) lexeme table)
  · cases step with
    | comma reference => cases rest
    | join prefixes reference condition =>
      cases condition with
      | none => cases rest
      | some condition => exact flat_condition (known.2.2 condition rfl) lexeme rest

variable {lexeme : Lexeme}

theorem side?_of_flat (flat : Flat lexeme) : lexeme.side? = none := by
  cases flat with
  | comparison comparison => cases comparison <;> decide
  | comma => decide
  | name | word | dot => rfl

theorem alone_of_flat (flat : Flat lexeme) : Alone lexeme := by
  cases flat with
  | word known =>
    have words : ∀ word ∈ ["AS", "ON", "USING", "AND", "OR"], Alone (ofKeyword word true) := by unfold Alone; decide
    exact words _ known
  | name | comparison | dot | comma => exact ⟨rfl, rfl⟩

/-- No clause of a query begins there. -/
theorem normalized_of_flat (flat : Flat lexeme) : lexeme.normalized ≠ "WITH" ∧ lexeme.normalized ≠ "SELECT" := by
  have reserved : Keyword.isReserved "WITH" = true ∧ Keyword.isReserved "SELECT" = true := by decide
  cases flat with
  | @name name known apart =>
    have free {word : String} (reserved : Keyword.isReserved word = true) : (ofName name apart).normalized ≠ word := by
      rintro rfl
      exact absurd (known.unread.symm.trans reserved) (by decide)
    exact ⟨free reserved.1, free reserved.2⟩
  | word known =>
    have words : ∀ word ∈ ["AS", "ON", "USING", "AND", "OR"], (ofKeyword word true).normalized ≠ "WITH" ∧
        (ofKeyword word true).normalized ≠ "SELECT" := by decide
    exact words _ known
  | comparison comparison => cases comparison <;> exact ⟨by decide, by decide⟩
  | dot | comma => exact ⟨by decide, by decide⟩

end Flat

section Merging

/-- The words of a step are read as its lexemes. -/
theorem merge_step {step : FromStep} (known : step.Known) (rest : List Lexeme) :
    mergeCompounds (stepWords step ++ rest) = stepLexemes step ++ mergeCompounds rest := by
  have alone : ∀ lexeme ∈ stepTail step, Alone lexeme := by
    intro lexeme member
    rcases flat_stepTail known lexeme member with flat | rfl | rfl
    · exact alone_of_flat flat
    · exact ⟨rfl, rfl⟩
    · exact ⟨rfl, rfl⟩
  have tail := mergeCompounds_alone alone rest
  cases step with
  | comma reference =>
    have mark : ∀ lexeme ∈ [comma], Alone lexeme := fun lexeme member => List.mem_singleton.mp member ▸ ⟨rfl, rfl⟩
    have here := mergeCompounds_alone mark (stepTail (.comma reference) ++ rest)
    rw [tail] at here
    exact here
  | join prefixes reference condition =>
    rw [stepWords, List.append_assoc, mergeCompounds_join known.1, tail]
    rfl

theorem merge_words {clause : FromClause} (known : clause.Known) : mergeCompounds clause.words = clause.lexemes := by
  have words : ∀ lexeme ∈ selectStar, Alone lexeme := by unfold Alone; decide
  have first : ∀ lexeme ∈ selectStar ++ referenceLexemes clause.first, Alone lexeme := fun lexeme member =>
    (List.mem_append.mp member).elim (words lexeme) fun table => alone_of_flat (flat_reference known.first lexeme table)
  have steps (steps : List FromStep) (known : ∀ step ∈ steps, step.Known) :
      mergeCompounds (steps.flatMap stepWords) = steps.flatMap stepLexemes := by
    induction steps with
    | nil =>
      unfold mergeCompounds
      rw [List.flatMap_nil, compounds]
      rfl
    | cons step steps ih =>
      rw [List.flatMap_cons, merge_step (known step List.mem_cons_self),
        ih fun other member => known other (List.mem_cons_of_mem _ member), List.flatMap_cons]
  rw [FromClause.words, mergeCompounds_alone first, steps clause.steps known.steps, FromClause.lexemes]

/-- The clause has neither a WITH clause nor another query. -/
theorem normalized_lexemes {clause : FromClause} (known : clause.Known) :
    (∀ lexeme ∈ clause.lexemes, lexeme.normalized ≠ "WITH") ∧
        ∀ lexeme ∈ clause.lexemes.tail, lexeme.normalized ≠ "SELECT" := by
  have tail : ∀ lexeme ∈ clause.lexemes.tail, lexeme.normalized ≠ "WITH" ∧ lexeme.normalized ≠ "SELECT" := by
    intro lexeme member
    rw [show clause.lexemes.tail = [star, ofKeyword "FROM" true] ++ referenceLexemes clause.first ++
      clause.steps.flatMap stepLexemes from rfl, List.mem_append, List.mem_append] at member
    rcases member with (words | table) | steps
    · revert lexeme
      decide
    · exact normalized_of_flat (flat_reference known.first lexeme table)
    · obtain ⟨step, inside, here⟩ := List.mem_flatMap.mp steps
      have rest (member : lexeme ∈ stepTail step) : lexeme.normalized ≠ "WITH" ∧ lexeme.normalized ≠ "SELECT" := by
        rcases flat_stepTail (known.steps step inside) lexeme member with flat | rfl | rfl
        · exact normalized_of_flat flat
        · exact ⟨by decide, by decide⟩
        · exact ⟨by decide, by decide⟩
      cases step with
      | comma reference =>
        rcases List.mem_cons.mp here with rfl | here
        · exact ⟨by decide, by decide⟩
        · exact rest here
      | join prefixes reference condition =>
        rcases List.mem_cons.mp here with rfl | here
        · rw [normalized_joinKeyword (known.steps _ inside).1]
          exact ⟨mergedJoin_ne (by decide) prefixes, mergedJoin_ne (by decide) prefixes⟩
        · exact rest here
  refine ⟨fun lexeme member => ?_, fun lexeme member => (tail lexeme member).2⟩
  rcases List.mem_cons.mp (show lexeme ∈ ofKeyword "SELECT" true :: clause.lexemes.tail from member) with rfl | later
  · decide
  · exact (tail lexeme later).1

end Merging

section Parentheses
open NestingRun

private theorem shallow_of_flat {lexemes : List Lexeme} (flat : ∀ lexeme ∈ lexemes, Flat lexeme) (bound : Nat) :
    Shallow (sides lexemes) bound := shallow_level (fun lexeme member => side?_of_flat (flat lexeme member)) bound

theorem shallow_listed {first : String} {more : List String} (known : ∀ name ∈ first :: more, IsPlainName name) :
    Shallow (sides (listedLexemes first more)) 1 := by
  have inner := (shallow_of_flat (flat_names known) 0).wrap
  rw [listedLexemes, sides, List.map_cons, List.map_append]
  exact inner

theorem shallow_step {step : FromStep} (known : step.Known) :
    Shallow (sides (stepLexemes step)) (if step.listsColumns then 1 else 0) := by
  have head {lexeme : Lexeme} {reference : TableReference} (flat : lexeme.side? = none)
      (known : reference.Known) (bound : Nat) :
      Shallow (sides (lexeme :: referenceLexemes reference)) bound := by
    rw [← List.singleton_append, sides_append]
    exact (shallow_level (by simpa using flat) bound).append (shallow_of_flat (flat_reference known) bound)
  cases step with
  | comma reference =>
    rw [stepLexemes, stepTail, FromStep.condition?, Option.map_none, Option.getD_none, List.append_nil]
    exact head (by decide) known _
  | join prefixes reference condition =>
    rw [stepLexemes, stepTail, ← List.cons_append, sides_append]
    refine (head rfl known.2.1 _).append ?_
    cases condition with
    | none => exact @shallow_level [] nofun _
    | some condition =>
      cases condition with
      | on first more => exact shallow_of_flat (flat_on (known.2.2 _ rfl)) _
      | columns first more =>
        have word : ∀ lexeme ∈ [ofKeyword "USING" true], lexeme.side? = Option.none := by decide
        exact (shallow_level word 1).append (shallow_listed (known.2.2 _ rfl))

theorem shallow_lexemes {clause : FromClause} (known : clause.Known) : Shallow (sides clause.lexemes) clause.depth := by
  have words : ∀ lexeme ∈ selectStar, lexeme.side? = none := by decide
  have first : Shallow (sides (selectStar ++ referenceLexemes clause.first)) clause.depth := by
    rw [sides_append]
    exact (shallow_level words _).append (shallow_of_flat (flat_reference known.first) _)
  have general (steps : List FromStep) (known : ∀ step ∈ steps, step.Known) (bound : Nat) (deep : ∀ step ∈ steps,
      (if step.listsColumns then 1 else 0) ≤ bound) : Shallow (sides (steps.flatMap stepLexemes)) bound := by
    induction steps with
    | nil => exact @shallow_level [] nofun _
    | cons step steps ih =>
      rw [List.flatMap_cons, sides_append]
      exact ((shallow_step (known step List.mem_cons_self)).mono (deep step List.mem_cons_self)).append
        (ih (fun other member => known other (List.mem_cons_of_mem _ member)) fun other member =>
          deep other (List.mem_cons_of_mem _ member))
  rw [FromClause.lexemes, sides_append]
  refine first.append (general clause.steps known.steps clause.depth fun step member => ?_)
  unfold FromClause.depth
  split
  next listed => rw [if_pos (List.any_eq_true.mpr ⟨step, member, listed⟩)]
  next => exact Nat.zero_le _

end Parentheses

end QueryFacts.Proofs.FromClauses
