import QueryFacts.Proofs.CallArguments
import QueryFacts.Proofs.ExpressionSpots
import QueryFacts.Proofs.JoinKeywords
import QueryFacts.Proofs.LiteralRowReading
import QueryFacts.Proofs.Union

/-! Formulas: the operands of a select list with operators, stars and commas between them, in parentheses, calls and
CASE. What their lexemes are classified as, and which columns they mention, is told piece by piece. -/

namespace QueryFacts
open Lexeme

/-- The keyword `word`, which is given in upper case. -/
structure BareWord (word : String) where
  lexeme : Lexeme
  bare : lexeme.IsBareWord word

structure Parentheses where
  opening : Lexeme
  closing : Lexeme
  opens : opening.isPunctuation "(" = true
  closes : closing.isPunctuation ")" = true

def Parentheses.around (parentheses : Parentheses) (inner : List Lexeme) : List Lexeme :=
  parentheses.opening :: (inner ++ [parentheses.closing])

namespace Lexeme

/-- What may stand between two operands: an operator that is no cast, a star, which the lexer takes for a
wildcard, or a comma. -/
inductive IsSign (sign : Lexeme) : Prop where
  | operator (kind : sign.kind = .operator) (noCast : sign.value ≠ "::")
  | star (kind : sign.kind = .wildcard) (value : sign.value = "*")
  | comma (mark : sign.isPunctuation "," = true)

/-- A name, or a keyword that is a function in front of a parenthesis. -/
def IsFunction (lexeme : Lexeme) : Prop := lexeme.isName = true ∨ lexeme.isCallable = true

/-- What a sign behind an operand is taken for that ends with `last`. -/
def takenBehind (last sign : Lexeme) : Lexeme :=
  if sign.isWildcard && !last.isKeyword then { sign with kind := .operator } else sign

end Lexeme

/-- The lexemes of an expression, or of several with commas between them. -/
inductive Formula where
  | column (name : Lexeme) (named : name.isName = true) (plain : '.' ∉ name.value.toList)
  | literal (value : Lexeme) (known : value.kind = .integer ∨ value.kind = .literal)
  | constant {word : String} (known : word ∈ ["NULL", "TRUE", "FALSE"]) (spelled : BareWord word)
  | joined (left : Formula) (sign : Lexeme) (joins : sign.IsSign) (right : Formula)
  | choice (caseWord : BareWord "CASE") (whenWord : BareWord "WHEN") (condition : Formula)
    (thenWord : BareWord "THEN") (value : Formula)
      (elseWord : BareWord "ELSE") (other : Formula) (endWord : BareWord "END")
  | group (parentheses : Parentheses) (inner : Formula)
  | emptyCall (function : Lexeme) (called : function.IsFunction) (parentheses : Parentheses)
  | call (function : Lexeme) (called : function.IsFunction) (parentheses : Parentheses) (arguments : Formula)

namespace Formula

def words : List String := ["NULL", "TRUE", "FALSE", "CASE", "WHEN", "THEN", "ELSE", "END"]

/-- The lexemes as the lexer finds them. -/
def lexemes : Formula → List Lexeme
  | column name .. => [name]
  | literal value _ => [value]
  | constant _ spelled => [spelled.lexeme]
  | joined left sign _ right => left.lexemes ++ sign :: right.lexemes
  | choice caseWord whenWord condition thenWord value elseWord other endWord =>
    caseWord.lexeme :: whenWord.lexeme :: (condition.lexemes ++ thenWord.lexeme :: (value.lexemes ++
      elseWord.lexeme :: (other.lexemes ++ [endWord.lexeme])))
  | group parentheses inner => parentheses.around inner.lexemes
  | emptyCall function _ parentheses => function :: parentheses.around []
  | call function _ parentheses arguments => function :: parentheses.around arguments.lexemes

/-- The last of the lexemes. -/
def last : Formula → Lexeme
  | column name .. => name
  | literal value _ => value
  | constant _ spelled => spelled.lexeme
  | joined _ _ _ right => right.last
  | choice _ _ _ _ _ _ _ endWord => endWord.lexeme
  | group parentheses _ => parentheses.closing
  | emptyCall _ _ parentheses => parentheses.closing
  | call _ _ parentheses _ => parentheses.closing

/-- The lexemes with keywords told from names and wildcards from operators. -/
def classified : Formula → List Lexeme
  | column name .. => [name]
  | literal value _ => [value]
  | constant _ spelled => [spelled.lexeme]
  | joined left sign _ right => left.classified ++ left.last.takenBehind sign :: right.classified
  | choice caseWord whenWord condition thenWord value elseWord other endWord =>
    caseWord.lexeme :: whenWord.lexeme :: (condition.classified ++ thenWord.lexeme :: (value.classified ++
      elseWord.lexeme :: (other.classified ++ [endWord.lexeme])))
  | group parentheses inner => parentheses.around inner.classified
  | emptyCall function _ parentheses => { function with kind := .name } :: parentheses.around []
  | call function _ parentheses arguments => { function with kind := .name } :: parentheses.around arguments.classified

/-- A star stands directly behind a keyword. -/
def hasKeywordStar : Formula → Bool
  | joined left sign _ right => left.hasKeywordStar || (sign.isWildcard && left.last.isKeyword) || right.hasKeywordStar
  | choice _ _ condition _ value _ other _ => condition.hasKeywordStar || value.hasKeywordStar || other.hasKeywordStar
  | group _ inner => inner.hasKeywordStar
  | call _ _ _ arguments => arguments.hasKeywordStar
  | column .. | literal .. | constant .. | emptyCall .. => false

/-- The columns of a formula, and perhaps its stars that stand directly behind keywords. The name of a function that is
never a column is none here either. -/
def mentioned (stars : Bool) : Formula → List String
  | column name .. => if Keyword.isIgnoredFunction name.normalized then [] else [name.value]
  | joined left sign _ right =>
    left.mentioned stars ++ (if stars && (sign.isWildcard && left.last.isKeyword) then ["*"] else []) ++
      right.mentioned stars
  | choice _ _ condition _ value _ other _ =>
    condition.mentioned stars ++ value.mentioned stars ++ other.mentioned stars
  | group _ inner => inner.mentioned stars
  | call _ _ _ arguments => arguments.mentioned stars
  | literal .. | constant .. | emptyCall .. => []

def columns (formula : Formula) : List String := formula.mentioned false

def depth : Formula → Nat
  | joined left _ _ right => max left.depth right.depth
  | choice _ _ condition _ value _ other _ => max condition.depth (max value.depth other.depth)
  | group _ inner => inner.depth + 1
  | call _ _ _ arguments => arguments.depth + 1
  | emptyCall .. => 1
  | column .. | literal .. | constant .. => 0

end Formula

/-- SELECT, a formula, FROM, and a table. -/
structure FormulaSelection where
  select : BareWord "SELECT"
  formula : Formula
  source : BareWord "FROM"
  table : Lexeme
  named : table.isName = true

namespace FormulaSelection

def words : List String := "SELECT" :: "FROM" :: Formula.words

def around (selection : FormulaSelection) (list : List Lexeme) : List Lexeme :=
  selection.select.lexeme :: (list ++ [selection.source.lexeme, selection.table])

/-- The lexemes as the lexer finds them. -/
def lexemes (selection : FormulaSelection) : List Lexeme := selection.around selection.formula.lexemes

def classified (selection : FormulaSelection) : List Lexeme := selection.around selection.formula.classified

end FormulaSelection

end QueryFacts

namespace QueryFacts.Proofs.Formulas
open Lexeme Parenthesis Spots Clauses ColumnSpots MentionSpots ExpressionSpots SelectList NestingRun
open CreatedColumns CallArguments
  LiteralRowReading SpelledLiterals Unnested MeantColumns

section Words

variable {lexeme last sign : Lexeme} {word : String}

theorem spelled_of_word (bare : lexeme.IsBareWord word) :
    lexeme.kind = .keyword ∧ IsSpelling word lexeme.value.toList := by
  have spelled := bare.word
  rw [isWord, Bool.and_eq_true, beq_iff_eq] at spelled
  exact ⟨eq_of_beq spelled.1, spelled.2⟩

theorem within_of_word {words : List String} (listed : word ∈ words) (bare : lexeme.IsBareWord word) :
    lexeme.KeywordsIn words :=
  fun _ => ⟨word, listed, bare.bare, (spelled_of_word bare).2⟩

/-- What a formula may stand behind in a select list. -/
structure Leads (last : Lexeme) : Prop where
  fresh : Fresh last
  noDot : last.isDot = false
  stays : last.isKeyword = true → Keyword.isInsignificant last.normalized = true

/-- What an operand may end with. -/
structure Completes (last : Lexeme) : Prop where
  noDot : last.isDot = false
  noComma : last.isPunctuation "," = false
  noOpening : last.isPunctuation "(" = false

theorem fresh_of_word (known : word ∈ ["SELECT", "CASE", "WHEN", "THEN", "ELSE"]) (bare : lexeme.IsBareWord word) :
    Fresh lexeme ∧ lexeme.isDot = false := by
  have facts : ∀ word ∈ ["SELECT", "CASE", "WHEN", "THEN", "ELSE"], word.toList.all (·.isUpper) = true ∧
      word ≠ "AS" ∧ word ≠ "END" ∧
      ¬IsSpelling word "::".toList := by decide
  obtain ⟨letters, noAs, noEnd, noCast⟩ := facts word known
  obtain ⟨-, normalized⟩ := normalized_of_word letters bare
  obtain ⟨kind, spelled⟩ := spelled_of_word bare
  have value : lexeme.value ≠ "::" := fun same => noCast (same ▸ spelled)
  refine ⟨⟨⟨?_, ?_, beq_eq_false_iff_ne.mpr value, ?_⟩, ?_, ?_⟩, ?_⟩
  all_goals simp [reads, normalized, noAs, noEnd, isPunctuation, isName, isDot, kind]

theorem leads_of_word (known : word ∈ ["CASE", "WHEN", "THEN", "ELSE"])
    (bare : lexeme.IsBareWord word) : Leads lexeme := by
  have facts : ∀ word ∈ ["CASE", "WHEN", "THEN", "ELSE"], word.toList.all (·.isUpper) = true ∧
      Keyword.isInsignificant word = true := by
    decide
  obtain ⟨letters, stays⟩ := facts word known
  obtain ⟨fresh, noDot⟩ := fresh_of_word (List.mem_cons_of_mem _ known) bare
  exact ⟨fresh, noDot, fun _ => (normalized_of_word letters bare).2 ▸ stays⟩

/-- A mark or an operator. -/
theorem leads_of_kind (kind : lexeme.kind = .punctuation ∨ lexeme.kind = .operator ∨ lexeme.kind = .wildcard)
    (noClosing : lexeme.isPunctuation ")" = false) (noCast : lexeme.value ≠ "::") : Leads lexeme := by
  refine ⟨⟨⟨?_, noClosing, beq_eq_false_iff_ne.mpr noCast, ?_⟩, ?_, ?_⟩, ?_, ?_⟩
  all_goals rcases kind with kind | kind | kind <;> simp [reads, isName, isDot, isKeyword, kind]

theorem leads_of_opening (opens : lexeme.isPunctuation "(" = true) : Leads lexeme := by
  simp only [isPunctuation, Bool.and_eq_true, beq_iff_eq] at opens
  exact leads_of_kind (.inl opens.1) (by rw [isPunctuation, opens.2]; simp) (by rw [opens.2]; decide)

theorem completes_of_word (bare : lexeme.IsBareWord word) : Completes lexeme := by
  obtain ⟨kind, -⟩ := spelled_of_word bare
  exact ⟨by simp [isDot, kind], by simp [isPunctuation, kind], by simp [isPunctuation, kind]⟩

theorem completes_of_closing (closes : lexeme.isPunctuation ")" = true) : Completes lexeme := by
  simp only [isPunctuation, Bool.and_eq_true, beq_iff_eq] at closes
  exact ⟨by simp [isDot, closes], by simp [isPunctuation, closes], by simp [isPunctuation, closes]⟩

theorem takenBehind_of_other (other : sign.isWildcard = false) : last.takenBehind sign = sign := by
  rw [takenBehind, other, Bool.false_and, if_neg Bool.false_ne_true]

theorem isWildcard_takenBehind : (last.takenBehind sign).isWildcard = (sign.isWildcard && last.isKeyword) := by
  unfold takenBehind
  split
  next other =>
    have keyword : last.isKeyword = false := by simpa using (Bool.and_eq_true_iff.mp other).2
    rw [keyword, Bool.and_false]
    rfl
  next taken => cases wild : sign.isWildcard <;> simp_all

/-- A formula may follow each sign, which is neither a parenthesis nor a keyword. -/
theorem leads_of_sign (joins : sign.IsSign) (last : Lexeme) :
    Leads (last.takenBehind sign) ∧ (last.takenBehind sign).Wordless := by
  cases joins with
  | operator kind noCast =>
    have noMark (text : String) : sign.isPunctuation text = false := by simp [isPunctuation, kind]
    rw [takenBehind_of_other (by simp [isWildcard, kind])]
    exact ⟨leads_of_kind (.inr (.inl kind)) (noMark _) noCast, by simp [side?, noMark], by simp [isKeyword, kind]⟩
  | star kind value =>
    have same : (last.takenBehind sign).value = "*" := by unfold takenBehind; split <;> exact value
    have kind : (last.takenBehind sign).kind = .operator ∨ (last.takenBehind sign).kind = .wildcard := by
      unfold takenBehind
      split
      · exact .inl rfl
      · exact .inr kind
    have noMark (text : String) : (last.takenBehind sign).isPunctuation text = false := by
      rcases kind with kind | kind <;> simp [isPunctuation, kind]
    exact ⟨leads_of_kind (.inr kind) (noMark _) (by rw [same]; decide), by simp [side?, noMark],
      by rcases kind with kind | kind <;> simp [isKeyword, kind]⟩
  | comma mark =>
    have wordless := wordless_of_comma mark
    simp only [isPunctuation, Bool.and_eq_true, beq_iff_eq] at mark
    rw [takenBehind_of_other (by simp [isWildcard, mark])]
    exact ⟨leads_of_kind (.inl mark.1) (by simp [isPunctuation, mark]) (by rw [mark.2]; decide), wordless⟩

end Words

section Formulas

variable {formula : Formula}

theorem completes_last (formula : Formula) : Completes formula.last := by
  induction formula with
  | column name named =>
    have kind : name.kind = .name := eq_of_beq named
    exact ⟨by simp [Formula.last, isDot, kind], by simp [Formula.last, isPunctuation, kind],
      by simp [Formula.last, isPunctuation, kind]⟩
  | literal value known =>
    rcases known with kind | kind <;>
      exact ⟨by simp [Formula.last, isDot, kind], by simp [Formula.last, isPunctuation, kind],
        by simp [Formula.last, isPunctuation, kind]⟩
  | constant known spelled => exact completes_of_word spelled.bare
  | joined left sign joins right ihLeft ihRight => exact ihRight
  | choice caseWord whenWord condition thenWord value elseWord other endWord => exact completes_of_word endWord.bare
  | group parentheses | emptyCall _ _ parentheses | call _ _ parentheses =>
    exact completes_of_closing parentheses.closes

theorem classified_eq (formula : Formula) : ∃ front, formula.classified = front ++ [formula.last] := by
  induction formula with
  | column | literal | constant => exact ⟨[], rfl⟩
  | joined left sign joins right ihLeft ihRight =>
    obtain ⟨front, same⟩ := ihRight
    exact ⟨left.classified ++ left.last.takenBehind sign :: front, by simp [Formula.classified, Formula.last, same]⟩
  | choice caseWord whenWord condition thenWord value elseWord other endWord =>
    exact ⟨caseWord.lexeme :: whenWord.lexeme :: (condition.classified ++ thenWord.lexeme :: (value.classified ++
      elseWord.lexeme :: other.classified)), by simp [Formula.classified, Formula.last]⟩
  | group parentheses inner => exact ⟨parentheses.opening :: inner.classified, rfl⟩
  | emptyCall function called parentheses => exact ⟨[{ function with kind := .name }, parentheses.opening], rfl⟩
  | call function called parentheses arguments =>
    exact ⟨{ function with kind := .name } :: parentheses.opening :: arguments.classified, rfl⟩

/-- No formula begins with a dot. -/
theorem noDot_lexemes (formula : Formula) (rest : List Lexeme) : (formula.lexemes ++ rest).head?.any isDot = false := by
  induction formula generalizing rest with
  | column name named =>
    have kind : name.kind = .name := eq_of_beq named
    simp [Formula.lexemes, isDot, kind]
  | literal value known => rcases known with kind | kind <;> simp [Formula.lexemes, isDot, kind]
  | constant known spelled => simp [Formula.lexemes, isDot, (spelled_of_word spelled.bare).1]
  | joined left sign joins right ihLeft =>
    rw [Formula.lexemes, List.append_assoc]
    exact ihLeft _
  | choice caseWord => simp [Formula.lexemes, isDot, (spelled_of_word caseWord.bare).1]
  | group parentheses => simpa [Formula.lexemes, Parentheses.around] using (facts_of_punctuation parentheses.opens).2.1
  | emptyCall function called | call function called =>
    have kind : function.kind = .name ∨ function.kind = .keyword := by
      rcases called with named | callable
      · exact .inl (eq_of_beq named)
      · exact .inr (eq_of_beq (Bool.and_eq_true .. ▸ callable : _ ∧ _).1)
    rcases kind with kind | kind <;> simp [Formula.lexemes, isDot, kind]

end Formulas

section Classification

variable {before after : Option Lexeme} {lexeme last sign : Lexeme} {word : String}

theorem reclassify_other (other : lexeme.kind ≠ .keyword ∧ lexeme.kind ≠ .wildcard) :
    reclassify before lexeme after = lexeme := by
  unfold reclassify
  split
  next kind => exact absurd kind other.1
  next kind => exact absurd kind other.2
  next => rfl

/-- Away from dots, a word that is no function stays a keyword. -/
theorem reclassify_word (known : word ∈ FormulaSelection.words) (bare : lexeme.IsBareWord word)
    (left : before.any isDot = false)
    (right : after.any isDot = false) : reclassify before lexeme after = lexeme := by
  have facts : ∀ word ∈ FormulaSelection.words, word.toList.all (·.isUpper) = true ∧
      Keyword.isFunctionLike word = false := by decide
  obtain ⟨letters, noFunction⟩ := facts word known
  obtain ⟨kind, spelled⟩ := spelled_of_word bare
  have upper := Spelling.upper_of_spelling letters spelled
  rw [String.ofList_toList] at upper
  have noDots : before.any (·.kind == .dot) = false ∧ after.any (·.kind == .dot) = false := ⟨left, right⟩
  simp [reclassify, kind, noDots, upper, noFunction]

theorem reclassify_function (called : lexeme.IsFunction) {opening : Lexeme} (opens : opening.isPunctuation "(" = true) :
    reclassify before lexeme (some opening) = { lexeme with kind := .name } := by
  rcases called with named | callable
  · have kind : lexeme.kind = .name := eq_of_beq named
    rw [reclassify_other (by simp [kind]), ← kind]
  · rw [isCallable, Bool.and_eq_true] at callable
    have kind : lexeme.kind = .keyword := eq_of_beq callable.1
    simp [reclassify, kind, opens, callable.2]

/-- Behind an operand a star is a wildcard only if the operand ends with a keyword. -/
theorem reclassify_sign (completes : Completes last) (joins : sign.IsSign) :
    reclassify (some last) sign after = last.takenBehind sign := by
  cases joins with
  | operator kind =>
    rw [takenBehind_of_other (by simp [isWildcard, kind])]
    exact reclassify_other (by simp [kind])
  | star kind =>
    have noDot : (last.kind == .dot) = false := completes.noDot
    cases keyword : last.isKeyword <;>
      simp [reclassify, takenBehind, isWildcard, kind, noDot, completes.noComma, completes.noOpening, keyword]
  | comma mark =>
    simp only [isPunctuation, Bool.and_eq_true, beq_iff_eq] at mark
    rw [takenBehind_of_other (by simp [isWildcard, mark])]
    exact reclassify_other (by simp [mark])

section Steps

variable {rest : List Lexeme}

/-- A keyword in front of lexemes that do not begin with a dot. -/
theorem reclassifyFrom_word (noDot : last.isDot = false) (known : word ∈ FormulaSelection.words)
    (bare : lexeme.IsBareWord word)
    (ends : rest.head?.any isDot = false) :
    reclassifyFrom (some last) (lexeme :: rest) = lexeme :: reclassifyFrom (some lexeme) rest := by
  have left : (some last).any isDot = false := noDot
  rw [reclassifyFrom, reclassify_word known bare left ends]

theorem reclassifyFrom_mark {text : String} (mark : lexeme.isPunctuation text = true) :
    reclassifyFrom before (lexeme :: rest) = lexeme :: reclassifyFrom (some lexeme) rest := by
  rw [isPunctuation, Bool.and_eq_true, beq_iff_eq] at mark
  rw [reclassifyFrom, reclassify_other (by simp [mark])]

theorem reclassifyFrom_function (called : lexeme.IsFunction) {opening : Lexeme}
    (opens : opening.isPunctuation "(" = true) :
    reclassifyFrom before (lexeme :: opening :: rest) =
      { lexeme with kind := .name } :: opening :: reclassifyFrom (some opening) rest := by
  rw [reclassifyFrom, List.head?_cons, reclassify_function called opens, reclassifyFrom_mark opens]

/-- A formula is classified the same way wherever it stands. -/
theorem reclassifyFrom_formula (formula : Formula) (noDot : last.isDot = false) (ends : rest.head?.any isDot = false) :
    reclassifyFrom (some last) (formula.lexemes ++ rest) =
        formula.classified ++ reclassifyFrom (some formula.last) rest := by
  have dotless {word : String} (spelled : BareWord word) : spelled.lexeme.isDot = false :=
    (completes_of_word spelled.bare).noDot
  have undotted {text : String} {lexeme : Lexeme} (mark : lexeme.isPunctuation text = true) : lexeme.isDot = false :=
    (facts_of_punctuation mark).2.1
  induction formula generalizing last rest with
  | column name named =>
    have kind : name.kind = .name := eq_of_beq named
    rw [Formula.lexemes, List.singleton_append, reclassifyFrom, reclassify_other (by simp [kind])]
    rfl
  | literal value known =>
    rw [Formula.lexemes, List.singleton_append, reclassifyFrom,
      reclassify_other (by rcases known with kind | kind <;> simp [kind])]
    rfl
  | constant known spelled =>
    have listed := List.mem_append_left ["CASE", "WHEN", "THEN", "ELSE", "END"] known
    exact reclassifyFrom_word noDot (List.mem_cons_of_mem _ (List.mem_cons_of_mem _ listed)) spelled.bare ends
  | joined left sign joins right ihLeft ihRight =>
    have after : (sign :: (right.lexemes ++ rest)).head?.any isDot = false := by
      cases joins with
      | operator kind | star kind => simp [isDot, kind]
      | comma mark => exact undotted mark
    have later := ihRight (leads_of_sign joins left.last).1.noDot ends
    rw [Formula.lexemes, List.append_assoc, List.cons_append, ihLeft noDot after, reclassifyFrom,
      reclassify_sign (completes_last left) joins, later, Formula.classified, List.append_assoc]
    rfl
  | choice caseWord whenWord condition thenWord value elseWord other endWord ihCondition ihValue ihOther =>
    have parts : (Formula.choice caseWord whenWord condition thenWord value elseWord other endWord).lexemes ++ rest =
        caseWord.lexeme :: whenWord.lexeme :: (condition.lexemes ++ thenWord.lexeme :: (value.lexemes ++
          elseWord.lexeme :: (other.lexemes ++ endWord.lexeme :: rest))) := by simp [Formula.lexemes]
    have front {word : String} (spelled : BareWord word) (rest : List Lexeme) :
        (spelled.lexeme :: rest).head?.any isDot = false :=
      dotless spelled
    rw [parts, reclassifyFrom_word noDot (by decide) caseWord.bare (front whenWord _),
      reclassifyFrom_word (dotless caseWord) (by decide) whenWord.bare (noDot_lexemes condition _),
      ihCondition (dotless whenWord) (front thenWord _),
      reclassifyFrom_word (completes_last condition).noDot (by decide) thenWord.bare (noDot_lexemes value _),
      ihValue (dotless thenWord) (front elseWord _),
      reclassifyFrom_word (completes_last value).noDot (by decide) elseWord.bare (noDot_lexemes other _),
      ihOther (dotless elseWord) (front endWord _),
      reclassifyFrom_word (completes_last other).noDot (by decide) endWord.bare ends]
    simp [Formula.classified, Formula.last]
  | group parentheses inner ih =>
    have inside :=
      @ih parentheses.opening (parentheses.closing :: rest) (undotted parentheses.opens) (undotted parentheses.closes)
    have parts : (Formula.group parentheses inner).lexemes ++ rest =
        parentheses.opening ::
          (inner.lexemes ++ parentheses.closing :: rest) := by simp [Formula.lexemes, Parentheses.around]
    rw [parts, reclassifyFrom_mark parentheses.opens, inside, reclassifyFrom_mark parentheses.closes]
    simp [Formula.classified, Formula.last, Parentheses.around]
  | emptyCall function called parentheses =>
    have parts : (Formula.emptyCall function called parentheses).lexemes ++ rest =
        function :: parentheses.opening :: parentheses.closing :: rest := rfl
    rw [parts, reclassifyFrom_function called parentheses.opens, reclassifyFrom_mark parentheses.closes]
    rfl
  | call function called parentheses arguments ih =>
    have inside :=
      @ih parentheses.opening (parentheses.closing :: rest) (undotted parentheses.opens) (undotted parentheses.closes)
    have parts : (Formula.call function called parentheses arguments).lexemes ++ rest =
        function :: parentheses.opening :: (arguments.lexemes ++ parentheses.closing :: rest) := by
      simp [Formula.lexemes, Parentheses.around]
    rw [parts, reclassifyFrom_function called parentheses.opens, inside, reclassifyFrom_mark parentheses.closes]
    simp [Formula.classified, Formula.last, Parentheses.around]

end Steps

end Classification

section Lexemes

variable {formula : Formula} {lexeme : Lexeme}

theorem letters_formula : ∀ word ∈ Formula.words, word.toList.all (·.isUpper) = true := by decide

/-- The keywords of a formula are few, since a function is a name. -/
theorem within_formula (formula : Formula) : ∀ lexeme ∈ formula.classified, lexeme.KeywordsIn Formula.words := by
  have unkeyed {lexeme : Lexeme} (other : lexeme.isKeyword = false) : lexeme.KeywordsIn Formula.words :=
    fun keyword => absurd (other.symm.trans keyword) Bool.false_ne_true
  have mark {text : String} {lexeme : Lexeme} (mark : lexeme.isPunctuation text = true) :
      lexeme.KeywordsIn Formula.words :=
    unkeyed (facts_of_punctuation mark).2.2
  have around (parentheses : Parentheses) {inner : List Lexeme}
      (within : ∀ lexeme ∈ inner, lexeme.KeywordsIn Formula.words) :
      ∀ lexeme ∈ parentheses.around inner, lexeme.KeywordsIn Formula.words :=
    List.forall_mem_cons.mpr ⟨mark parentheses.opens,
      List.forall_mem_append.mpr ⟨within, List.forall_mem_singleton.mpr (mark parentheses.closes)⟩⟩
  induction formula with
  | column name named => exact List.forall_mem_singleton.mpr (unkeyed (unkeyed_of_name named))
  | literal value known =>
    exact List.forall_mem_singleton.mpr (unkeyed (by rcases known with kind | kind <;> simp [isKeyword, kind]))
  | constant known spelled =>
    exact List.forall_mem_singleton.mpr (within_of_word (List.mem_append_left _ known) spelled.bare)
  | joined left sign joins right ihLeft ihRight =>
    exact List.forall_mem_append.mpr ⟨ihLeft,
      List.forall_mem_cons.mpr ⟨unkeyed (leads_of_sign joins left.last).2.2, ihRight⟩⟩
  | choice caseWord whenWord condition thenWord value elseWord other endWord ihCondition ihValue ihOther =>
    simp only [Formula.classified, List.forall_mem_cons, List.forall_mem_append]
    exact ⟨within_of_word (by decide) caseWord.bare, within_of_word (by decide) whenWord.bare, ihCondition,
      within_of_word (by decide) thenWord.bare, ihValue, within_of_word (by decide) elseWord.bare, ihOther,
      within_of_word (by decide) endWord.bare, List.forall_mem_nil _⟩
  | group parentheses inner ih => exact around parentheses ih
  | emptyCall function called parentheses =>
    exact List.forall_mem_cons.mpr ⟨unkeyed rfl, around parentheses (List.forall_mem_nil _)⟩
  | call function called parentheses arguments ih => exact List.forall_mem_cons.mpr ⟨unkeyed rfl, around parentheses ih⟩

theorem staying_formula (formula : Formula) : ∀ lexeme ∈ formula.classified, lexeme.isKeyword = true →
    Keyword.isInsignificant lexeme.normalized = true := by
  have stays : ∀ word ∈ Formula.words, Keyword.isInsignificant word = true := by decide
  intro lexeme member keyword
  obtain ⟨word, listed, normalized, -⟩ := word_of_within letters_formula (within_formula formula lexeme member) keyword
  exact normalized ▸ stays word listed

theorem shallow_formula (formula : Formula) : Selections.Shallow (sides formula.classified) formula.depth := by
  have flat {lexeme : Lexeme} (level : lexeme.side? = none) (bound : Nat) : Selections.Shallow (sides [lexeme]) bound :=
    Selections.shallow_level (List.forall_mem_singleton.mpr level) bound
  have word {word : String} (spelled : BareWord word) (bound : Nat) :
      Selections.Shallow (sides [spelled.lexeme]) bound :=
    flat (side?_of_keyword (by rw [isKeyword, (spelled_of_word spelled.bare).1]; rfl)) bound
  have around (parentheses : Parentheses) {inner : List Lexeme} {bound : Nat}
      (shallow : Selections.Shallow (sides inner) bound) :
      Selections.Shallow (sides (parentheses.around inner)) (bound + 1) := by
    have parts : sides (parentheses.around inner) = some .opening :: (sides inner ++ [some .closing]) := by
      simp [Parentheses.around, sides, side?_eq_opening.mpr parentheses.opens, side?_eq_closing.mpr parentheses.closes]
    rw [parts]
    exact shallow.wrap
  have split (first rest : List Lexeme) : sides (first ++ rest) = sides first ++ sides rest := List.map_append
  have named {function : Lexeme} (bound : Nat) : Selections.Shallow (sides [{ function with kind := .name }]) bound :=
    flat (wordless_of_name rfl).1 bound
  induction formula with
  | column name isName => exact flat (wordless_of_name isName).1 _
  | literal value known => exact flat (by rcases known with kind | kind <;> simp [side?, isPunctuation, kind]) _
  | constant known spelled => exact word spelled _
  | joined left sign joins right ihLeft ihRight =>
    have parts : sides (Formula.joined left sign joins right).classified =
        sides left.classified ++ (sides [left.last.takenBehind sign] ++ sides right.classified) := by
      rw [← split, ← split]
      rfl
    rw [parts]
    exact (ihLeft.mono (Nat.le_max_left _ _)).append
      ((flat (leads_of_sign joins left.last).2.1 _).append (ihRight.mono (Nat.le_max_right _ _)))
  | choice caseWord whenWord condition thenWord value elseWord other endWord ihCondition ihValue ihOther =>
    have parts : sides (Formula.choice caseWord whenWord condition thenWord value elseWord other endWord).classified =
        sides [caseWord.lexeme] ++
          (sides [whenWord.lexeme] ++ (sides condition.classified ++ (sides [thenWord.lexeme] ++
          (sides value.classified ++
              (sides [elseWord.lexeme] ++ (sides other.classified ++ sides [endWord.lexeme])))))) := by
      simp only [← split]
      rfl
    rw [parts]
    exact (word caseWord _).append
      ((word whenWord _).append ((ihCondition.mono (Nat.le_max_left _ _)).append ((word thenWord _).append
      ((ihValue.mono (Nat.le_trans (Nat.le_max_left _ _) (Nat.le_max_right _ _))).append ((word elseWord _).append
        ((ihOther.mono (Nat.le_trans (Nat.le_max_right _ _) (Nat.le_max_right _ _))).append (word endWord _)))))))
  | group parentheses inner ih => exact around parentheses ih
  | emptyCall function called parentheses =>
    exact (named 1).append (around parentheses (Selections.shallow_level (List.forall_mem_nil _) 0))
  | call function called parentheses arguments ih => exact (named _).append (around parentheses ih)

end Lexemes

section Columns

/-- The uses of columns in a select list. -/
def selected (columns : List String) : List (String × Section) := columns.map (·, .select)

/-- Wherever an operand may stand in a select list, these are the columns of a part of it. -/
def Selects (part : List Lexeme) (columns : List String) : Prop :=
  ∀ {context : Context} {before after : List Lexeme} {last : Lexeme}, context.Projecting →
    Fresh last → last.isDot = false → Halts after →
    Names ⟨{}, []⟩ context (last :: before) part after ((selected columns).map mentionOf) []

variable {context : Context} {before after : List Lexeme} {last here sign : Lexeme}

theorem opened_select : Section.OpenedBy .select "SELECT" := ⟨by decide, by decide, rfl⟩

theorem clause_of_projecting (projecting : context.Projecting) :
    Spot.clause ⟨context, before, here, after⟩ = "SELECT" := by
  rw [Spot.clause, projecting.clause]
  rfl

theorem selects_column {name : Lexeme} (named : name.isName = true) :
    Selects [name] (if Keyword.isIgnoredFunction name.normalized then [] else [name.value]) := by
  intro context before after last projecting fresh noDot halts
  have told :=
    @mention?_here context before after last name [] named fresh.toCalm halts (frames_of_projecting projecting) [] rfl
  rw [nameBefore_undotted (undotted_cons noDot before), section?_of_clause opened_select
    (clause_of_projecting projecting), Option.map_some, ofName_bare] at told
  have names := @Names.single ⟨{}, []⟩ _ _ _ _ (declares_of_fresh fresh) (fun _ => fresh.noClosing) _ told
  cases ignored : Keyword.isIgnoredFunction name.normalized <;> rw [ignored] at names <;> exact names

/-- The name of a function is no column. -/
theorem names_function (fresh : Fresh last) (called : after.head?.any (·.isPunctuation "(") = true) {function : Lexeme}
    (named : function.isName = true) : Names ⟨{}, []⟩ context (last :: before) [function] after [] [] := by
  have kind : function.kind = .name := eq_of_beq named
  exact .single (declares_of_fresh fresh)
    (fun _ => fresh.noClosing) (mention?_of_call (by simp [isWildcard, kind]) called)

/-- Behind a keyword a star is a column. -/
theorem names_sign (projecting : context.Projecting) (completes : Completes last) (joins : sign.IsSign) :
    Names ⟨{}, []⟩ context (last :: before) [last.takenBehind sign] after
      ((selected (if sign.isWildcard && last.isKeyword then ["*"] else [])).map mentionOf) [] := by
  have noName : (last.takenBehind sign).isName = false := (leads_of_sign joins last).1.fresh.noName
  have wild := @isWildcard_takenBehind last sign
  cases star : sign.isWildcard && last.isKeyword with
  | false => exact .skip ⟨noName, wild.trans star⟩ .nil
  | true =>
    have value : (last.takenBehind sign).value = "*" := by
      cases joins with
      | operator kind => simp [isWildcard, kind] at star
      | star kind value => unfold takenBehind; split <;> exact value
      | comma mark =>
        simp only [isPunctuation, Bool.and_eq_true, beq_iff_eq] at mark
        simp [isWildcard, mark] at star
    have spelled : nameBefore (last.takenBehind sign :: last :: before) = "*" :=
      (nameBefore_undotted (undotted_cons completes.noDot before) _).trans value
    have told : Spot.mention? [] [] ⟨context, last :: before, last.takenBehind sign, after⟩ =
        some (mentionOf ("*", .select)) := by
      have clause : Spot.clause ⟨context, last :: before, last.takenBehind sign, after⟩ = "SELECT" :=
        clause_of_projecting projecting
      have unopened : Spot.previous ⟨context, last :: before, last.takenBehind sign, after⟩ = some last := rfl
      simp [Spot.mention?, wild.trans star, clause, unopened, completes.noOpening, spelled, mentionOf]
    exact @Names.single ⟨{}, []⟩ _ _ _ _ (declares_of_other noName)
      (fun name => absurd (noName.symm.trans name) Bool.false_ne_true) _ told

variable {part rest : List Lexeme} {columns more : List String}

theorem names_append (left : Names ⟨{}, []⟩ context before part (rest ++ after) ((selected columns).map mentionOf) [])
    (right : Names ⟨{}, []⟩ (context.after part) (part.reverse ++ before) rest after
      ((selected more).map mentionOf) []) :
    Names ⟨{}, []⟩ context before (part ++ rest) after ((selected (columns ++ more)).map mentionOf) [] := by
  rw [selected, List.map_append, List.map_append]
  exact left.append right

/-- A part behind a word or a parenthesis. -/
theorem names_led (projecting : context.Projecting) (leads : Leads here) (plain : here.isWildcard = false)
    (selects : Selects part columns)
    (halts : Halts (rest ++ after))
    (later : Names ⟨{}, []⟩ ((context.step here).after part) (part.reverse ++ here :: before) rest after
      ((selected more).map mentionOf) []) :
    Names ⟨{}, []⟩ context before (here :: (part ++ rest)) after ((selected (columns ++ more)).map mentionOf) [] :=
  .skip ⟨leads.fresh.noName, plain⟩
    (names_append (selects (projecting_step projecting leads.stays) leads.fresh leads.noDot halts) later)

theorem selects_formula (formula : Formula) : Selects formula.classified (formula.mentioned true) := by
  have plain {word : String} (spelled : BareWord word) :
      spelled.lexeme.isName = false ∧ spelled.lexeme.isWildcard = false := by
    have kind := (spelled_of_word spelled.bare).1
    exact ⟨by simp [isName, kind], by simp [isWildcard, kind]⟩
  have mark {text : String} {lexeme : Lexeme} (mark : lexeme.isPunctuation text = true) :
      lexeme.isName = false ∧ lexeme.isWildcard = false := by
    simp only [isPunctuation, Bool.and_eq_true, beq_iff_eq] at mark
    exact ⟨by simp [isName, mark], by simp [isWildcard, mark]⟩
  have stops {word : String} (spelled : BareWord word) (rest : List Lexeme) : Halts (spelled.lexeme :: rest) := by
    have completes := completes_of_word spelled.bare
    exact ⟨completes.noDot, completes.noOpening⟩
  have closes (parentheses : Parentheses) (rest : List Lexeme) : Halts (parentheses.closing :: rest) := by
    have completes := completes_of_closing parentheses.closes
    exact ⟨completes.noDot, completes.noOpening⟩
  have nothing {context : Context} {before after : List Lexeme} {lexeme : Lexeme}
      (other : lexeme.isName = false ∧ lexeme.isWildcard = false) :
      Names ⟨{}, []⟩ context before [lexeme] after ((selected []).map mentionOf) [] := .skip other .nil
  have around (parentheses : Parentheses) {inner : List Lexeme} {columns : List String}
      (selects : Selects inner columns) {context : Context}
      {before after : List Lexeme} (projecting : context.Projecting) :
      Names ⟨{}, []⟩ context before (parentheses.around inner) after ((selected columns).map mentionOf) [] := by
    have whole :=
      @names_led context before after _ inner [parentheses.closing] columns
        [] projecting (leads_of_opening parentheses.opens)
      (mark parentheses.opens).2 selects (closes parentheses after) (nothing (mark parentheses.closes))
    rwa [List.append_nil] at whole
  have listed (function : Lexeme) (parentheses : Parentheses) (inner : List Lexeme)
      {context : Context} {before after : List Lexeme}
      {last : Lexeme} (fresh : Fresh last) : Names ⟨{}, []⟩ context (last :: before) [{ function with kind := .name }]
        (parentheses.around inner ++ after) [] [] := by
    have called : (parentheses.around inner ++ after).head?.any (·.isPunctuation "(") = true := parentheses.opens
    exact names_function fresh called rfl
  induction formula with
  | column name named => exact selects_column named
  | literal value known =>
    intro context before after last _ _ _ _
    exact nothing (by rcases known with kind | kind <;> exact ⟨by simp [isName, kind], by simp [isWildcard, kind]⟩)
  | constant known spelled =>
    intro context before after last _ _ _ _
    exact nothing (plain spelled)
  | joined left sign joins right ihLeft ihRight =>
    intro context before after last projecting fresh noDot halts
    obtain ⟨leads, level, -⟩ := leads_of_sign joins left.last
    have between : Halts (left.last.takenBehind sign :: right.classified ++ after) := by
      refine ⟨leads.noDot, Bool.eq_false_iff.mpr fun opens => ?_⟩
      cases (side?_eq_opening.mpr opens).symm.trans level
    have passed : (context.after left.classified).Projecting := projecting_after projecting (staying_formula left)
    obtain ⟨front, ends⟩ := classified_eq left
    have behind :
        left.classified.reverse ++ last :: before = left.last :: (front.reverse ++ last :: before) := by simp [ends]
    rw [Formula.mentioned, Bool.true_and, List.append_assoc]
    refine names_append (ihLeft projecting fresh noDot between) ?_
    rw [behind]
    exact names_append (names_sign passed (completes_last left) joins)
      (ihRight (projecting_step passed leads.stays) leads.fresh leads.noDot halts)
  | choice caseWord whenWord condition thenWord value elseWord other endWord ihCondition ihValue ihOther =>
    intro context before after last projecting _ _ _
    have first := projecting_step projecting (leads_of_word (by decide) caseWord.bare).stays
    have leadsWhen := leads_of_word (by decide) whenWord.bare
    have leadsThen := leads_of_word (by decide) thenWord.bare
    have leadsElse := leads_of_word (by decide) elseWord.bare
    have second := projecting_after (projecting_step first leadsWhen.stays) (staying_formula condition)
    have third := projecting_after (projecting_step second leadsThen.stays) (staying_formula value)
    rw [Formula.mentioned, List.append_assoc, ← List.append_nil (other.mentioned true)]
    exact .skip (plain caseWord) (names_led first leadsWhen (plain whenWord).2 ihCondition (stops thenWord _)
      (names_led second leadsThen (plain thenWord).2 ihValue (stops elseWord _)
        (names_led third leadsElse (plain elseWord).2 ihOther (stops endWord _) (nothing (plain endWord)))))
  | group parentheses inner ih =>
    intro context before after last projecting _ _ _
    exact around parentheses ih projecting
  | emptyCall function called parentheses =>
    intro context before after last projecting fresh _ _
    exact (listed function parentheses [] fresh).append (.nameless (List.forall_mem_cons.mpr ⟨mark parentheses.opens,
      List.forall_mem_singleton.mpr (mark parentheses.closes)⟩))
  | call function called parentheses arguments ih =>
    intro context before after last projecting fresh _ _
    have inside : (context.after [{ function with kind := .name }]).Projecting :=
      projecting_after projecting (List.forall_mem_singleton.mpr fun keyword => by cases keyword)
    exact (listed function parentheses _ fresh).append (around parentheses ih inside)

/-- Away from keywords all stars multiply, so that only columns are mentioned. -/
theorem mentioned_of_starless {formula : Formula} (none : formula.hasKeywordStar = false) :
    formula.mentioned true = formula.columns := by
  induction formula with
  | column | literal | constant | emptyCall => rfl
  | joined left sign joins right ihLeft ihRight =>
    simp only [Formula.hasKeywordStar, Bool.or_eq_false_iff] at none
    obtain ⟨⟨first, here⟩, second⟩ := none
    simp only [Formula.columns, Formula.mentioned, here, Bool.and_false, Bool.false_eq_true, if_false]
    rw [ihLeft first, ihRight second]
    rfl
  | choice _ _ condition _ value _ other _ ihCondition ihValue ihOther =>
    simp only [Formula.hasKeywordStar, Bool.or_eq_false_iff] at none
    obtain ⟨⟨first, second⟩, third⟩ := none
    rw [Formula.mentioned, ihCondition first, ihValue second, ihOther third]
    rfl
  | group parentheses inner ih => exact ih none
  | call function called parentheses arguments ih => exact ih none

/-- No name that is mentioned has a dot. -/
theorem undotted_mentioned {formula : Formula} {stars : Bool} :
    ∀ name ∈ formula.mentioned stars, '.' ∉ name.toList := by
  induction formula with
  | column name named plain =>
    unfold Formula.mentioned
    split
    · exact List.forall_mem_nil _
    · exact List.forall_mem_singleton.mpr plain
  | literal | constant | emptyCall => exact List.forall_mem_nil _
  | joined left sign joins right ihLeft ihRight =>
    refine List.forall_mem_append.mpr ⟨List.forall_mem_append.mpr ⟨ihLeft, ?_⟩, ihRight⟩
    split
    · exact List.forall_mem_singleton.mpr (by decide)
    · exact List.forall_mem_nil _
  | choice _ _ condition _ value _ other _ ihCondition ihValue ihOther =>
    exact List.forall_mem_append.mpr ⟨List.forall_mem_append.mpr ⟨ihCondition, ihValue⟩, ihOther⟩
  | group parentheses inner ih => exact ih
  | call function called parentheses arguments ih => exact ih

theorem star_mem_mentioned {formula : Formula} (has : formula.hasKeywordStar = true) :
    "*" ∈ formula.mentioned true := by
  induction formula with
  | column | literal | constant | emptyCall => cases has
  | joined left sign joins right ihLeft ihRight =>
    simp only [Formula.hasKeywordStar, Bool.or_eq_true] at has
    simp only [Formula.mentioned, List.mem_append]
    rcases has with (first | here) | second
    · exact .inl (.inl (ihLeft first))
    · rw [here]
      exact .inl (.inr (List.mem_singleton.mpr rfl))
    · exact .inr (ihRight second)
  | choice _ _ condition _ value _ other _ ihCondition ihValue ihOther =>
    simp only [Formula.hasKeywordStar, Bool.or_eq_true] at has
    simp only [Formula.mentioned, List.mem_append]
    exact has.imp (Or.imp ihCondition ihValue) ihOther
  | group parentheses inner ih => exact ih has
  | call function called parentheses arguments ih => exact ih has

theorem any_isWildcard (formula : Formula) : formula.classified.any isWildcard = formula.hasKeywordStar := by
  have word {word : String} (spelled : BareWord word) : spelled.lexeme.isWildcard = false := by
    simp [isWildcard, (spelled_of_word spelled.bare).1]
  have around (parentheses : Parentheses) (inner : List Lexeme) :
      (parentheses.around inner).any isWildcard = inner.any isWildcard := by
    have opens := parentheses.opens
    have closes := parentheses.closes
    simp only [isPunctuation, Bool.and_eq_true, beq_iff_eq] at opens closes
    have opening : parentheses.opening.isWildcard = false := by simp [isWildcard, opens]
    have closing : parentheses.closing.isWildcard = false := by simp [isWildcard, closes]
    simp [Parentheses.around, opening, closing]
  have named (function : Lexeme) : isWildcard { function with kind := .name } = false := rfl
  induction formula with
  | column name isName =>
    have kind : name.kind = .name := eq_of_beq isName
    simp [Formula.classified, Formula.hasKeywordStar, isWildcard, kind]
  | literal value known =>
    rcases known with kind | kind <;> simp [Formula.classified, Formula.hasKeywordStar, isWildcard, kind]
  | constant known spelled => simp [Formula.classified, Formula.hasKeywordStar, word spelled]
  | joined left sign joins right ihLeft ihRight =>
    simp only [Formula.classified, Formula.hasKeywordStar, List.any_append, List.any_cons,
      isWildcard_takenBehind, ihLeft, ihRight, Bool.or_assoc]
  | choice caseWord whenWord condition thenWord value elseWord other endWord ihCondition ihValue ihOther =>
    simp [Formula.classified, Formula.hasKeywordStar, word, ihCondition, ihValue, ihOther, Bool.or_assoc]
  | group parentheses inner ih => exact (around parentheses _).trans ih
  | emptyCall function called parentheses =>
    rw [Formula.classified, List.any_cons, named, around]
    rfl
  | call function called parentheses arguments ih =>
    rw [Formula.classified, List.any_cons, named, around, ih]
    rfl

end Columns

end QueryFacts.Proofs.Formulas
