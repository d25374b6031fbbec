import QueryFacts.Proofs.LiteralText
import QueryFacts.Proofs.WrittenBody

/-! Texts written from lexemes: unquoted words, numbers, strings, marks and operators, with
single spaces between them. Such a text is in normal form, and it is read as the lexemes that
it was written from, with keywords of several words in one piece. -/

namespace QueryFacts
open Lexer Text

/-- The spelling of an unquoted word. -/
def isIdentifier : List Char → Bool
  | [] => false
  | c :: rest => isIdentifierStart c && c != '@' && rest.all isIdentifierPart

namespace Lexeme

/-- Lexemes that are read from their own text, with what is told of them by their neighbours. -/
inductive Plain : Lexeme → Prop where
  | word {kind : TokenKind} {text : String} {spaceBefore : Bool} (spelled : isIdentifier text.toList = true)
      (told : kind = if Keyword.isReserved (upper text) then .keyword else .name) :
      Plain ⟨kind, text, none, spaceBefore⟩
  | mark {text : String} {spaceBefore : Bool} (known : text = "(" ∨ text = ")" ∨ text = ",") :
      Plain ⟨.punctuation, text, none, spaceBefore⟩
  | dot {spaceBefore : Bool} : Plain ⟨.dot, ".", none, spaceBefore⟩
  | operator {text : String} {spaceBefore : Bool} (known : text = "+" ∨ text = "-" ∨ text = "/" ∨ text = "=") :
      Plain ⟨.operator, text, none, spaceBefore⟩
  | comparison {text : String} {spaceBefore : Bool} (known : text ∈ ["<", ">", "<=", ">=", "<>", "<=>"]) :
      Plain ⟨.operator, text, none, spaceBefore⟩
  | number {kind : TokenKind} {text : String} {spaceBefore : Bool} (spelled : isNumeral text.toList = true)
      (told : kind = if text.toList.all (·.isDigit) then .integer else .float) : Plain ⟨kind, text, none, spaceBefore⟩
  | string {text : String} {spaceBefore : Bool} (content : List Char)
      (quoted : text.toList = enclose singleQuote (double singleQuote content)) :
      Plain ⟨.literal, text, none, spaceBefore⟩
  | star {kind : TokenKind} {spaceBefore : Bool} (known : kind = .operator ∨ kind = .wildcard) :
      Plain ⟨kind, "*", none, spaceBefore⟩

/-- A keyword in the place of a function. -/
def isCalled (lexeme : Lexeme) : Bool :=
  lexeme.kind == .name && lexeme.quote == none && Keyword.isFunctionLike (upper lexeme.value)

/-- A lexeme without what the parenthesis after it tells. -/
def uncalled (lexeme : Lexeme) : Lexeme := if lexeme.isCalled then { lexeme with kind := .keyword } else lexeme

/-- Keywords in the places of functions stand in front of parentheses. -/
def calls : List Lexeme → Bool
  | [] => true
  | lexeme :: rest => (!lexeme.isCalled || rest.head?.any (·.isPunctuation "(")) && calls rest

/-- A lexeme as the lexer gives it: it does not tell a wildcard from a product. -/
def raw (lexeme : Lexeme) : Lexeme := { lexeme with kind := if lexeme.value = "*" then .wildcard else lexeme.kind }

/-- What a lexeme is read from: a backslash in a string stands for the character after it. -/
def source (lexeme : Lexeme) : List Char :=
  match lexeme.kind with
  | .literal => double '\\' lexeme.value.toList
  | _ => lexeme.value.toList

@[simp] theorem source_mk {kind : TokenKind} {value : String} {quote : Option Char} {spaceBefore : Bool}
    (other : kind ≠ .literal) : source ⟨kind, value, quote, spaceBefore⟩ = value.toList := by
  cases kind <;> first | rfl | exact absurd rfl other

/-- Lexemes each after the one before it, with a space before those that stand apart. -/
def spell : List Lexeme → List Char
  | [] => []
  | lexeme :: rest => (if lexeme.spaceBefore then [' '] else []) ++ lexeme.source ++ spell rest

/-- The text of lexemes. -/
def written : List Lexeme → List Char
  | [] => []
  | lexeme :: rest => lexeme.source ++ spell rest

/-- `next` may follow without a space. -/
def glues (first next : Lexeme) : Bool :=
  match first.kind with
  | .punctuation | .wildcard => true
  | .keyword | .name => next.kind == .punctuation || next.kind == .dot
  | .dot => next.kind == .name
  | .integer | .float | .literal => next.kind == .punctuation
  | .operator => first.value == "-" && (next.kind == .integer || next.kind == .float)

/-- A keyword stays one, and a star is what its place says. -/
def keepsKind (first next : Lexeme) : Bool :=
  !(first.kind == .dot && next.isKeyword) && !(first.isKeyword && next.kind == .dot)
    && !(first.isKeyword && next.isPunctuation "(" && Keyword.isFunctionLike (upper first.value))
    && match next.kind with
      | .wildcard => first.kind == .dot || first.isKeyword || first.isPunctuation "," || first.isPunctuation "("
      | .operator =>
        next.value != "*" ||
          !(first.kind == .dot || first.isKeyword || first.isPunctuation "," || first.isPunctuation "(")
      | _ => true

/-- Next to each other, two lexemes are told as what they are. -/
def Near (first next : Lexeme) : Prop := (next.spaceBefore || glues first next) = true ∧ keepsKind first next = true

/-- The two are no words of one keyword. -/
def endsKeyword (first next : Lexeme) : Bool :=
  !(first.takesBy && next.isWord "BY") && !(first.isJoinPrefix && (next.isJoinPrefix || next.isWord "JOIN"))

/-- Next to each other, two lexemes are read as they are. -/
def Beside (first next : Lexeme) : Prop :=
  (next.spaceBefore || glues first next) = true ∧ keepsKind first next = true ∧ endsKeyword first next = true

theorem Beside.near {first next : Lexeme} (beside : Beside first next) : Near first next := ⟨beside.1, beside.2.1⟩

/-- Lexemes that are read from the text they are written to, but for the words of a keyword. -/
structure Readable (lexemes : List Lexeme) : Prop where
  plain : ∀ lexeme ∈ lexemes, lexeme.uncalled.Plain
  near : lexemes.IsChain Near
  calls : calls lexemes = true
  first : ∀ lexeme ∈ lexemes.head?, lexeme.spaceBefore = true ∧ lexeme.kind ≠ .operator

/-- Lexemes that are read from the text they are written to. -/
structure Legible (lexemes : List Lexeme) : Prop where
  plain : ∀ lexeme ∈ lexemes, lexeme.Plain
  beside : lexemes.IsChain Beside
  first : ∀ lexeme ∈ lexemes.head?, lexeme.spaceBefore = true ∧ lexeme.kind ≠ .operator

theorem calls_append {front : List Lexeme} (uncalled : ∀ lexeme ∈ front, lexeme.isCalled = false) (rest : List Lexeme) :
    calls (front ++ rest) = calls rest := by
  induction front with
  | nil => rfl
  | cons lexeme front ih =>
    obtain ⟨here, later⟩ := List.forall_mem_cons.mp uncalled
    rw [List.cons_append, calls, here, ih later]
    rfl

theorem isReserved_of_isFunctionLike {word : String} (function : Keyword.isFunctionLike word = true) :
    Keyword.isReserved word = true := by
  have words : ∀ word ∈ ["REPLACE", "LEFT", "RIGHT", "IF", "INSERT", "MOD"], Keyword.isReserved word = true := by decide
  exact words word (List.contains_iff_mem.mp function)

theorem Plain.isCalled {lexeme : Lexeme} (plain : lexeme.Plain) : lexeme.isCalled = false := by
  have other {lexeme : Lexeme} (kind : lexeme.kind ≠ .name) : lexeme.isCalled = false := by
    rw [Lexeme.isCalled, beq_eq_false_iff_ne.mpr kind, Bool.false_and, Bool.false_and]
  cases plain with
  | @word kind text space spelled told =>
    rw [Bool.eq_false_iff]
    intro called
    simp only [Lexeme.isCalled, Bool.and_eq_true, beq_iff_eq] at called
    obtain ⟨⟨rfl, -⟩, function⟩ := called
    rw [if_pos (isReserved_of_isFunctionLike function)] at told
    cases told
  | number spelled told => exact other (by split at told <;> rw [told] <;> nofun)
  | star known => exact other (by rcases known with rfl | rfl <;> nofun)
  | mark | dot | operator | comparison | string => exact other nofun

theorem uncalled_of_plain {lexeme : Lexeme} (plain : lexeme.Plain) : lexeme.uncalled = lexeme := by
  rw [uncalled, plain.isCalled]
  rfl

/-- Where nothing is called, lexemes are as the lexer gives them. -/
theorem Readable.of_plain {lexemes : List Lexeme} (plain : ∀ lexeme ∈ lexemes, lexeme.Plain)
    (near : lexemes.IsChain Near)
    (first : ∀ lexeme ∈ lexemes.head?, lexeme.spaceBefore = true ∧ lexeme.kind ≠ .operator) : Readable lexemes where
  plain lexeme member := by
    rw [uncalled_of_plain (plain lexeme member)]
    exact plain lexeme member
  near := near
  calls := by
    have none := calls_append (fun lexeme member => (plain lexeme member).isCalled) []
    rwa [List.append_nil] at none
  first := first

theorem Legible.readable {lexemes : List Lexeme} (legible : Legible lexemes) : Readable lexemes :=
  .of_plain legible.plain (legible.beside.imp fun _ _ => Beside.near) legible.first

end Lexeme

end QueryFacts

namespace QueryFacts.Proofs.PlainText
open Text Lexer Lexeme

section Characters

variable {c d : Char}

private theorem ne_of_start (starts : isIdentifierStart c = true) (other : isIdentifierStart d = false) : c ≠ d := by
  rintro rfl
  exact absurd starts (by simp [other])

private theorem ne_of_part (inside : isIdentifierPart c = true) (other : isIdentifierPart d = false) : c ≠ d := by
  rintro rfl
  exact absurd inside (by simp [other])

theorem isIdentifierStart_of_digit (digit : c.isDigit = true) : isIdentifierStart c = false := by
  have range : 48 ≤ c.toNat ∧ c.toNat ≤ 57 := by
    simpa [Char.isDigit, UInt32.le_iff_toNat_le] using digit
  obtain ⟨low, high⟩ := range
  have all : ∀ place < 10, isIdentifierStart (Char.ofNat (48 + place)) = false := by decide
  have here := all (c.toNat - 48) (by omega)
  rwa [Nat.add_sub_cancel' low, Char.ofNat_toNat] at here

private theorem part_of_start (starts : isIdentifierStart c = true) : isIdentifierPart c = true := by
  simp [isIdentifierPart, starts]

theorem isIdentifierPart_of_mem {text : List Char} (spelled : isIdentifier text = true) (member : c ∈ text) :
    isIdentifierPart c = true := by
  cases text with
  | nil => cases member
  | cons first rest =>
    simp only [isIdentifier, Bool.and_eq_true, List.all_eq_true] at spelled
    rcases List.mem_cons.mp member with rfl | later
    · exact part_of_start spelled.1.1
    · exact spelled.2 c later

private theorem isDigit_of_start (starts : isIdentifierStart c = true) : c.isDigit = false := by
  rw [Bool.eq_false_iff]
  intro digit
  rw [isIdentifierStart_of_digit digit] at starts
  exact Bool.false_ne_true starts

private theorem isGap_of_part (inside : isIdentifierPart c = true) : isGap c = false := by
  simp only [isGap, Bool.or_eq_false_iff, beq_eq_false_iff_ne]
  exact ⟨⟨⟨⟨⟨ne_of_part inside (by decide), ne_of_part inside (by decide)⟩, ne_of_part inside (by decide)⟩,
    ne_of_part inside (by decide)⟩, ne_of_part inside (by decide)⟩, ne_of_part inside (by decide)⟩

end Characters

/-- A word ends before these. -/
def isBoundary (c : Char) : Bool := c == ' ' || c == ',' || c == '(' || c == ')' || c == '.'

theorem isIdentifierPart_of_boundary {c : Char} (bound : isBoundary c = true) : isIdentifierPart c = false := by
  simp only [isBoundary, Bool.or_eq_true, beq_iff_eq] at bound
  rcases bound with (((rfl | rfl) | rfl) | rfl) | rfl <;> decide

/-- What a lexeme is read in front of. -/
def Follows (lexeme : Lexeme) (after : List Char) : Prop :=
  match lexeme.kind with
  | .keyword | .name => after.head?.all isBoundary = true
  | .dot => after.head?.all (!·.isDigit) = true
  | .operator => after.head?.all (fun c => c == ' ' || (lexeme.value == "-" && c.isDigit)) = true
  | .integer | .float => after.head?.all endsNumber = true
  | .literal => after.head? ≠ some singleQuote
  | .punctuation | .wildcard => True

private theorem string?_eq_none {c : Char} {rest : List Char}
    (unquoted : c ≠ singleQuote ∧ c ≠ doubleQuote ∧ c ≠ backtick)
    (next : rest.head? ≠ some singleQuote ∧ rest.head? ≠ some doubleQuote) : string? c rest = none := by
  obtain ⟨noSingle, noDouble, noTick⟩ := unquoted
  unfold string?
  simp only [if_neg noSingle, if_neg noDouble, if_neg noTick]
  cases rest with
  | nil => rfl
  | cons quote rest => simp_all

/-- A word, unless a string begins. -/
theorem scan_identifier {c : Char} (starts : isIdentifierStart c = true) (noSign : c ≠ '@') (rest : List Char) :
    scan c rest = (string? c rest).getD (.ok (wordFrom [c] rest)) := by
  have noGap : isGap c = false := isGap_of_part (part_of_start starts)
  have noPoint := ne_of_start starts (show isIdentifierStart '.' = false by decide)
  have noSlash := ne_of_start starts (show isIdentifierStart '/' = false by decide)
  have noHash := ne_of_start starts (show isIdentifierStart '#' = false by decide)
  have noDash := ne_of_start starts (show isIdentifierStart '-' = false by decide)
  have noMark := ne_of_start starts (show isIdentifierStart '?' = false by decide)
  unfold scan
  simp only [noGap, isDigit_of_start starts, noPoint, noSlash, noHash, noDash, noMark, noSign, starts]
  cases string? c rest <;> simp

theorem scan_word {c : Char} {part after : List Char} (spelled : isIdentifier (c :: part) = true)
    (bounded : after.head?.all isBoundary = true) : scan c (part ++ after) = .ok (word (c :: part), after) := by
  simp only [isIdentifier, Bool.and_eq_true, bne_iff_ne] at spelled
  obtain ⟨⟨starts, noSign⟩, inside⟩ := spelled
  have outside : after.takeWhile isIdentifierPart = [] ∧ after.dropWhile isIdentifierPart = after := by
    cases after with
    | nil => exact ⟨rfl, rfl⟩
    | cons d after =>
      have ends := isIdentifierPart_of_boundary (by simpa using bounded)
      simp [ends]
  have next {quote : Char} (other : isIdentifierPart quote = false) (apart : isBoundary quote = false) :
      (part ++ after).head? ≠ some quote := by
    cases part with
    | nil =>
      intro same
      rw [List.nil_append] at same
      rw [same, Option.all_some, apart] at bounded
      exact Bool.false_ne_true bounded
    | cons d part =>
      intro same
      obtain rfl : d = quote := by simpa using same
      simp [other] at inside
  have noString : string? c (part ++ after) = none :=
    string?_eq_none ⟨ne_of_start starts (by decide), ne_of_start starts (by decide), ne_of_start starts (by decide)⟩
      ⟨next (by decide) (by decide), next (by decide) (by decide)⟩
  have letters : ∀ d ∈ part, isIdentifierPart d = true := List.all_eq_true.mp inside
  rw [scan_identifier starts noSign, noString, Option.getD_none, wordFrom, List.takeWhile_append_of_pos letters,
    List.dropWhile_append_of_pos letters, outside.1, outside.2, List.append_nil]
  rfl

private theorem symbol_eq {c : Char} (single : ∀ text ∈ longOperators, text.head? ≠ some c) (rest : List Char) :
    symbol c rest = (.lexical (if c = '*' then .wildcard
      else if c = '(' ∨ c = ')' ∨ c = ',' ∨ c = ';' ∨ c = ':' then .punctuation else .operator) [c] none, rest) := by
  have none : longOperators.find? (·.isPrefixOf (c :: rest)) = none := by
    rw [List.find?_eq_none]
    intro text member begins
    have head := single text member
    cases text with
    | nil => revert member; decide
    | cons d text =>
      simp only [List.isPrefixOf, Bool.and_eq_true, beq_iff_eq] at begins
      exact head (congrArg some begins.1)
  simp only [symbol, none]

theorem scan_dot {after : List Char} (bounded : after.head?.all (!·.isDigit) = true) :
    scan '.' after = .ok (.lexical .dot ['.'] none, after) := by
  have noDigits : after.takeWhile (·.isDigit) = [] := by
    cases after with
    | nil => rfl
    | cons d after => exact List.takeWhile_cons_of_neg (by simpa using bounded)
  have noString : string? '.' after = none := by
    unfold string?
    cases after with
    | nil => rfl
    | cons quote after => simp [singleQuote, doubleQuote, backtick]
  have gap : isGap '.' = false := by decide
  simp [scan, gap, noString, numeric, number, mantissa, noDigits]

/-- A character that is a lexeme of its own wherever it stands. -/
def isSymbol (c : Char) : Bool :=
  !isGap c && !isIdentifierStart c && !c.isDigit
    && !(c == singleQuote || c == doubleQuote || c == backtick || c == '.' || c == '/' || c == '#' ||
      c == '-' || c == '?')

theorem scan_symbol {c : Char} (symbolic : isSymbol c = true) (after : List Char) :
    scan c after = .ok (symbol c after) := by
  simp only [isSymbol, Bool.and_eq_true, Bool.not_eq_true', Bool.or_eq_false_iff, beq_eq_false_iff_ne] at symbolic
  obtain ⟨⟨⟨noGap, noLetter⟩, noDigit⟩, others⟩ := symbolic
  obtain ⟨⟨⟨⟨⟨⟨⟨noSingle, noDouble⟩, noTick⟩, noPoint⟩, noSlash⟩, noHash⟩, noDash⟩, noMark⟩ := others
  have other {d : Char} (letter : isIdentifierStart d = true) : c ≠ d := by
    rintro rfl
    rw [letter] at noLetter
    cases noLetter
  have noString : string? c after = none := by
    have noB := other (show isIdentifierStart 'b' = true by decide)
    have noUpperB := other (show isIdentifierStart 'B' = true by decide)
    have noN := other (show isIdentifierStart 'n' = true by decide)
    have noUpperN := other (show isIdentifierStart 'N' = true by decide)
    have noX := other (show isIdentifierStart 'x' = true by decide)
    have noUpperX := other (show isIdentifierStart 'X' = true by decide)
    have noE := other (show isIdentifierStart 'e' = true by decide)
    have noUpperE := other (show isIdentifierStart 'E' = true by decide)
    unfold string?
    cases after with
    | nil => simp [noSingle, noDouble, noTick]
    | cons quote after => simp [*]
  have noSign := other (show isIdentifierStart '@' = true by decide)
  simp [scan, noGap, noString, noDigit, noPoint, noSlash, noHash, noDash, noMark, noSign, noLetter]

theorem scan_dash {after : List Char} (bounded : after.head?.all (fun c => c == ' ' || c.isDigit) = true) :
    scan '-' after = .ok (operator ['-'], after) := by
  have next {c : Char} (other : c ≠ ' ') (noDigit : c.isDigit = false) : after.head? ≠ some c := by
    intro same
    rw [same, Option.all_some, noDigit, Bool.or_false, beq_iff_eq] at bounded
    exact other bounded
  have noString : string? '-' after = none :=
    string?_eq_none (by decide) ⟨next (by decide) (by decide), next (by decide) (by decide)⟩
  have noDash := next (show '-' ≠ ' ' by decide) (by decide)
  have noArrow := next (show '>' ≠ ' ' by decide) (by decide)
  have alone : symbol '-' after = (operator ['-'], after) := by
    cases after with
    | nil => rfl
    | cons d after =>
      have other : d ≠ '>' := fun same => noArrow (congrArg some same)
      have none : longOperators.find? (·.isPrefixOf ('-' :: d :: after)) = none := by
        rw [List.find?_eq_none]
        intro text member begins
        have second : ∀ text ∈ longOperators, text.head? = some '-' → text.tail.head? = some '>' := by decide
        cases text with
        | nil => revert member; decide
        | cons first text =>
          simp only [List.isPrefixOf, Bool.and_eq_true, beq_iff_eq] at begins
          obtain ⟨rfl, begins⟩ := begins
          have here := second _ member rfl
          cases text with
          | nil => cases here
          | cons second text =>
            simp only [List.isPrefixOf, Bool.and_eq_true, beq_iff_eq] at begins
            exact other (begins.1.symm.trans (Option.some.inj here))
      rw [symbol, none]
      rfl
  have gap : isGap '-' = false := by decide
  have start : isIdentifierStart '-' = false := by decide
  have digit : '-'.isDigit = false := by decide
  simp [scan, gap, noString, start, digit, noDash, alone]

theorem scan_comparison {text : String} (known : text ∈ ["<", ">", "<=", ">=", "<>", "<=>"]) {after : List Char}
    (bounded : after.head?.all (· == ' ') = true) :
    ∃ c part, text.toList = c :: part ∧ scan c (part ++ after) = .ok (operator text.toList, after) := by
  have spaced : after = [] ∨ ∃ rest, after = ' ' :: rest := by
    cases after with
    | nil => exact .inl rfl
    | cons d rest =>
      obtain rfl : d = ' ' := by simpa using bounded
      exact .inr ⟨rest, rfl⟩
  simp only [List.mem_cons, List.not_mem_nil, or_false] at known
  rcases known with rfl | rfl | rfl | rfl | rfl | rfl <;> rcases spaced with rfl | ⟨rest, rfl⟩ <;>
    exact ⟨_, _, rfl, rfl⟩

theorem scan_slash {after : List Char} (bounded : after.head?.all (· == ' ') = true) :
    scan '/' after = .ok (operator ['/'], after) := by
  cases after with
  | nil => rfl
  | cons d after =>
    obtain rfl : d = ' ' := by simpa using bounded
    rfl

theorem scan_equals {after : List Char} (bounded : after.head?.all (· == ' ') = true) :
    scan '=' after = .ok (operator ['='], after) := by
  cases after with
  | nil => rfl
  | cons d after =>
    obtain rfl : d = ' ' := by simpa using bounded
    rfl

theorem scan_symbol_alone {c : Char} (symbolic : isSymbol c = true)
    (single : ∀ text ∈ longOperators, text.head? ≠ some c)
    (after : List Char) :
    scan c after = .ok (.lexical (if c = '*' then .wildcard
      else if c = '(' ∨ c = ')' ∨ c = ',' ∨ c = ';' ∨ c = ':' then .punctuation else .operator) [c] none, after) := by
  rw [scan_symbol symbolic, symbol_eq single]

private theorem scan_single {text : String} {kind told : TokenKind} {spaceBefore : Bool} {after : List Char} (c : Char)
    (other : kind ≠ .literal) (spelled : text.toList = [c])
    (same : (if text = "*" then TokenKind.wildcard else kind) = told)
    (read : scan c after = .ok (.lexical told [c] none, after)) :
    ∃ first part, source ⟨kind, text, none, spaceBefore⟩ = first :: part ∧ scan first (part ++ after) =
      .ok (.lexical (raw ⟨kind, text, none, spaceBefore⟩).kind text.toList none, after) :=
  ⟨c, [], by rw [source_mk other, spelled], by rw [spelled, raw, same]; exact read⟩

theorem source_string {text : String} {spaceBefore : Bool} {content : List Char}
    (quoted : text.toList = enclose singleQuote (double singleQuote content)) :
    source ⟨.literal, text, none, spaceBefore⟩ = enclose singleQuote (escaped content) := by
  have bare : singleQuote ≠ '\\' := by decide
  simp [source, quoted, enclose, escaped, double, bare]

/-- What a lexeme is written as is read as the lexeme, but for what its neighbours tell of it. -/
theorem scan_plain {lexeme : Lexeme} (plain : lexeme.Plain) {after : List Char} (follows : Follows lexeme after) :
    ∃ c part, lexeme.source = c :: part ∧
      scan c (part ++ after) = .ok (.lexical lexeme.raw.kind lexeme.value.toList none, after) := by
  cases plain with
  | @word kind text spaceBefore spelled told =>
    have other : kind ≠ .literal := by split at told <;> rw [told] <;> decide
    rw [source_mk other]
    cases letters : text.toList with
    | nil => rw [letters] at spelled; cases spelled
    | cons c part =>
      rw [letters] at spelled
      have bounded : after.head?.all isBoundary = true := by
        unfold Follows at follows
        dsimp only at follows
        split at told <;> simpa [told] using follows
      refine ⟨c, part, rfl, ?_⟩
      have single : text ≠ "*" := by
        rintro rfl
        revert spelled
        rw [← letters]
        decide
      rw [scan_word spelled bounded, word, ← letters, String.ofList_toList, raw]
      simp [single, told]
  | mark known =>
    dsimp only
    rcases known with rfl | rfl | rfl
    · exact scan_single '(' (by decide) (by decide) (by decide) (scan_symbol_alone (by decide) (by decide) after)
    · exact scan_single ')' (by decide) (by decide) (by decide) (scan_symbol_alone (by decide) (by decide) after)
    · exact scan_single ',' (by decide) (by decide) (by decide) (scan_symbol_alone (by decide) (by decide) after)
  | dot =>
    dsimp only
    exact scan_single '.' (by decide) (by decide) (by decide) (scan_dot follows)
  | operator known =>
    dsimp only
    rcases known with rfl | rfl | rfl | rfl
    · exact scan_single '+' (by decide) (by decide) (by decide) (scan_symbol_alone (by decide) (by decide) after)
    · exact scan_single '-' (by decide) (by decide) (by decide) (scan_dash (by simpa [Follows] using follows))
    · exact scan_single '/' (by decide) (by decide) (by decide) (scan_slash (by simpa [Follows] using follows))
    · exact scan_single '=' (by decide) (by decide) (by decide) (scan_equals (by simpa [Follows] using follows))
  | @comparison text spaceBefore known =>
    have others : ∀ text ∈ ["<", ">", "<=", ">=", "<>", "<=>"], text ≠ "-" ∧ text ≠ "*" := by decide
    obtain ⟨noDash, noStar⟩ := others text known
    have spaced : after.head?.all (· == ' ') = true := by
      simpa [Follows, beq_eq_false_iff_ne.mpr noDash] using follows
    obtain ⟨c, part, spelled, read⟩ := scan_comparison known spaced
    rw [source_mk (show TokenKind.operator ≠ .literal by decide), raw, if_neg noStar]
    exact ⟨c, part, spelled, read⟩
  | @star kind spaceBefore known =>
    have other : kind ≠ .literal := by rcases known with rfl | rfl <;> decide
    exact scan_single '*' other (by decide) (if_pos rfl) (scan_symbol_alone (by decide) (by decide) after)
  | @number kind text spaceBefore spelled told =>
    have other : kind ≠ .literal := by split at told <;> rw [told] <;> decide
    rw [source_mk other]
    cases figures : text.toList with
    | nil => rw [figures] at spelled; cases spelled
    | cons c part =>
      have ends : ∀ c ∈ after.head?, endsNumber c = true := by
        have bounded : after.head?.all endsNumber = true := by
          unfold Follows at follows
          dsimp only at follows
          split at told <;> simpa [told] using follows
        intro c first
        rw [Option.mem_def.mp first] at bounded
        exact bounded
      have single : text ≠ "*" := by
        rintro rfl
        exact absurd spelled (by decide)
      rw [figures] at spelled told
      exact ⟨c, part, rfl, by rw [LiteralText.scan_numeral ends spelled, raw, if_neg single, told]⟩
  | @string text spaceBefore content quoted =>
    have single : text ≠ "*" := by
      rintro rfl
      exact absurd quoted (by simp [enclose, singleQuote])
    refine ⟨singleQuote, escaped content ++ [singleQuote], source_string quoted, ?_⟩
    rw [List.append_assoc, List.singleton_append, LiteralText.scan_escaped follows, quoted, raw, if_neg single]
    rfl

theorem spell_append (front rest : List Lexeme) : spell (front ++ rest) = spell front ++ spell rest := by
  induction front with
  | nil => rfl
  | cons lexeme front ih => simp only [List.cons_append, spell, ih, List.append_assoc]

section Called

variable {lexeme : Lexeme}

private theorem exists_called (called : lexeme.isCalled = true) :
    ∃ text space, lexeme = ⟨.name, text, none, space⟩ ∧ Keyword.isFunctionLike (upper text) = true := by
  obtain ⟨kind, text, quote, space⟩ := lexeme
  simp only [isCalled, Bool.and_eq_true, beq_iff_eq] at called
  obtain ⟨⟨rfl, rfl⟩, function⟩ := called
  exact ⟨text, space, rfl, function⟩

private theorem uncalled_called {text : String} {space : Bool} (function : Keyword.isFunctionLike (upper text) = true) :
    uncalled ⟨.name, text, none, space⟩ = ⟨.keyword, text, none, space⟩ := if_pos function

private theorem uncalled_other (other : lexeme.isCalled = false) : lexeme.uncalled = lexeme := by
  rw [uncalled, other]
  rfl

private theorem spelled_of_called (called : lexeme.isCalled = true) (plain : lexeme.uncalled.Plain) :
    isIdentifier lexeme.value.toList = true := by
  obtain ⟨text, space, rfl, function⟩ := exists_called called
  rw [uncalled_called function] at plain
  cases plain with
  | word spelled => exact spelled
  | number _ told => split at told <;> cases told
  | star known => exact absurd known (by decide)

private theorem raw_called (called : lexeme.isCalled = true) (plain : lexeme.uncalled.Plain) :
    lexeme.uncalled.raw = { lexeme with kind := .keyword } := by
  have other : lexeme.value ≠ "*" := by
    intro same
    have spelled := spelled_of_called called plain
    rw [same] at spelled
    exact absurd spelled (by decide)
  obtain ⟨text, space, rfl, function⟩ := exists_called called
  rw [uncalled_called function, raw, if_neg other]

private theorem same_uncalled (lexeme : Lexeme) :
    lexeme.uncalled.value = lexeme.value ∧ lexeme.uncalled.spaceBefore = lexeme.spaceBefore := by
  unfold uncalled
  split <;> exact ⟨rfl, rfl⟩

theorem source_uncalled (lexeme : Lexeme) : lexeme.uncalled.source = lexeme.source := by
  cases called : lexeme.isCalled with
  | false => rw [uncalled_other called]
  | true =>
    obtain ⟨text, space, rfl, function⟩ := exists_called called
    rw [uncalled_called function]
    rfl

private theorem isPunctuation_uncalled (lexeme : Lexeme) (text : String) :
    lexeme.uncalled.isPunctuation text = lexeme.isPunctuation text := by
  cases called : lexeme.isCalled with
  | false => rw [uncalled_other called]
  | true =>
    obtain ⟨text, space, rfl, function⟩ := exists_called called
    rw [uncalled_called function]
    rfl

private theorem follows_uncalled {after : List Char} (follows : Follows lexeme after) :
    Follows lexeme.uncalled after := by
  cases called : lexeme.isCalled with
  | false => rwa [uncalled_other called]
  | true =>
    obtain ⟨text, space, rfl, function⟩ := exists_called called
    rw [uncalled_called function]
    exact follows

end Called

private theorem follows_word {first : Lexeme} {text : String} {kind : TokenKind} {space : Bool}
    (glued : glues first ⟨kind, text, none, space⟩ = true) (named : kind = .keyword ∨ kind = .name)
    (spelled : isIdentifier text.toList = true) (after : List Char) : Follows first (text.toList ++ after) := by
  unfold glues at glued
  unfold Follows
  cases letters : text.toList with
  | nil => rw [letters] at spelled; cases spelled
  | cons c part =>
    rw [letters] at spelled
    have starts : isIdentifierStart c = true := by simp_all [isIdentifier]
    have noDigit := isDigit_of_start starts
    rcases named with rfl | rfl <;> split <;> simp_all

private theorem follows_plain {first next : Lexeme} (plain : next.Plain) (glued : glues first next = true)
    (after : List Char) :
    Follows first (next.source ++ after) := by
  cases plain with
  | @word kind text space spelled told =>
    have named : kind = .keyword ∨ kind = .name := by split at told <;> simp [told]
    rw [source_mk (by rcases named with rfl | rfl <;> decide)]
    exact follows_word glued named spelled after
  | mark known =>
    unfold glues at glued
    unfold Follows
    rcases known with rfl | rfl | rfl <;> split <;> simp_all [isBoundary, endsNumber, singleQuote]
  | star known =>
    unfold glues at glued
    unfold Follows
    rcases known with rfl | rfl <;> split <;> simp_all
  | dot | operator | comparison | string =>
    unfold glues at glued
    unfold Follows
    split <;> simp_all [isBoundary]
  | @number kind text _ spelled told =>
    have figures : kind = .integer ∨ kind = .float := by split at told <;> simp [told]
    cases digits : text.toList with
    | nil => rw [digits] at spelled; cases spelled
    | cons c part =>
      rw [digits] at spelled
      have digit : c.isDigit = true := by
        simp only [isNumeral, List.head?_cons, Option.any_some, Bool.and_eq_true] at spelled
        exact spelled.1
      unfold glues at glued
      unfold Follows
      rcases figures with rfl | rfl <;> split <;> simp_all

/-- A lexeme is read in front of what may stand next to it. -/
theorem follows_spell {first : Lexeme} {rest : List Lexeme} (plain : ∀ lexeme ∈ rest, lexeme.uncalled.Plain)
    (near : (first :: rest).IsChain Near) : Follows first (spell rest) := by
  cases rest with
  | nil => unfold Follows; split <;> simp [spell]
  | cons next rest =>
    obtain ⟨⟨apart, -⟩, -⟩ := List.isChain_cons_cons.mp near
    cases space : next.spaceBefore with
    | true =>
      have head : (spell (next :: rest)).head? = some ' ' := by simp [spell, space]
      unfold Follows
      split <;> simp [head, isBoundary, endsNumber, singleQuote]
    | false =>
      rw [space, Bool.false_or] at apart
      rw [show spell (next :: rest) = next.source ++ spell rest by simp [spell, space]]
      have known := plain next List.mem_cons_self
      cases called : next.isCalled with
      | false =>
        rw [uncalled_other called] at known
        exact follows_plain known apart _
      | true =>
        have spelled := spelled_of_called called known
        obtain ⟨text, space', rfl, -⟩ := exists_called called
        exact follows_word apart (.inr rfl) spelled _

theorem items_append {lexeme : Lexeme} (plain : lexeme.uncalled.Plain) {after : List Char}
    (follows : Follows lexeme after)
    {others : List Item} (read : Lexer.items after = .ok others) :
    Lexer.items (lexeme.source ++ after) =
        .ok (.lexical lexeme.uncalled.raw.kind lexeme.value.toList none :: others) := by
  obtain ⟨c, part, spelled, scanned⟩ := scan_plain plain (follows_uncalled follows)
  rw [source_uncalled] at spelled
  rw [(same_uncalled lexeme).1] at scanned
  rw [spelled, List.cons_append]
  exact items_cons.mpr ⟨_, after, others, scanned, read, rfl⟩

private theorem raw_eq {lexeme : Lexeme} (plain : lexeme.uncalled.Plain) :
    lexeme.uncalled.raw = ⟨lexeme.uncalled.raw.kind, String.ofList lexeme.value.toList, none, lexeme.spaceBefore⟩ := by
  have unquoted {lexeme : Lexeme} (plain : lexeme.Plain) : lexeme.quote = none := by cases plain <;> rfl
  rw [String.ofList_toList, ← unquoted plain, ← (same_uncalled lexeme).1, ← (same_uncalled lexeme).2]
  rfl

theorem items_spell {lexemes : List Lexeme} (plain : ∀ lexeme ∈ lexemes, lexeme.uncalled.Plain)
    (near : lexemes.IsChain Near) :
    ∃ items, Lexer.items (spell lexemes) = .ok items ∧ ofItemsFrom true items = lexemes.map (·.uncalled.raw) := by
  induction lexemes with
  | nil => exact ⟨[], by rw [spell, Lexer.items], rfl⟩
  | cons lexeme rest ih =>
    have others : ∀ lexeme ∈ rest, lexeme.uncalled.Plain :=
      fun other member => plain other (List.mem_cons_of_mem _ member)
    obtain ⟨items, read, same⟩ := ih others near.tail
    have here := plain lexeme List.mem_cons_self
    have found := items_append here (follows_spell others near) read
    rw [spell, List.append_assoc]
    cases space : lexeme.spaceBefore with
    | true =>
      refine ⟨.gap :: _, items_cons.mpr ⟨.gap, _, _, rfl, found, rfl⟩, ?_⟩
      rw [ofItemsFrom, ofItemsFrom, same, List.map_cons, raw_eq here, space]
      rfl
    | false =>
      refine ⟨_, found, ?_⟩
      rw [ofItemsFrom, same, List.map_cons, raw_eq here, space]
      rfl

theorem ofItems_written {lexemes : List Lexeme} (readable : Readable lexemes) :
    ∃ items, Lexer.items (written lexemes) = .ok items ∧ ofItems items = lexemes.map (·.uncalled.raw) := by
  obtain ⟨plain, near, -, first⟩ := readable
  cases lexemes with
  | nil => exact ⟨[], by rw [written, Lexer.items], rfl⟩
  | cons lexeme rest =>
    have others : ∀ lexeme ∈ rest, lexeme.uncalled.Plain :=
      fun other member => plain other (List.mem_cons_of_mem _ member)
    have here := plain lexeme List.mem_cons_self
    obtain ⟨items, read, same⟩ := items_spell others near.tail
    refine ⟨_, items_append here (follows_spell others near) read, ?_⟩
    rw [ofItems, ofItemsFrom, same, List.map_cons, raw_eq here, (first lexeme rfl).1]
    rfl

private theorem isCode_of_part {c : Char} (inside : isIdentifierPart c = true) : NormalizedText.isCode c = true := by
  have noSlash := ne_of_part inside (show isIdentifierPart '/' = false by decide)
  have noDash := ne_of_part inside (show isIdentifierPart '-' = false by decide)
  have noHash := ne_of_part inside (show isIdentifierPart '#' = false by decide)
  have noSingle := ne_of_part inside (show isIdentifierPart singleQuote = false by decide)
  have noDouble := ne_of_part inside (show isIdentifierPart doubleQuote = false by decide)
  have noTick := ne_of_part inside (show isIdentifierPart backtick = false by decide)
  have noNewline := ne_of_part inside (show isIdentifierPart '\n' = false by decide)
  have noReturn := ne_of_part inside (show isIdentifierPart '\r' = false by decide)
  simp [NormalizedText.isCode, *]

/-- Normalization leaves what a lexeme is written as. -/
theorem normalize_source {lexeme : Lexeme} (plain : lexeme.Plain) {after : List Char} (follows : Follows lexeme after) :
    normalize (lexeme.source ++ after) = lexeme.source ++ normalize after := by
  cases plain with
  | @word kind text _ spelled told =>
    rw [source_mk (by split at told <;> rw [told] <;> decide)]
    exact NormalizedText.normalize_append
      (fun c member => isCode_of_part (isIdentifierPart_of_mem spelled member)) after
  | mark known =>
    rw [source_mk (show TokenKind.punctuation ≠ .literal by decide)]
    rcases known with rfl | rfl | rfl <;> exact NormalizedText.normalize_append (List.all_eq_true.mp (by decide)) after
  | dot =>
    rw [source_mk (show TokenKind.dot ≠ .literal by decide)]
    exact NormalizedText.normalize_append (List.all_eq_true.mp (by decide)) after
  | star known =>
    rw [source_mk (by rcases known with rfl | rfl <;> decide)]
    exact NormalizedText.normalize_append (List.all_eq_true.mp (by decide)) after
  | comparison known =>
    have code : ∀ text ∈ ["<", ">", "<=", ">=", "<>", "<=>"], text.toList.all NormalizedText.isCode = true := by decide
    rw [source_mk (show TokenKind.operator ≠ .literal by decide)]
    exact NormalizedText.normalize_append (List.all_eq_true.mp (code _ known)) after
  | operator known =>
    have next {c : Char} (other : c ≠ ' ') (noDigit : c.isDigit = false) : after.head? ≠ some c := by
      intro same
      unfold Follows at follows
      dsimp only at follows
      rw [same, Option.all_some, noDigit, Bool.and_false, Bool.or_false, beq_iff_eq] at follows
      exact other follows
    have noDash : SegmentKind.opening? '-' after = none := by
      simp [SegmentKind.opening?, next (show '-' ≠ ' ' by decide) (by decide), singleQuote, doubleQuote, backtick]
    have noSlash : SegmentKind.opening? '/' after = none := by
      simp [SegmentKind.opening?, next (show '*' ≠ ' ' by decide) (by decide), singleQuote, doubleQuote, backtick]
    rw [source_mk (show TokenKind.operator ≠ .literal by decide)]
    rcases known with rfl | rfl | rfl | rfl
    · exact NormalizedText.normalize_append (List.all_eq_true.mp (by decide)) after
    · exact NormalizedText.normalize_code noDash (by decide)
    · exact NormalizedText.normalize_code noSlash (by decide)
    · exact NormalizedText.normalize_append (List.all_eq_true.mp (by decide)) after
  | number spelled told =>
    rw [source_mk (by split at told <;> rw [told] <;> decide)]
    exact LiteralText.normalize_numeral spelled after
  | string content quoted =>
    rw [source_string quoted]
    exact LiteralText.normalize_escaped follows content

theorem normalize_spell {lexemes : List Lexeme} (plain : ∀ lexeme ∈ lexemes, lexeme.uncalled.Plain)
    (near : lexemes.IsChain Near) :
    normalize (spell lexemes) = spell lexemes := by
  induction lexemes with
  | nil => exact NormalizedText.normalize_nil
  | cons lexeme rest ih =>
    have others : ∀ lexeme ∈ rest, lexeme.uncalled.Plain :=
      fun other member => plain other (List.mem_cons_of_mem _ member)
    have here := normalize_source (plain lexeme List.mem_cons_self) (follows_uncalled (follows_spell others near))
    rw [source_uncalled, ih others near.tail] at here
    rw [spell, List.append_assoc]
    split
    · rw [List.singleton_append, NormalizedText.normalize_isCode (by decide), here]
    · rw [List.nil_append, here]

theorem normalize_written {lexemes : List Lexeme} (readable : Readable lexemes) :
    normalize (written lexemes) = written lexemes := by
  obtain ⟨plain, near, -, -⟩ := readable
  cases lexemes with
  | nil => exact NormalizedText.normalize_nil
  | cons lexeme rest =>
    have others : ∀ lexeme ∈ rest, lexeme.uncalled.Plain :=
      fun other member => plain other (List.mem_cons_of_mem _ member)
    have here := normalize_source (plain lexeme List.mem_cons_self) (follows_uncalled (follows_spell others near))
    rw [source_uncalled, normalize_spell others near.tail] at here
    rw [written, here]

private theorem kind_of_star {lexeme : Lexeme} (plain : lexeme.Plain) (star : lexeme.value = "*") :
    lexeme.kind = .operator ∨ lexeme.kind = .wildcard := by
  cases plain with
  | star known => exact known
  | word spelled => dsimp only at star; subst star; exact absurd spelled (by decide)
  | mark known => dsimp only at star; subst star; exact absurd known (by decide)
  | dot => exact absurd star (show "." ≠ "*" by decide)
  | operator known => dsimp only at star; subst star; exact absurd known (by decide)
  | comparison known => dsimp only at star; subst star; exact absurd known (by decide)
  | number spelled => dsimp only at star; subst star; exact absurd spelled (by decide)
  | string content quoted => dsimp only at star; subst star; exact absurd quoted (by simp [enclose, singleQuote])

private theorem raw_beside {lexeme : Lexeme} (plain : lexeme.uncalled.Plain) :
    (lexeme.uncalled.raw.kind == .dot) = (lexeme.kind == .dot) ∧ lexeme.uncalled.raw.isPunctuation "(" =
        lexeme.isPunctuation "(" := by
  cases called : lexeme.isCalled with
  | true =>
    rw [raw_called called plain]
    obtain ⟨text, space, rfl, -⟩ := exists_called called
    exact ⟨rfl, rfl⟩
  | false =>
    rw [uncalled_other called] at plain ⊢
    unfold raw isPunctuation
    by_cases star : lexeme.value = "*"
    · rcases kind_of_star plain star with kind | kind <;> simp [star, kind]
    · simp [star]

private theorem reclassify_word {before after : Option Lexeme} {kind : TokenKind} {text : String} {spaceBefore : Bool}
    (told : kind = if Keyword.isReserved (upper text) then .keyword else .name)
    (left : ∀ other ∈ before, keepsKind other ⟨kind, text, none, spaceBefore⟩ = true)
    (right : ∀ next ∈ after, keepsKind ⟨kind, text, none, spaceBefore⟩ next = true ∧ next.uncalled.Plain) :
    reclassify before ⟨kind, text, none, spaceBefore⟩ (after.map (·.uncalled.raw)) =
        ⟨kind, text, none, spaceBefore⟩ := by
  cases reserved : Keyword.isReserved (upper text) with
  | false =>
    obtain rfl : kind = .name := by simpa [reserved] using told
    rfl
  | true =>
    obtain rfl : kind = .keyword := by simpa [reserved] using told
    have unqualified : before.any (·.kind == .dot) = false := by
      cases before with
      | none => rfl
      | some other =>
        have kept := left other rfl
        simp only [keepsKind, Bool.and_eq_true, Bool.not_eq_true', Bool.and_eq_false_iff] at kept
        simpa [isKeyword] using kept.1.1.1
    have following : (after.map (·.uncalled.raw)).any (·.kind == .dot) = false ∧
        ((after.map (·.uncalled.raw)).any (·.isPunctuation "(") && Keyword.isFunctionLike (upper text)) = false := by
      cases after with
      | none => exact ⟨rfl, rfl⟩
      | some next =>
        obtain ⟨kept, known⟩ := right next rfl
        obtain ⟨dot, opening⟩ := raw_beside known
        simp only [keepsKind, Bool.and_eq_true, Bool.not_eq_true', Bool.and_eq_false_iff] at kept
        simp only [Option.map_some, Option.any_some, dot, opening]
        refine ⟨by simpa [isKeyword] using kept.1.1.2, ?_⟩
        simpa [isKeyword, ← Bool.or_eq_true, imp_iff_not_or] using kept.1.2
    simp only [reclassify, unqualified, following, Bool.or_false, Bool.false_eq_true, if_false]

private theorem reclassify_star {before after : Option Lexeme} {kind : TokenKind} {spaceBefore : Bool}
    (known : kind = .operator ∨ kind = .wildcard)
    (left : ∀ other ∈ before, keepsKind other ⟨kind, "*", none, spaceBefore⟩ = true)
    (first : before = none → kind ≠ .operator) :
    reclassify before ⟨.wildcard, "*", none, spaceBefore⟩ after = ⟨kind, "*", none, spaceBefore⟩ := by
  rcases known with rfl | rfl
  · cases before with
    | none => exact absurd rfl (first rfl)
    | some other =>
      have kept := left other rfl
      simp only [keepsKind, Bool.and_eq_true] at kept
      have placed := kept.2
      simp only [bne_self_eq_false, Bool.false_or, Bool.not_eq_true'] at placed
      simp only [reclassify, Option.all_some, placed, Bool.false_eq_true, if_false]
  · have placed : before.all (fun other => other.kind == .dot || other.isKeyword || other.isPunctuation "," ||
        other.isPunctuation "(") = true := by
      cases before with
      | none => rfl
      | some other =>
        have kept := left other rfl
        simp only [keepsKind, Bool.and_eq_true] at kept
        exact kept.2
    simp only [reclassify, placed, if_true]

private theorem reclassify_called {before after : Option Lexeme} {lexeme : Lexeme} (called : lexeme.isCalled = true)
    (plain : lexeme.uncalled.Plain) (opening : after.any (·.isPunctuation "(") = true) :
    reclassify before lexeme.uncalled.raw after = lexeme := by
  rw [raw_called called plain]
  obtain ⟨text, space, rfl, function⟩ := exists_called called
  simp only [reclassify, opening, function, Bool.and_self, Bool.or_true, if_true]

private theorem reclassify_plain {before after : Option Lexeme} {lexeme : Lexeme} (plain : lexeme.Plain)
    (left : ∀ other ∈ before, keepsKind other lexeme = true)
    (right : ∀ next ∈ after, keepsKind lexeme next = true ∧ next.uncalled.Plain)
    (first : before = none → lexeme.kind ≠ .operator) :
    reclassify before lexeme.raw (after.map (·.uncalled.raw)) = lexeme := by
  cases plain with
  | @word kind text spaceBefore spelled told =>
    have other : text ≠ "*" := by
      rintro rfl
      exact absurd spelled (by decide)
    have same : raw ⟨kind, text, none, spaceBefore⟩ = ⟨kind, text, none, spaceBefore⟩ := by simp [raw, other]
    rw [same]
    exact reclassify_word told left right
  | mark known => rcases known with rfl | rfl | rfl <;> rfl
  | dot => rfl
  | operator known => rcases known with rfl | rfl | rfl | rfl <;> rfl
  | @comparison text spaceBefore known =>
    have other : ∀ text ∈ ["<", ">", "<=", ">=", "<>", "<=>"], text ≠ "*" := by decide
    rw [raw, if_neg (other text known)]
    rfl
  | @number kind text spaceBefore spelled told =>
    have other : text ≠ "*" := by
      rintro rfl
      exact absurd spelled (by decide)
    rw [raw, if_neg other]
    split at told <;> (subst told; rfl)
  | @string text spaceBefore content quoted =>
    have other : text ≠ "*" := by
      rintro rfl
      exact absurd quoted (by simp [enclose, singleQuote])
    rw [raw, if_neg other]
    rfl
  | star known => exact reclassify_star known left first

theorem reclassify_raw {before : Option Lexeme} {lexeme : Lexeme} {rest : List Lexeme}
    (plain : ∀ other ∈ lexeme :: rest, other.uncalled.Plain) (near : (before.toList ++ lexeme :: rest).IsChain Near)
    (called : calls (lexeme :: rest) = true) (first : before = none → lexeme.kind ≠ .operator) :
    reclassify before lexeme.uncalled.raw (rest.map (·.uncalled.raw)).head? = lexeme := by
  have left : ∀ other ∈ before, keepsKind other lexeme = true := by
    rintro other rfl
    exact (List.isChain_cons_cons.mp near).1.2
  have right : ∀ next ∈ rest.head?, keepsKind lexeme next = true ∧ next.uncalled.Plain := by
    intro next found
    obtain ⟨others, rfl⟩ := List.head?_eq_some_iff.mp found
    have chain : (lexeme :: next :: others).IsChain Near := (List.isChain_append.mp near).2.1
    exact ⟨(List.isChain_cons_cons.mp chain).1.2, plain next (by simp)⟩
  have known := plain lexeme List.mem_cons_self
  rw [List.head?_map]
  cases function : lexeme.isCalled with
  | false =>
    rw [uncalled_other function] at known ⊢
    exact reclassify_plain known left right first
  | true =>
    rw [calls, function, Bool.not_true, Bool.false_or, Bool.and_eq_true] at called
    refine reclassify_called function known ?_
    cases found : rest.head? with
    | none => rw [found] at called; cases called.1
    | some next =>
      rw [found] at called
      rw [Option.map_some, Option.any_some, (raw_beside (right next found).2).2]
      exact called.1

/-- Next to what they are written between, lexemes are told as what they are. -/
theorem reclassifyFrom_raw {before : Option Lexeme} {lexemes : List Lexeme}
    (plain : ∀ lexeme ∈ lexemes, lexeme.uncalled.Plain)
    (near : (before.toList ++ lexemes).IsChain Near) (called : calls lexemes = true)
    (first : before = none → ∀ lexeme ∈ lexemes.head?, lexeme.kind ≠ .operator) :
    reclassifyFrom before (lexemes.map (·.uncalled.raw)) = lexemes := by
  induction lexemes generalizing before with
  | nil => rfl
  | cons lexeme rest ih =>
    have told : reclassify before lexeme.uncalled.raw (rest.map (·.uncalled.raw)).head? = lexeme :=
      reclassify_raw plain near called fun alone => first alone lexeme rfl
    have later : calls rest = true := ((Bool.and_eq_true _ _).mp called).2
    have others : reclassifyFrom (some lexeme) (rest.map (·.uncalled.raw)) = rest :=
      ih (fun other member => plain other (List.mem_cons_of_mem _ member)) (List.isChain_append.mp near).2.1 later nofun
    rw [List.map_cons, reclassifyFrom, told, others]

/-- Where no two lexemes are words of one keyword, none are merged. -/
theorem compounds_apart {lexemes : List Lexeme}
    (apart : lexemes.IsChain fun first next => endsKeyword first next = true) :
    mergeCompounds lexemes = lexemes := by
  apply CompoundKeywords.mergeCompounds_of_apart
  apply apart.imp
  intro first next ends
  simp only [endsKeyword, Bool.and_eq_true, Bool.not_eq_true', Bool.and_eq_false_iff, Bool.or_eq_false_iff] at ends
  obtain ⟨noBy, noJoin⟩ := ends
  constructor
  · rintro ⟨takes, by'⟩
    simp [takes, by'] at noBy
  · rintro ⟨joins, join⟩
    simp [joins, join] at noJoin

theorem compounds_beside {lexemes : List Lexeme} (beside : lexemes.IsChain Beside) : mergeCompounds lexemes = lexemes :=
  compounds_apart (beside.imp fun _ _ here => here.2.2)

theorem isPunctuation_of_plain {lexeme : Lexeme} (plain : lexeme.Plain) : lexeme.isPunctuation ";" = false := by
  cases plain with
  | mark known => rcases known with rfl | rfl | rfl <;> rfl
  | star known => rcases known with rfl | rfl <;> rfl
  | word _ told | number _ told => split at told <;> rw [told] <;> rfl
  | dot | operator | comparison | string => rfl

theorem dropTerminators_plain {lexemes : List Lexeme} (plain : ∀ lexeme ∈ lexemes, lexeme.uncalled.Plain) :
    dropTerminators (mergeCompounds lexemes) = mergeCompounds lexemes := by
  apply WrittenBody.dropTerminators_eq
  rw [Option.any_eq_false]
  intro last found
  have groups := CompoundKeywords.grouping lexemes
  obtain ⟨group, inside, same⟩ := List.mem_map.mp (List.mem_of_getLast? found)
  have reads := CompoundKeywords.readAs_of_mem groups group inside
  rw [same] at reads
  cases reads with
  | single =>
    have member : last ∈ lexemes := by
      rw [← CompoundKeywords.flatten_groups groups]
      exact List.mem_flatten_of_mem inside (List.mem_singleton_self last)
    rw [← isPunctuation_uncalled, isPunctuation_of_plain (plain last member)]
  | compound => rfl

/-- The text of lexemes is in normal form and read as these lexemes, with keywords of several words in one piece. -/
theorem ofText_readable {lexemes : List Lexeme} (readable : Readable lexemes) :
    Lexeme.ofText (normalize (written lexemes)) = .ok (mergeCompounds lexemes) := by
  obtain ⟨items, read, same⟩ := ofItems_written readable
  have told : reclassifyAll (lexemes.map (·.uncalled.raw)) = lexemes :=
    reclassifyFrom_raw readable.plain readable.near readable.calls fun _ other first => (readable.first other first).2
  rw [normalize_written readable, Lexeme.ofText, read]
  simp only [Except.map, same, told, dropTerminators_plain readable.plain]

/-- And without such keywords it is read as what it was written from. -/
theorem ofText_written {lexemes : List Lexeme} (legible : Legible lexemes) :
    Lexeme.ofText (normalize (written lexemes)) = .ok lexemes := by
  rw [ofText_readable legible.readable, compounds_beside legible.beside]

end QueryFacts.Proofs.PlainText
