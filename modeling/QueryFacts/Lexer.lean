import QueryFacts.Keyword
import QueryFacts.Lexer.Fault
import QueryFacts.Lexer.Quoted
import QueryFacts.Text.Letter
import QueryFacts.Text.Numeral
import QueryFacts.Token.Kind

/-! The lexer: it cuts a text into gaps, which are blanks and comments, and lexical
items, each as long as it can be. -/

namespace QueryFacts.Lexer
open Text

inductive Item where
  | gap
  | lexical (kind : TokenKind) (value : List Char) (quote : Option Char)
  deriving DecidableEq

/-- An item, or a stop, and the rest of the text after it. -/
abbrev Scan := Except Stop (Item × List Char)

def isIdentifierStart (c : Char) : Bool :=
  isLetter c || c == '_' || c == '$' || c == '@' || (0x80 ≤ c.toNat && c.toNat ≤ 0xFFFF)

def isIdentifierPart (c : Char) : Bool := isIdentifierStart c || c.isDigit

/-- The blanks between items. Other blanks are characters of identifiers. -/
def isGap (c : Char) : Bool := c == ' ' || c == '\t' || c == '\n' || c == '\r' || c == '\x0B' || c == '\x0C'

/-- An unquoted word, which is a keyword or a name. -/
def word (text : List Char) : Item :=
  .lexical (if Keyword.isReserved (upper (String.ofList text)) then .keyword else .name) text none

/-- The word that begins with `first` and goes on with the identifier at the start of `rest`. -/
def wordFrom (first rest : List Char) : Item × List Char :=
  (word (first ++ rest.takeWhile isIdentifierPart), rest.dropWhile isIdentifierPart)

/-- A quoted item; `whole` is the text from its opening quote. -/
def quotedItem (fault : Fault) (whole : List Char) (body : Option Body) (item : List Char → Item) : Scan :=
  match body with
  | none => .error ⟨fault, whole⟩
  | some (inner, rest) => .ok (item inner, rest)

def literal (text : List Char) : Item := .lexical .literal text none

def operator (text : List Char) : Item := .lexical .operator text none

/-- An exponent at the start of a text: `e`, perhaps a sign, and digits. -/
def exponent (text : List Char) : List Char :=
  match text with
  | [] => []
  | e :: rest =>
    let sign := (rest.take 1).takeWhile fun c => c = '+' ∨ c = '-'
    let digits := (rest.drop sign.length).takeWhile (·.isDigit)
    if (e = 'e' ∨ e = 'E') ∧ digits ≠ [] then e :: sign ++ digits else []

/-- The digits, perhaps with a point in them, at the start of a text. -/
def mantissa (text : List Char) : List Char :=
  let digits := text.takeWhile (·.isDigit)
  match text.drop digits.length with
  | '.' :: rest => digits ++ '.' :: rest.takeWhile (·.isDigit)
  | _ => digits

/-- A number, a word that starts like a number, or a point. Characters of identifiers right behind the
digits make a word of them, also those after an `e` that begins no exponent. -/
def number (text : List Char) : Item × List Char :=
  let start := mantissa text
  let rest := text.drop start.length
  let power := exponent rest
  if start = ['.'] then (.lexical .dot start none, rest)
  else if power = [] ∧ rest.takeWhile isIdentifierPart ≠ [] then wordFrom start rest
  else
    let whole := start ++ power
    let rest := rest.drop power.length
    (.lexical (if whole.all (·.isDigit) then .integer else .float) whole none, if rest.head? = some 'L' then
      rest.drop 1 else rest)

/-- `0x` and hexadecimal digits; other items that start with a digit or a point are numbers. -/
def numeric (text : List Char) : Item × List Char :=
  match text with
  | '0' :: 'x' :: rest =>
    (literal ('X' :: enclose singleQuote (rest.takeWhile isHexDigit)), rest.dropWhile isHexDigit)
  | _ => number text

/-- Operators of several characters, the longer before the shorter. -/
def longOperators : List (List Char) :=
  ["||/", "->>", "!~~*", "!~~", "!~*", "<=>", "~~*", "->", "|/", "||", "=>", "==", "!=", "!!", "!~",
    "<=", "<>", "<<", "<@", ">=", ">>", "::", ":=", "&&", "^@", "~*", "~~"].map String.toList

/-- An operator of several characters or a single character. -/
def symbol (c : Char) (rest : List Char) : Item × List Char :=
  match longOperators.find? (·.isPrefixOf (c :: rest)) with
  | some text => (operator (if text = ['!', '='] then ['<', '>'] else text), rest.drop (text.length - 1))
  | none =>
    let kind : TokenKind :=
      if c = '*' then .wildcard else if c = '(' ∨ c = ')' ∨ c = ',' ∨ c = ';' ∨ c = ':' then .punctuation else .operator
    (.lexical kind [c] none, rest)

/-- Items that start with `@`, by the rest of the text. The character after the signs
belongs to the word whatever it is. -/
def atSign (rest : List Char) : Item × List Char :=
  match rest with
  | [] => (operator ['@'], rest)
  | '>' :: rest => (operator ['@', '>'], rest)
  | '?' :: rest => (operator ['@', '?'], rest)
  | '@' :: [] => (operator ['@', '@'], [])
  | '@' :: c :: more => if c = ' ' then (operator ['@', '@'], c :: more) else wordFrom ['@', '@', c] more
  | c :: more =>
    if c = ' ' ∨ c = singleQuote ∨ c = doubleQuote ∨ c = backtick then (operator ['@'], rest)
    else wordFrom ['@', c] more

/-- The rest of a text after the first `*/`. -/
def afterBlockComment : List Char → Option (List Char)
  | [] => none
  | [_] => none
  | c :: d :: rest => if c = '*' ∧ d = '/' then some rest else afterBlockComment (d :: rest)

/-- A string or a string with a letter before it, if the text starts with one. -/
def string? (c : Char) (rest : List Char) : Option Scan :=
  let body := rest.drop 1
  if c = singleQuote then
    some (quotedItem .unterminatedString (c :: rest) (quotedBody c true rest)
      fun inner => literal (enclose c (double c inner)))
  else if c = doubleQuote then
    some (quotedItem .unterminatedString (c :: rest) (quotedBody c true rest) fun inner => literal (enclose c inner))
  else if c = backtick then
    some (quotedItem .unterminatedIdentifier (c :: rest) (quotedBody c false rest)
      fun inner => .lexical .name inner (some c))
  else match rest.head? with
    | none => none
    | some quote =>
      if (c = 'b' ∨ c = 'B') ∧ (quote = singleQuote ∨ quote = doubleQuote) then
        some (quotedItem .unterminatedString rest (quotedBody quote false body)
          fun inner => operator ('B' :: enclose quote inner))
      else if (c = 'n' ∨ c = 'N' ∨ c = 'x' ∨ c = 'X') ∧ quote = singleQuote then
        some (quotedItem .unterminatedString rest (quotedBody quote true body)
          fun inner => literal (c.toUpper :: enclose quote inner))
      else if (c = 'e' ∨ c = 'E') ∧ quote = singleQuote then
        some (quotedItem .unterminatedEscapedString (c :: rest) (escapedBody body)
          fun inner => operator ('E' :: enclose quote inner))
      else none

/-- The item at the start of the text `c :: rest`. -/
def scan (c : Char) (rest : List Char) : Scan :=
  if isGap c then .ok (.gap, rest)
  else match string? c rest with
    | some found => found
    | none =>
      if c.isDigit ∨ c = '.' then .ok (numeric (c :: rest))
      else if c = '/' ∧ rest.head? = some '*' then
        match afterBlockComment (rest.drop 1) with
        | none => .error ⟨.unterminatedComment, []⟩
        | some rest => .ok (.gap, rest)
      else if c = '#' ∨ (c = '-' ∧ rest.head? = some '-') then .ok (.gap, (rest.dropWhile (· ≠ '\n')).drop 1)
      else if c = '@' then .ok (atSign rest)
      else if c = '?' then .ok (literal (c :: rest.takeWhile isNumeral), rest.dropWhile isNumeral)
      else if isIdentifierStart c then .ok (wordFrom [c] rest)
      else .ok (symbol c rest)

private theorem length_dropWhile_le (accepts : Char → Bool) (text : List Char) :
    (text.dropWhile accepts).length ≤ text.length := (List.dropWhile_suffix accepts).length_le

private theorem mantissa_ne_nil {c : Char} (rest : List Char) (starts : c.isDigit ∨ c = '.') :
    mantissa (c :: rest) ≠ [] := by
  rcases starts with digit | rfl
  · simp only [mantissa, List.takeWhile_cons, digit, ↓reduceIte]
    split <;> simp
  · simp [mantissa]

private theorem numeric_length {c : Char} {rest : List Char} (starts : c.isDigit ∨ c = '.') :
    (numeric (c :: rest)).2.length ≤ rest.length := by
  have some := List.length_pos_iff.2 (mantissa_ne_nil rest starts)
  unfold numeric
  split
  next tail same =>
    obtain ⟨rfl, rfl⟩ := List.cons.inj same
    exact Nat.le_succ_of_le (length_dropWhile_le _ _)
  next =>
    simp only [number, wordFrom]
    have shorter := length_dropWhile_le isIdentifierPart ((c :: rest).drop (mantissa (c :: rest)).length)
    split
    · simp; omega
    · split
      · simp only [List.length_drop, List.length_cons] at *; omega
      · dsimp only; split <;> simp only [List.length_drop, List.length_cons] <;> omega

private theorem atSign_length (rest : List Char) : (atSign rest).2.length ≤ rest.length := by
  have shorter := length_dropWhile_le isIdentifierPart
  unfold atSign wordFrom
  repeat' split
  all_goals simp only [List.length_cons, List.length_nil, Nat.le_refl, Nat.le_add_right]
  all_goals exact Nat.le_trans (shorter _) (by omega)

private theorem symbol_length (c : Char) (rest : List Char) : (symbol c rest).2.length ≤ rest.length := by
  unfold symbol; split <;> simp

private theorem afterBlockComment_length {text rest : List Char} (found : afterBlockComment text = some rest) :
    rest.length ≤ text.length := by
  fun_induction afterBlockComment text <;> simp_all <;> grind

private theorem quotedItem_length {fault : Fault} {whole : List Char} {body : Option Body} {item : List Char → Item}
    {result : Item × List Char} (read : quotedItem fault whole body item = .ok result) :
    ∃ inner, body = some (inner, result.2) := by
  unfold quotedItem at read
  split at read
  next => cases read
  next inner _ => cases read; exact ⟨inner, rfl⟩

private theorem string?_length {c : Char} {rest : List Char} {result : Item × List Char}
    (read : string? c rest = some (.ok result)) : result.2.length ≤ rest.length := by
  have quoted : ∀ {quote escapes text inner}, quotedBody quote escapes text = some (inner, result.2) →
      result.2.length ≤ text.length := fun found => Nat.le_of_lt (quotedBody_length found)
  have escaped : ∀ {text inner}, escapedBody text = some (inner, result.2) → result.2.length ≤ text.length :=
    fun found => Nat.le_of_lt (escapedBody_length found)
  have tail : (rest.drop 1).length ≤ rest.length := by simp
  unfold string? at read
  repeat' split at read
  all_goals simp only [Option.some.injEq, reduceCtorEq] at read
  all_goals obtain ⟨inner, found⟩ := quotedItem_length read
  all_goals first
    | exact quoted found
    | exact Nat.le_trans (quoted found) tail
    | exact Nat.le_trans (escaped found) tail

/-- Every item takes a character at least. -/
theorem scan_length {c : Char} {rest : List Char} {result : Item × List Char} (read : scan c rest = .ok result) :
    result.2.length ≤ rest.length := by
  have shorter := fun accepts => length_dropWhile_le accepts rest
  unfold scan at read
  split at read
  · cases read; exact Nat.le_refl _
  · split at read
    next found => exact string?_length (found.trans (congrArg some read))
    next =>
      repeat' split at read
      all_goals try (cases read)
      · exact numeric_length (by assumption)
      · next found => exact Nat.le_trans (afterBlockComment_length found) (by simp)
      · exact Nat.le_trans (by simp) (shorter (· ≠ '\n'))
      · exact atSign_length rest
      · exact shorter isNumeral
      · exact shorter isIdentifierPart
      · exact symbol_length c rest

/-- The items of a text, or what stops the lexer. -/
def items : List Char → Except Stop (List Item)
  | [] => .ok []
  | c :: rest =>
    match _read : scan c rest with
    | .error stop => .error stop
    | .ok (item, after) => (items after).map (item :: ·)
termination_by text => text.length
decreasing_by exact Nat.lt_succ_of_le (scan_length _read)

end QueryFacts.Lexer
