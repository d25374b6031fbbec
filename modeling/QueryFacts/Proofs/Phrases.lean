import QueryFacts.Proofs.JoinKeywords
import QueryFacts.Proofs.Selections.Signs
import QueryFacts.Proofs.TextParts

/-! Statements without queries as they are written: words, operators and commas, and among them
parentheses around as much again. What a word means is left open, so that definitions, rows of
values and assignments are all phrases. -/

namespace QueryFacts
open Text Proofs.ColumnListStatement

inductive Literal where
  | number (negative : Bool) (digits : String)
  | string (content : String)
  | null
  | truth (holds : Bool)

inductive Word where
  | keyword (text : String)
  | name (text : String)
  | literal (value : Literal)

inductive Phrase where
  | done
  | word (first : Word) (rest : Phrase)
  | operator (symbol : String) (rest : Phrase)
  | comma (rest : Phrase)
  | group (apart : Bool) (inner rest : Phrase)

/-- A keyword that is called as a function. -/
structure IsCalledName (name : String) : Prop where
  spelled : isIdentifier name.toList = true
  function : Keyword.isFunctionLike (upper name) = true

instance (name : String) : Decidable (IsCalledName name) :=
  decidable_of_iff (isIdentifier name.toList = true ∧ Keyword.isFunctionLike (upper name) = true)
    ⟨fun ⟨spelled, function⟩ => ⟨spelled, function⟩, fun ⟨spelled, function⟩ => ⟨spelled, function⟩⟩

/-- A number as it is written. -/
def Lexeme.ofNumeral (digits : String) (apart : Bool) : Lexeme :=
  ⟨if digits.toList.all (·.isDigit) then .integer else .float, digits, none, apart⟩

namespace Literal

def lexemes (apart : Bool) : Literal → List Lexeme
  | number negative digits =>
    if negative then [⟨.operator, "-", none, apart⟩, Lexeme.ofNumeral digits false] else [Lexeme.ofNumeral digits apart]
  | string content => [⟨.literal, String.ofList (enclose singleQuote (double singleQuote content.toList)), none, apart⟩]
  | null => [Lexeme.ofKeyword "NULL" apart]
  | truth holds => [Lexeme.ofKeyword (if holds then "TRUE" else "FALSE") apart]

def Known : Literal → Prop
  | number _ digits => isNumeral digits.toList = true
  | _ => True

instance : (value : Literal) → Decidable value.Known
  | number _ digits => inferInstanceAs (Decidable (isNumeral digits.toList = true))
  | string _ | null | truth _ => isTrue trivial

end Literal

namespace Word

/-- The keywords of phrases. Others begin a query or belong to a keyword of several words. -/
def keywords : List String :=
  Keyword.reserved.filter fun word => !(["SELECT", "WITH", "FROM", "JOIN", "BY"].contains word)

def lexemes (apart : Bool) : Word → List Lexeme
  | .keyword text => [Lexeme.ofKeyword text apart]
  | .name text => [Lexeme.ofName text apart]
  | .literal value => value.lexemes apart

def Known : Word → Prop
  | .keyword text => text ∈ keywords
  | .name text => IsBareName text
  | .literal value => value.Known

instance : (word : Word) → Decidable word.Known
  | .keyword text => inferInstanceAs (Decidable (text ∈ keywords))
  | .name text => inferInstanceAs (Decidable (IsBareName text))
  | .literal value => inferInstanceAs (Decidable value.Known)

/-- A keyword that is a name in front of a parenthesis. -/
def isCallable : Word → Bool
  | .keyword text => Keyword.isFunctionLike text
  | _ => false

end Word

namespace Phrase

def lexemes (glued : Bool) : Phrase → List Lexeme
  | .done => []
  | .word first rest => first.lexemes (!glued) ++ rest.lexemes false
  | .operator symbol rest => ⟨.operator, symbol, none, true⟩ :: rest.lexemes false
  | .comma rest => Lexeme.comma :: rest.lexemes false
  | .group apart inner rest =>
    ⟨.punctuation, "(", none, apart⟩ :: (inner.lexemes true ++ closing :: rest.lexemes false)

def text (phrase : Phrase) : String := String.ofList (Lexeme.written (phrase.lexemes false))

/-- Words in front of a phrase. -/
def ofWords (words : List Word) (rest : Phrase) : Phrase := words.foldr .word rest

def beginsGroup : Phrase → Bool
  | group .. => true
  | _ => false

/-- Something that stands apart from an operator before it. -/
def beginsOperand : Phrase → Bool
  | word .. | operator .. => true
  | group apart _ _ => apart
  | _ => false

def operators : List String := ["+", "-", "/", "=", "<", ">", "<=", ">=", "<>", "<=>"]

def Known : Phrase → Prop
  | .done => True
  | .word first rest => first.Known ∧ (first.isCallable = true → rest.beginsGroup = false) ∧ rest.Known
  | .operator symbol rest => symbol ∈ operators ∧ rest.beginsOperand = true ∧ rest.Known
  | .comma rest => rest.Known
  | .group _ inner rest => inner.Known ∧ rest.Known

def decideKnown : (phrase : Phrase) → Decidable phrase.Known
  | .done => isTrue trivial
  | .word first rest =>
    have := decideKnown rest
    inferInstanceAs (Decidable (first.Known ∧ (first.isCallable = true → rest.beginsGroup = false) ∧ rest.Known))
  | .operator symbol rest =>
    have := decideKnown rest
    inferInstanceAs (Decidable (symbol ∈ operators ∧ rest.beginsOperand = true ∧ rest.Known))
  | .comma rest => decideKnown rest
  | .group _ inner rest =>
    have := decideKnown inner
    have := decideKnown rest
    inferInstanceAs (Decidable (inner.Known ∧ rest.Known))

instance (phrase : Phrase) : Decidable phrase.Known := phrase.decideKnown

/-- Known, but that keywords may be called as functions. -/
def KnownCalls : Phrase → Prop
  | .done => True
  | .word first rest =>
    (first.Known ∨ ∃ name, first = .name name ∧ IsCalledName name ∧ rest.beginsGroup = true) ∧
      (first.isCallable = true → rest.beginsGroup = false) ∧ rest.KnownCalls
  | .operator symbol rest => symbol ∈ operators ∧ rest.beginsOperand = true ∧ rest.KnownCalls
  | .comma rest => rest.KnownCalls
  | .group _ inner rest => inner.KnownCalls ∧ rest.KnownCalls

theorem Known.calls {phrase : Phrase} (known : phrase.Known) : phrase.KnownCalls := by
  induction phrase with
  | done => trivial
  | word first rest ih => exact ⟨.inl known.1, known.2.1, ih known.2.2⟩
  | operator symbol rest ih => exact ⟨known.1, known.2.1, ih known.2.2⟩
  | comma rest ih => exact ih known
  | group apart inner rest ihInner ihRest => exact ⟨ihInner known.1, ihRest known.2⟩

/-- How many parentheses are open at one time. -/
def depth : Phrase → Nat
  | done => 0
  | word _ rest | operator _ rest | comma rest => rest.depth
  | group _ inner rest => max (inner.depth + 1) rest.depth

end Phrase

/-- The lexemes that phrases are written from. -/
inductive Lexeme.Phrasal : Lexeme → Prop where
  | keyword {word : String} (known : word ∈ Word.keywords) (apart : Bool) : Phrasal (ofKeyword word apart)
  | name {name : String} (known : IsBareName name) (apart : Bool) : Phrasal (ofName name apart)
  | number {digits : String} (spelled : isNumeral digits.toList = true) (apart : Bool) :
      Phrasal (ofNumeral digits apart)
  | string {value : String}
    (content : List Char) (quoted : value.toList = enclose singleQuote (double singleQuote content))
      (apart : Bool) : Phrasal ⟨.literal, value, none, apart⟩
  | operator {symbol : String} (known : symbol ∈ Phrase.operators) (apart : Bool) :
      Phrasal ⟨.operator, symbol, none, apart⟩
  | comma : Phrasal comma
  | opening (apart : Bool) : Phrasal ⟨.punctuation, "(", none, apart⟩
  | closing : Phrasal closing

/-- A keyword that is called as a function. -/
def Lexeme.Called (lexeme : Lexeme) : Prop := ∃ name apart, lexeme = ofName name apart ∧ IsCalledName name

end QueryFacts

namespace QueryFacts.Proofs.Phrases
open Text Lexeme NestingRun PlainText SelectList ColumnListStatement TextParts JoinKeywords
open Selections (Shallow shallow_level sides_append)

example :
    Phrase.text
      (.word (.name "f") (.group false (.word (.literal (.number true "2")) (.comma (.word (.literal .null) .done)))
    (.operator "=" (.word (.keyword "DEFAULT") .done)))) = "f(-2, NULL) = DEFAULT" := by decide

theorem known_ofWords {words : List Word} {rest : Phrase} (known : ∀ word ∈ words, word.Known) (knownRest : rest.Known)
    (noGroup : rest.beginsGroup = false) : (Phrase.ofWords words rest).Known := by
  induction words with
  | nil => exact knownRest
  | cons word words ih =>
    have later := ih fun other member => known other (List.mem_cons_of_mem _ member)
    refine ⟨known word List.mem_cons_self, fun _ => ?_, later⟩
    cases words with
    | nil => exact noGroup
    | cons => rfl

section Lexemes

theorem keyword_facts : ∀ word ∈ Word.keywords, isIdentifier word.toList = true ∧ upper word = word ∧
    Keyword.normalForm word = word ∧
    Keyword.isReserved word = true ∧ (word.toList.map Char.toUpper == "JOIN".toList) = false ∧
      (word.toList.map Char.toUpper == "BY".toList) = false := by
  have letters : ∀ word ∈ Word.keywords, isIdentifier word.toList = true ∧ upper word = word ∧
      Keyword.normalForm word = word ∧
      (word.toList.map Char.toUpper == "JOIN".toList) = false ∧
          (word.toList.map Char.toUpper == "BY".toList) = false := by
    decide +kernel
  intro word known
  have reserved : Keyword.isReserved word = true := List.contains_iff_mem.mpr (List.mem_of_mem_filter known)
  obtain ⟨spelled, same, normal, noJoin, noBy⟩ := letters word known
  exact ⟨spelled, same, normal, reserved, noJoin, noBy⟩

theorem ofNumeral_cases (digits : String) (apart : Bool) :
    ofNumeral digits apart = ⟨.integer, digits, none, apart⟩ ∨
        ofNumeral digits apart = ⟨.float, digits, none, apart⟩ := by
  unfold ofNumeral
  split
  · exact .inl rfl
  · exact .inr rfl

/-- No keyword begins with a digit or a quote. -/
private theorem unreserved_of_first {text : String} {c : Char} {rest : List Char} (letters : text.toList = c :: rest)
    (odd : c.isDigit = true ∨ c = singleQuote) : Keyword.isReserved text = false := by
  have regular : ∀ word ∈ Keyword.reserved, word.toList.head?.all (fun c => !c.isDigit && c != singleQuote) =
      true := by decide +kernel
  rw [Bool.eq_false_iff]
  intro reserved
  have here := regular _ (List.contains_iff_mem.mp reserved)
  rw [letters, List.head?_cons, Option.all_some] at here
  rcases odd with digit | rfl
  · simp [digit] at here
  · simp at here

/-- The lexemes of a literal are values, but for a sign and for words. -/
theorem literal_lexemes (value : Literal) (apart : Bool) : ∀ lexeme ∈ value.lexemes apart,
    lexeme.kind ∈ [TokenKind.integer, .float, .literal, .operator] ∨ ∃ word ∈ ["NULL", "TRUE", "FALSE"],
    lexeme = ofKeyword word apart := by
  intro lexeme member
  cases value with
  | number negative digits =>
    have number (apart : Bool) : (ofNumeral digits apart).kind ∈ [TokenKind.integer, .float, .literal, .operator] := by
      rcases ofNumeral_cases digits apart with same | same <;> simp [same]
    cases negative with
    | false => exact .inl (List.mem_singleton.mp member ▸ number apart)
    | true =>
      rcases List.mem_cons.mp member with rfl | last
      · exact .inl (by simp)
      · exact .inl (List.mem_singleton.mp last ▸ number false)
  | string => exact .inl (List.mem_singleton.mp member ▸ by simp)
  | null => exact .inr ⟨"NULL", by decide, List.mem_singleton.mp member⟩
  | truth holds =>
    exact .inr ⟨if holds then "TRUE" else "FALSE", by cases holds <;> decide, List.mem_singleton.mp member⟩

theorem phrasal_literal {literal : Literal} (known : literal.Known) (apart : Bool) :
    ∀ lexeme ∈ literal.lexemes apart, lexeme.Phrasal := by
  intro lexeme member
  cases literal with
  | number negative digits =>
    cases negative with
    | false => exact List.mem_singleton.mp member ▸ .number known apart
    | true =>
      rcases List.mem_cons.mp member with rfl | last
      · exact .operator (by decide) apart
      · exact List.mem_singleton.mp last ▸ .number known false
  | string content => exact List.mem_singleton.mp member ▸ .string content.toList (by rw [String.toList_ofList]) apart
  | null => exact List.mem_singleton.mp member ▸ .keyword (by decide) apart
  | truth holds =>
    refine List.mem_singleton.mp member ▸ .keyword ?_ apart
    cases holds <;> decide

theorem phrasal_word {word : Word} (known : word.Known) (apart : Bool) :
    ∀ lexeme ∈ word.lexemes apart, lexeme.Phrasal := by
  intro lexeme member
  cases word with
  | keyword word => exact List.mem_singleton.mp member ▸ .keyword known apart
  | name name => exact List.mem_singleton.mp member ▸ .name known apart
  | literal literal => exact phrasal_literal known apart lexeme member

theorem phrasal_phrase {phrase : Phrase} (known : phrase.Known) (glued : Bool) :
    ∀ lexeme ∈ phrase.lexemes glued, lexeme.Phrasal := by
  induction phrase generalizing glued with
  | done => nofun
  | word word rest ih =>
    intro lexeme member
    exact (List.mem_append.mp member).elim (phrasal_word known.1 _ lexeme) (ih known.2.2 false lexeme)
  | operator symbol rest ih => exact List.forall_mem_cons.mpr ⟨.operator known.1 true, ih known.2.2 false⟩
  | comma rest ih => exact List.forall_mem_cons.mpr ⟨.comma, ih known false⟩
  | group apart inner rest ihInner ihRest =>
    refine List.forall_mem_cons.mpr ⟨.opening apart, fun lexeme member => ?_⟩
    rcases List.mem_append.mp member with inside | later
    · exact ihInner known.1 true lexeme inside
    · exact List.forall_mem_cons.mpr ⟨.closing, ihRest known.2 false⟩ lexeme later

theorem phrasal_or_called {phrase : Phrase} (known : phrase.KnownCalls) (glued : Bool) :
    ∀ lexeme ∈ phrase.lexemes glued, lexeme.Phrasal ∨ lexeme.Called := by
  induction phrase generalizing glued with
  | done => nofun
  | word word rest ih =>
    intro lexeme member
    rcases List.mem_append.mp member with here | later
    · rcases known.1 with known | ⟨name, rfl, called, -⟩
      · exact .inl (phrasal_word known _ lexeme here)
      · exact .inr ⟨name, _, List.mem_singleton.mp here, called⟩
    · exact ih known.2.2 false lexeme later
  | operator symbol rest ih => exact List.forall_mem_cons.mpr ⟨.inl (.operator known.1 true), ih known.2.2 false⟩
  | comma rest ih => exact List.forall_mem_cons.mpr ⟨.inl .comma, ih known false⟩
  | group apart inner rest ihInner ihRest =>
    refine List.forall_mem_cons.mpr ⟨.inl (.opening apart), fun lexeme member => ?_⟩
    rcases List.mem_append.mp member with inside | later
    · exact ihInner known.1 true lexeme inside
    · exact List.forall_mem_cons.mpr ⟨.inl .closing, ihRest known.2 false⟩ lexeme later

variable {lexeme : Lexeme} (phrasal : lexeme.Phrasal)
include phrasal

theorem plain_of_phrasal : lexeme.Plain := by
  cases phrasal with
  | keyword known apart =>
    obtain ⟨spelled, same, -, reserved, -⟩ := keyword_facts _ known
    exact plain_keyword spelled (same.symm ▸ reserved) apart
  | name known apart => exact .word known.spelled (by simp [known.free])
  | number spelled apart => exact .number spelled rfl
  | string content quoted apart => exact .string content quoted
  | operator known apart =>
    simp only [Phrase.operators, List.mem_cons, List.not_mem_nil, or_false] at known
    rcases known with rfl | rfl | rfl | rfl | known
    · exact .operator (by decide)
    · exact .operator (by decide)
    · exact .operator (by decide)
    · exact .operator (by decide)
    · exact .comparison (by simpa using known)
  | comma => exact .mark (.inr (.inr rfl))
  | opening apart => exact .mark (.inl rfl)
  | closing => exact .mark (.inr (.inl rfl))

theorem noDot_of_phrasal : lexeme.kind ≠ .dot := by
  cases phrasal with
  | @number digits spelled apart => rcases ofNumeral_cases digits apart with same | same <;> simp [same]
  | _ => exact nofun

omit phrasal in
theorem plain_of_called (called : lexeme.Called) : lexeme.uncalled.Plain := by
  obtain ⟨name, apart, rfl, called⟩ := called
  have keyword : uncalled (ofName name apart) = ofKeyword name apart := if_pos called.function
  rw [keyword]
  exact plain_keyword called.spelled (isReserved_of_isFunctionLike called.function) apart

/-- No other lexeme is spelled like a keyword. -/
theorem unread_of_phrasal (noKeyword : lexeme.isKeyword = false) : Keyword.isReserved lexeme.normalized = false := by
  cases phrasal with
  | keyword => cases noKeyword
  | name known => exact known.unread
  | @number digits spelled apart =>
    have value : (ofNumeral digits apart).normalized = digits := by
      rcases ofNumeral_cases digits apart with same | same <;> rw [same] <;> rfl
    simp only [isNumeral, Bool.and_eq_true] at spelled
    cases letters : digits.toList with
    | nil => rw [letters] at spelled; cases spelled.1
    | cons c rest =>
      rw [letters] at spelled
      rw [value]
      exact unreserved_of_first letters (.inl spelled.1)
  | @string value content quoted apart =>
    have letters : value.toList = singleQuote :: (double singleQuote content ++ [singleQuote]) := by rw [quoted]; rfl
    exact unreserved_of_first letters (.inr rfl)
  | operator known apart =>
    have symbols : ∀ symbol ∈ Phrase.operators, Keyword.isReserved symbol = false := by decide
    exact symbols _ known
  | comma | opening | closing => rfl

omit phrasal in
/-- A keyword that is called begins no query, also without the blanks in it. -/
theorem queryless_of_called (called : lexeme.Called) : lexeme.normalized ≠ "WITH" ∧ lexeme.normalized ≠ "SELECT" := by
  obtain ⟨name, apart, rfl, -, function⟩ := called
  have within : (Keyword.normalForm name).toList.Sublist (upper name).toList := by
    rw [Keyword.normalForm, upper, String.toList_ofList, String.toList_ofList]
    exact List.filter_sublist.flatMap _
  have words : ∀ word ∈ ["REPLACE", "LEFT", "RIGHT", "IF", "INSERT", "MOD"],
      ¬"WITH".toList.Sublist word.toList ∧ ¬"SELECT".toList.Sublist word.toList := by decide
  obtain ⟨noWith, noSelect⟩ := words (upper name) (List.contains_iff_mem.mp function)
  have normal : (ofName name apart).normalized = Keyword.normalForm name := rfl
  rw [normal]
  exact ⟨fun same => noWith (same ▸ within), fun same => noSelect (same ▸ within)⟩

theorem endless_of_phrasal : lexeme.isWord "JOIN" = false ∧ lexeme.isWord "BY" = false := by
  cases phrasal with
  | keyword known apart =>
    obtain ⟨-, -, -, -, noJoin, noBy⟩ := keyword_facts _ known
    exact ⟨by rw [isWord]; exact noJoin, by rw [isWord]; exact noBy⟩
  | @number digits spelled apart => rcases ofNumeral_cases digits apart with same | same <;>
    rw [same] <;> exact ⟨rfl, rfl⟩
  | _ => exact ⟨rfl, rfl⟩

end Lexemes

section Texts

theorem leads_name {name : String} (spelled : isIdentifier name.toList = true) {apart glued : Bool}
    (near : (glued || apart) = true) : Leads glued (ofName name apart) := by
  have bare {mark : String} (odd : isIdentifier mark.toList = false) : name ≠ mark := by
    rintro rfl
    rw [spelled] at odd
    cases odd
  exact ⟨(Bool.or_false _).trans near, nofun, nofun, bare (by decide), bare (by decide)⟩

theorem leads_of_phrasal {lexeme : Lexeme} (phrasal : lexeme.Phrasal) {glued : Bool}
    (apart : (glued || lexeme.spaceBefore || lexeme.kind == .punctuation) = true) (noOpening : lexeme.value ≠ "(") :
    Leads glued lexeme := by
  have spelled {text other : String} (spelled : isIdentifier text.toList = true)
      (odd : isIdentifier other.toList = false) :
      text ≠ other := by
    rintro rfl
    rw [spelled] at odd
    cases odd
  have numeral {text other : String} (spelled : isNumeral text.toList = true) (odd : isNumeral other.toList = false) :
      text ≠ other := by
    rintro rfl
    rw [spelled] at odd
    cases odd
  cases phrasal with
  | keyword known => exact ⟨apart, nofun, nofun, noOpening, spelled (keyword_facts _ known).1 (by decide)⟩
  | name known => exact ⟨apart, nofun, nofun, noOpening, spelled known.spelled (by decide)⟩
  | @number digits known apart' =>
    refine ⟨apart, ?_, ?_, noOpening, numeral known (by decide)⟩ <;>
      rcases ofNumeral_cases digits apart' with same | same <;> simp [same]
  | string content quoted =>
    refine ⟨apart, nofun, nofun, noOpening, ?_⟩
    rintro rfl
    cases quoted
  | operator known =>
    have symbols : ∀ symbol ∈ Phrase.operators, symbol ≠ "*" := by decide
    exact ⟨apart, nofun, nofun, noOpening, symbols _ known⟩
  | comma => exact ⟨apart, nofun, nofun, noOpening, by decide⟩
  | opening => exact absurd rfl noOpening
  | closing => exact ⟨apart, nofun, nofun, noOpening, by decide⟩

/-- What leads is read after a lexeme that it stands apart from, or after a parenthesis that opens. -/
theorem near_last {last head : Lexeme} {apart : Bool} (noDot : last.kind ≠ .dot)
    (opened : apart = false → ∃ space, last = ⟨.punctuation, "(", none, space⟩) (space : head.spaceBefore = apart)
    (leads : Leads (!apart) head) : Near last head := by
  cases apart with
  | true => exact near_space_after noDot space leads
  | false =>
    obtain ⟨space, rfl⟩ := opened rfl
    exact near_after_opening leads

theorem chain_name {name : String} (spelled : isIdentifier name.toList = true) {apart : Bool}
    {last : Lexeme} {after : List Lexeme}
    (noDot : last.kind ≠ .dot) (opened : apart = false → ∃ space, last = ⟨.punctuation, "(", none, space⟩)
    (continues : (ofName name apart :: after).IsChain Near) : (last :: ofName name apart :: after).IsChain Near :=
  List.isChain_cons_cons.mpr ⟨near_last noDot opened rfl (leads_name spelled (by cases apart <;> rfl)), continues⟩

private theorem chain_word {word : Word} (known : word.Known) {apart : Bool} {last : Lexeme}
    {after : List Lexeme} (noDot : last.kind ≠ .dot)
    (opened : apart = false → ∃ space, last = ⟨.punctuation, "(", none, space⟩)
    (continues : ∀ final, Ends final → (final.isCallable = true → word.isCallable = true) →
      (final :: after).IsChain Near) :
    (last :: (word.lexemes apart ++ after)).IsChain Near := by
  have near {head : Lexeme} (phrasal : head.Phrasal) (space : head.spaceBefore = apart)
      (noOpening : head.value ≠ "(") : Near last head :=
    near_last noDot opened space (leads_of_phrasal phrasal (by rw [space]; cases apart <;> rfl) noOpening)
  have single {head : Lexeme} (phrasal : head.Phrasal) (space : head.spaceBefore = apart)
      (noOpening : head.value ≠ "(") (ends : Ends head)
      (call : head.isCallable = true → word.isCallable = true) : (last :: ([head] ++ after)).IsChain Near :=
    List.isChain_cons_cons.mpr ⟨near phrasal space noOpening, continues head ends call⟩
  have bare {text : String} (spelled : isIdentifier text.toList = true) : text ≠ "(" := by
    rintro rfl
    cases spelled
  have ofWord {text : String} (known : text ∈ Word.keywords)
      (call : Keyword.isFunctionLike text = true → word.isCallable = true) :
      (last :: ([ofKeyword text apart] ++ after)).IsChain Near := by
    obtain ⟨spelled, same, -⟩ := keyword_facts _ known
    refine single (.keyword known apart) rfl (bare spelled) ⟨nofun, nofun⟩ fun callable => call ?_
    rw [isCallable, Bool.and_eq_true] at callable
    rw [← same]
    exact callable.2
  cases word with
  | keyword text => exact ofWord known id
  | name text => exact chain_name known.spelled noDot opened (continues _ ⟨nofun, nofun⟩ nofun)
  | literal value =>
    cases value with
    | number negative digits =>
      have odd : digits ≠ "(" := by
        rintro rfl
        cases known
      have ends (apart : Bool) : Ends (ofNumeral digits apart) := by
        rcases ofNumeral_cases digits apart with same | same <;> rw [same] <;> exact ⟨nofun, nofun⟩
      have noCall (apart : Bool) (callable : (ofNumeral digits apart).isCallable = true) :
          Word.isCallable (.literal (.number negative digits)) = true := by
        rcases ofNumeral_cases digits apart with same | same <;> rw [same] at callable <;> cases callable
      cases negative with
      | false => exact single (.number known apart) rfl odd (ends apart) (noCall apart)
      | true =>
        have sign : Near ⟨.operator, "-", none, apart⟩ (ofNumeral digits false) := by
          rcases ofNumeral_cases digits false with same | same <;> rw [same] <;> exact ⟨rfl, rfl⟩
        exact List.isChain_cons_cons.mpr ⟨near (.operator (by decide) apart) rfl (show "-" ≠ "(" by decide),
          List.isChain_cons_cons.mpr ⟨sign, continues _ (ends false) (noCall false)⟩⟩
    | string content =>
      refine single (.string content.toList (String.toList_ofList ..) apart) rfl (fun same => ?_) ⟨nofun, nofun⟩ nofun
      have letters := congrArg String.toList same
      rw [String.toList_ofList] at letters
      cases letters
    | null => exact ofWord (by decide) nofun
    | truth holds =>
      cases holds
      · exact ofWord (show "FALSE" ∈ Word.keywords by decide) nofun
      · exact ofWord (show "TRUE" ∈ Word.keywords by decide) nofun

/-- A phrase is read after what it may stand after. -/
theorem chain_phrase {phrase : Phrase} (known : phrase.KnownCalls) {glued : Bool} {last : Lexeme}
    {after : List Lexeme} (noDot : last.kind ≠ .dot)
    (operand : phrase.beginsOperand = false → last.kind ≠ .operator)
    (noCall : phrase.beginsGroup = true → last.isCallable = false)
    (opened : glued = true → ∃ space, last = ⟨.punctuation, "(", none, space⟩)
    (continues : ∀ final, Ends final → (final :: after).IsChain Near) :
    (last :: (phrase.lexemes glued ++ after)).IsChain Near := by
  induction phrase generalizing glued last after with
  | done => exact continues last ⟨noDot, operand rfl⟩
  | word word rest ih =>
    obtain ⟨knownWord, barred, knownRest⟩ := known
    have opened (same : (!glued) = false) := opened (by simpa using same)
    rw [Phrase.lexemes, List.append_assoc]
    rcases knownWord with knownWord | ⟨name, rfl, called, -⟩
    · refine chain_word knownWord noDot opened fun final ends call => ?_
      refine ih knownRest ends.noDot (fun _ => ends.noOperator) (fun group => ?_) nofun continues
      rw [Bool.eq_false_iff]
      intro callable
      cases (barred (call callable)).symm.trans group
    · exact chain_name called.spelled noDot opened (ih knownRest nofun nofun (fun _ => rfl) nofun continues)
  | operator symbol rest ih =>
    obtain ⟨symbols, follows, knownRest⟩ := known
    have phrasal : Lexeme.Phrasal ⟨.operator, symbol, none, true⟩ := .operator symbols true
    have bare : ∀ symbol ∈ Phrase.operators, symbol ≠ "(" := by decide
    exact List.isChain_cons_cons.mpr ⟨near_space_after noDot rfl (leads_of_phrasal phrasal rfl (bare symbol symbols)),
      ih knownRest nofun (fun none => absurd (follows.symm.trans none) (by decide)) (fun _ => rfl) nofun continues⟩
  | comma rest ih =>
    exact List.isChain_cons_cons.mpr ⟨near_of_leads ⟨noDot, operand rfl⟩ (leads_of_phrasal .comma rfl (by decide)),
      ih known nofun nofun (fun _ => rfl) nofun continues⟩
  | group apart inner rest ihInner ihRest =>
    have near : Near last ⟨.punctuation, "(", none, apart⟩ := by
      cases apart with
      | false => exact near_opening ⟨noDot, operand rfl⟩ (noCall rfl)
      | true => exact near_opening_apart (noCall rfl)
    rw [Phrase.lexemes, List.cons_append, List.append_assoc]
    refine List.isChain_cons_cons.mpr ⟨near,
      ihInner known.1 nofun nofun (fun _ => rfl) (fun _ => ⟨apart, rfl⟩) fun final ends => ?_⟩
    exact List.isChain_cons_cons.mpr ⟨near_closing ends, ihRest known.2 nofun nofun (fun _ => rfl) nofun continues⟩

/-- Only what is called in front of a parenthesis is. -/
theorem calls_phrase {phrase : Phrase} (known : phrase.KnownCalls) (glued : Bool) (after : List Lexeme) :
    calls (phrase.lexemes glued ++ after) = calls after := by
  induction phrase generalizing glued after with
  | done => rfl
  | operator symbol rest ih => exact ih known.2.2 false after
  | comma rest ih => exact ih known false after
  | word word rest ih =>
    rw [Phrase.lexemes, List.append_assoc]
    rcases known.1 with knownWord | ⟨name, rfl, -, group⟩
    · have uncalled (lexeme : Lexeme) (member : lexeme ∈ word.lexemes (!glued)) :=
        (plain_of_phrasal (phrasal_word knownWord _ lexeme member)).isCalled
      rw [calls_append uncalled, ih known.2.2 false after]
    · have opens : (rest.lexemes false ++ after).head?.any (·.isPunctuation "(") = true := by
        cases rest with
        | group => rfl
        | _ => cases group
      change calls (ofName name (!glued) :: (rest.lexemes false ++ after)) = _
      rw [calls, opens, Bool.or_true, Bool.true_and, ih known.2.2 false after]
  | group apart inner rest ihInner ihRest =>
    have inside := ihInner known.1 true (closing :: (rest.lexemes false ++ after))
    rw [Phrase.lexemes, List.cons_append, List.append_assoc]
    exact inside.trans (ihRest known.2 false after)

variable {first : String} {rest : Phrase} (known : (Phrase.word (.keyword first) rest).KnownCalls)
include known

/-- A statement begins with a keyword. -/
theorem readable_phrase : Readable ((Phrase.word (.keyword first) rest).lexemes false) where
  plain lexeme member := by
    rcases phrasal_or_called known false lexeme member with phrasal | called
    · rw [uncalled_of_plain (plain_of_phrasal phrasal)]
      exact plain_of_phrasal phrasal
    · exact plain_of_called called
  calls := by
    have none := calls_phrase known false []
    rwa [List.append_nil] at none
  near := by
    have call (callable : rest.beginsGroup = true) : (ofKeyword first true).isCallable = false := by
      rw [Bool.eq_false_iff]
      intro function
      rw [isCallable, Bool.and_eq_true] at function
      obtain ⟨-, same, -⟩ := keyword_facts _ (known.1.resolve_right nofun)
      have word : Keyword.isFunctionLike first = true := by
        rw [← same]
        exact function.2
      cases (known.2.1 word).symm.trans callable
    have chain : (ofKeyword first true :: (rest.lexemes false ++ [])).IsChain Near :=
      chain_phrase known.2.2 nofun nofun call nofun fun final _ => List.isChain_singleton final
    rwa [List.append_nil] at chain
  first lexeme found := by
    cases found
    exact ⟨rfl, nofun⟩

end Texts

section Parentheses

theorem flat_word (word : Word) (apart : Bool) : ∀ lexeme ∈ word.lexemes apart, lexeme.side? = none := by
  intro lexeme member
  cases word with
  | keyword | name => exact List.mem_singleton.mp member ▸ rfl
  | literal value =>
    rcases literal_lexemes value apart lexeme member with kind | ⟨word, -, rfl⟩
    · exact side?_of_kind fun same => absurd (same ▸ kind) (by decide)
    · rfl

theorem shallow_phrase (phrase : Phrase) (glued : Bool) : Shallow (sides (phrase.lexemes glued)) phrase.depth := by
  have single (lexeme : Lexeme) (side : lexeme.side? = none) (bound : Nat) : Shallow (sides [lexeme]) bound :=
    shallow_level (by simpa using side) bound
  induction phrase generalizing glued with
  | done => exact @shallow_level [] nofun _
  | word word rest ih =>
    rw [Phrase.lexemes, sides_append]
    exact (shallow_level (flat_word word _) _).append (ih false)
  | operator symbol rest ih => exact (single ⟨.operator, symbol, none, true⟩ rfl _).append (ih false)
  | comma rest ih => exact (single comma rfl _).append (ih false)
  | group apart inner rest ihInner ihRest =>
    have inside := (ihInner true).wrap.mono (Nat.le_max_left (inner.depth + 1) rest.depth)
    have later := (ihRest false).mono (Nat.le_max_right (inner.depth + 1) rest.depth)
    have spelled : sides (Phrase.lexemes glued (.group apart inner rest)) =
        some .opening :: (sides (inner.lexemes true) ++ [some .closing]) ++ sides (rest.lexemes false) := by
      rw [Phrase.lexemes, sides, List.map_cons, List.map_append, List.map_cons, List.cons_append, List.append_assoc]
      rfl
    rw [spelled]
    exact inside.append later

end Parentheses

end QueryFacts.Proofs.Phrases
