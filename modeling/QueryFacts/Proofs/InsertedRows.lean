import QueryFacts.Proofs.JoinKeywords
import QueryFacts.Proofs.LiteralRowReading

/-! Statements that insert rows of literals. The names and marks in front of VALUES make neither names of
keywords nor values, and the rows that follow give theirs one after the other, whatever the text looks like. -/

namespace QueryFacts
open Lexer

/-- The lexemes of a statement that inserts rows, part by part. -/
structure RowLexemes where
  verb : Lexeme
  into : Lexeme
  qualifiers : List Lexeme
  table : Lexeme
  listed : List Lexeme
  values : Lexeme
  body : List Lexeme

namespace RowLexemes

/-- What comes before VALUES. -/
def head (parts : RowLexemes) : List Lexeme :=
  parts.verb :: parts.into :: (parts.qualifiers ++ parts.table :: parts.listed)

def all (parts : RowLexemes) : List Lexeme := parts.head ++ parts.values :: parts.body

structure Spells (parts : RowLexemes) (rows : LiteralRows) : Prop where
  verb : parts.verb.item = keyword rows.verb
  into : parts.into.item = keyword rows.into
  qualifiers : parts.qualifiers.map Lexeme.item = rows.qualifiers.flatMap fun name =>
    [name.item, .lexical .dot ['.'] none]
  table : parts.table.item = rows.table.item
  listed : parts.listed.map Lexeme.item = rows.listed
  values : parts.values.item = keyword rows.values
  body : parts.body.map Lexeme.item = rows.body

end RowLexemes

namespace Context

/-- No sub-query is open, and none opens if a parenthesis comes now. -/
structure Unqueried (context : Context) : Prop where
  opened : ∀ frame ∈ context.opened, frame.kind ≠ .subquery
  last : ∀ last ∈ context.last, (last.isKeyword && Keyword.precedesSubquery last.normalized) = false

variable {context : Context}

theorem Unqueried.step (unqueried : context.Unqueried) {lexeme : Lexeme}
    (other : (lexeme.isKeyword && Keyword.precedesSubquery lexeme.normalized) = false) :
    (context.step lexeme).Unqueried := by
  have kind := parenKind_ne_subquery unqueried.last
  have last : ∀ last ∈ some lexeme, (last.isKeyword && Keyword.precedesSubquery last.normalized) = false :=
    fun last same =>
    Option.some.inj same ▸ other
  obtain ⟨opened, -⟩ := unqueried
  unfold Context.step
  split
  · exact ⟨List.forall_mem_cons.mpr ⟨kind, opened⟩, last⟩
  · split
    · exact ⟨opened, last⟩
    next frame outer frames =>
      rw [frames] at opened
      exact ⟨(List.forall_mem_cons.mp opened).2, last⟩
  · split <;> exact ⟨opened, last⟩

theorem Unqueried.after (unqueried : context.Unqueried) {part : List Lexeme}
    (other : ∀ lexeme ∈ part, (lexeme.isKeyword && Keyword.precedesSubquery lexeme.normalized) = false) :
    (context.after part).Unqueried := by
  induction part generalizing context with
  | nil => exact unqueried
  | cons lexeme part ih =>
    obtain ⟨here, others⟩ := List.forall_mem_cons.mp other
    exact ih (unqueried.step here) others

end Context

end QueryFacts

namespace QueryFacts.Proofs.InsertedRows
open Text Lexer Lexeme NestingRun WrittenIdentifier Clauses Spots ValueSpots SpelledLiterals LiteralRowReading Unnested

section Neighbours

/-- None of two neighbours makes a name of the other. -/
def Beside (last next : Lexeme) : Prop :=
  (last.isKeyword = true → next.kind ≠ .dot ∧
    (next.isPunctuation "(" = true → Keyword.isFunctionLike (Text.upper last.value) = false)) ∧
    (next.isKeyword = true → last.kind ≠ .dot)

variable {lexemes : List Lexeme}

/-- Without stars and with such neighbours, the lexemes are what they seem to be. -/
theorem reclassifyAll_beside (beside : lexemes.IsChain Beside)
    (starless : ∀ lexeme ∈ lexemes, lexeme.kind ≠ .wildcard) :
    reclassifyAll lexemes = lexemes := by
  have general (before : Option Lexeme) (fits : ∀ last ∈ before, ∀ next ∈ lexemes.head?, Beside last next) :
      reclassifyFrom before lexemes = lexemes := by
    induction lexemes generalizing before with
    | nil => rfl
    | cons lexeme rest ih =>
      obtain ⟨after, chain⟩ := List.isChain_cons.mp beside
      obtain ⟨here, others⟩ := List.forall_mem_cons.mp starless
      have told : reclassify before lexeme rest.head? = lexeme := by
        unfold reclassify
        split
        next kind =>
          have keyword : lexeme.isKeyword = true := by rw [isKeyword, kind]; rfl
          have left : before.any (·.kind == .dot) = false := by
            rw [Option.any_eq_false]
            exact fun last found => by simpa using (fits last found lexeme rfl).2 keyword
          have right : rest.head?.any (·.kind == .dot) = false := by
            rw [Option.any_eq_false]
            exact fun next found => by simpa using ((after next found).1 keyword).1
          have uncalled :
              (rest.head?.any (·.isPunctuation "(") && Keyword.isFunctionLike (Text.upper lexeme.value)) = false := by
            cases found : rest.head? with
            | none => rfl
            | some next =>
              rw [Option.any_some]
              cases opens : next.isPunctuation "(" with
              | false => rfl
              | true => rw [((after next found).1 keyword).2 opens, Bool.and_false]
          simp only [left, right, uncalled, Bool.or_false, Bool.false_eq_true, if_false]
        next star => exact absurd star here
        next => rfl
      rw [reclassifyFrom, told, ih chain others (some lexeme) fun last same => Option.some.inj same ▸ after]
  exact general none fun _ missing => absurd missing (Option.not_mem_none _)

end Neighbours

section Lexemes

variable {rows : LiteralRows} {parts : RowLexemes} {lexeme : Lexeme}

theorem known_row (known : rows.Known) : ∀ row ∈ rows.first :: rows.more, ∀ literal ∈ row.literals, literal.Known :=
  fun row among literal listed => known.literals literal (List.mem_flatMap.mpr ⟨row, among, listed⟩)

theorem exists_spells {lexemes : List Lexeme} (read : lexemes.map Lexeme.item = rows.items) :
    ∃ parts : RowLexemes, lexemes = parts.all ∧ parts.Spells rows := by
  obtain ⟨verb, second, rfl, isVerb, fromInto⟩ := List.map_eq_cons_iff.mp read
  obtain ⟨into, third, rfl, isInto, fromTarget⟩ := List.map_eq_cons_iff.mp fromInto
  obtain ⟨target, fourth, rfl, isTarget, fromList⟩ := List.map_eq_append_iff.mp fromTarget
  obtain ⟨qualifiers, last, rfl, qualified, isLast⟩ := List.map_eq_append_iff.mp isTarget
  obtain ⟨table, rfl, isTable⟩ := List.map_eq_singleton_iff.mp isLast
  obtain ⟨listed, fifth, rfl, isList, fromValues⟩ := List.map_eq_append_iff.mp fromList
  obtain ⟨values, body, rfl, isValues, isBody⟩ := List.map_eq_cons_iff.mp fromValues
  exact ⟨⟨verb, into, qualifiers, table, listed, values, body⟩, by simp [RowLexemes.all, RowLexemes.head],
    isVerb, isInto, qualified, isTable, isList, isValues, isBody⟩

/-- What all lexemes of such a statement have in common. -/
structure Ordinary (lexeme : Lexeme) : Prop where
  starless : lexeme.kind ≠ .wildcard
  unended : lexeme.isPunctuation ";" = false
  within : lexeme.KeywordsIn LiteralRows.words

/-- A parenthesis or a comma. -/
def IsBorder (lexeme : Lexeme) : Prop := ∃ text ∈ ["(", ")", ","], lexeme.isPunctuation text = true

theorem unkeyed_of_kind {kind : TokenKind} (same : lexeme.kind = kind) (other : kind ≠ .keyword) :
    lexeme.isKeyword = false := by
  rw [isKeyword, same, beq_eq_false_iff_ne]
  exact other

theorem ordinary_of_kind {kind : TokenKind} (same : lexeme.kind = kind)
    (other : kind ∉ [TokenKind.keyword, .wildcard, .punctuation]) :
    Ordinary lexeme := by
  simp only [List.mem_cons, List.not_mem_nil, or_false, not_or] at other
  refine ⟨same ▸ other.2.1, ?_, fun keyword => ?_⟩
  · rw [isPunctuation, same, beq_eq_false_iff_ne.mpr other.2.2, Bool.false_and]
  · cases (unkeyed_of_kind same other.1).symm.trans keyword

theorem kind_of_border (border : IsBorder lexeme) : lexeme.kind = .punctuation := by
  obtain ⟨text, -, mark⟩ := border
  rw [isPunctuation, Bool.and_eq_true, beq_iff_eq] at mark
  exact mark.1

theorem ordinary_border (border : IsBorder lexeme) : Ordinary lexeme := by
  have others : ∀ text ∈ ["(", ")", ","], text ≠ ";" := by decide
  have kind := kind_of_border border
  obtain ⟨text, known, mark⟩ := border
  rw [isPunctuation, Bool.and_eq_true, beq_iff_eq, beq_iff_eq] at mark
  refine ⟨by rw [kind]; decide, ?_, fun keyword => ?_⟩
  · rw [isPunctuation, mark.2, beq_eq_false_iff_ne.mpr (others text known), Bool.and_false]
  · cases (unkeyed_of_kind kind (by decide)).symm.trans keyword

theorem ordinary_keyword {word : String} {letters : List Char} (known : word ∈ LiteralRows.words)
    (spelled : IsSpelling word letters)
    (same : lexeme.item = keyword letters) : Ordinary lexeme := by
  obtain ⟨apart, rfl⟩ := exists_of_item same
  exact ⟨nofun, rfl, fun _ => ⟨word, known, rfl, by rwa [String.toList_ofList]⟩⟩

section Parts

variable (spells : parts.Spells rows)
include spells

theorem kind_qualifiers : ∀ lexeme ∈ parts.qualifiers, lexeme.kind = .name ∨ lexeme.kind = .dot := by
  intro lexeme member
  have item : lexeme.item ∈ parts.qualifiers.map Lexeme.item := List.mem_map_of_mem member
  rw [spells.qualifiers] at item
  obtain ⟨name, -, here⟩ := List.mem_flatMap.mp item
  rcases List.mem_cons.mp here with same | dot
  · obtain ⟨apart, rfl⟩ := exists_of_item same
    exact .inl rfl
  · obtain ⟨apart, rfl⟩ := exists_of_item (List.mem_singleton.mp dot)
    exact .inr rfl

theorem kind_table : parts.table.kind = .name := by
  obtain ⟨apart, same⟩ := exists_of_item spells.table
  rw [same]

theorem kind_listed : ∀ lexeme ∈ parts.listed, lexeme.kind = .name ∨ IsBorder lexeme := by
  intro lexeme member
  have item : lexeme.item ∈ parts.listed.map Lexeme.item := List.mem_map_of_mem member
  rw [spells.listed] at item
  unfold LiteralRows.listed at item
  split at item
  · cases item
  next first more _ =>
    rcases List.mem_cons.mp item with opening | item
    · exact .inr ⟨"(", by decide, isPunctuation_of_item opening⟩
    rcases List.mem_append.mp item with inside | closing
    · rcases mem_joined inside with comma | ⟨name, -, same⟩
      · exact .inr ⟨",", by decide, isPunctuation_of_item comma⟩
      · obtain ⟨apart, rfl⟩ := exists_of_item (List.mem_singleton.mp same)
        exact .inl rfl
    · exact .inr ⟨")", by decide, isPunctuation_of_item (List.mem_singleton.mp closing)⟩

theorem cases_body :
    ∀ lexeme ∈ parts.body, IsBorder lexeme ∨ ∃ literal ∈ rows.literals, lexeme.item ∈ literal.items := by
  intro lexeme member
  have item : lexeme.item ∈ parts.body.map Lexeme.item := List.mem_map_of_mem member
  rw [spells.body] at item
  rcases mem_joined item with comma | ⟨row, among, item⟩
  · exact .inl ⟨",", by decide, isPunctuation_of_item comma⟩
  rcases List.mem_cons.mp item with opening | item
  · exact .inl ⟨"(", by decide, isPunctuation_of_item opening⟩
  rcases List.mem_append.mp item with inside | closing
  · rcases mem_joined inside with comma | ⟨literal, listed, same⟩
    · exact .inl ⟨",", by decide, isPunctuation_of_item comma⟩
    · exact .inr ⟨literal, List.mem_flatMap.mpr ⟨row, among, listed⟩, same⟩
  · exact .inl ⟨")", by decide, isPunctuation_of_item (List.mem_singleton.mp closing)⟩

/-- Names and marks are all that stands between INTO and VALUES. -/
theorem unkeyed_target : ∀ lexeme ∈ parts.qualifiers ++ parts.table :: parts.listed, lexeme.isKeyword = false := by
  intro lexeme member
  rcases List.mem_append.mp member with qualifier | member
  · rcases kind_qualifiers spells lexeme qualifier with kind | kind <;> exact unkeyed_of_kind kind (by decide)
  rcases List.mem_cons.mp member with rfl | listed
  · exact unkeyed_of_kind (kind_table spells) (by decide)
  · rcases kind_listed spells lexeme listed with kind | border
    · exact unkeyed_of_kind kind (by decide)
    · exact unkeyed_of_kind (kind_of_border border) (by decide)

variable (known : rows.Known)
include known

theorem ordinary_all : ∀ lexeme ∈ parts.all, Ordinary lexeme := by
  intro lexeme member
  rcases List.mem_append.mp member with head | tail
  · rcases List.mem_cons.mp head with rfl | head
    · rcases known.verb with spelled | spelled <;> exact ordinary_keyword (by decide) spelled spells.verb
    rcases List.mem_cons.mp head with rfl | head
    · exact ordinary_keyword (by decide) known.into spells.into
    rcases List.mem_append.mp head with qualifier | head
    · rcases kind_qualifiers spells lexeme qualifier with kind | kind <;> exact ordinary_of_kind kind (by decide)
    rcases List.mem_cons.mp head with rfl | listed
    · exact ordinary_of_kind (kind_table spells) (by decide)
    · exact (kind_listed spells lexeme listed).elim (fun kind => ordinary_of_kind kind (by decide)) ordinary_border
  · rcases List.mem_cons.mp tail with rfl | body
    · exact ordinary_keyword (by decide) known.values spells.values
    rcases cases_body spells lexeme body with border | ⟨literal, among, item⟩
    · exact ordinary_border border
    · obtain ⟨kind, within⟩ := kind_of_literal (known.literals literal among) item
      refine ⟨fun star => ?_, ?_, fun keyword => ?_⟩
      · rw [star] at kind
        exact absurd kind (by decide)
      · rw [Bool.eq_false_iff, isPunctuation]
        intro mark
        rw [Bool.and_eq_true, beq_iff_eq] at mark
        rw [mark.1] at kind
        exact absurd kind (by decide)
      · obtain ⟨word, listed, spelled⟩ := within keyword
        exact ⟨word, List.mem_append_right _ listed, spelled⟩

theorem keyword_all (sought : String → Bool) (others : ∀ word ∈ LiteralRows.words, sought word = false) :
    ∀ lexeme ∈ parts.all, (lexeme.isKeyword && sought lexeme.normalized) = false := by
  intro lexeme member
  cases keyword : lexeme.isKeyword with
  | false => rfl
  | true =>
    obtain ⟨word, listed, same, -⟩ :=
      word_of_within letters_words (ordinary_all spells known lexeme member).within keyword
    rw [same, others word listed, Bool.and_false]

/-- No keyword of the rows is a name in front of a parenthesis, and there are no dots to make it one. -/
theorem uncalled_values : ∀ lexeme ∈ parts.values :: parts.body, lexeme.kind ≠ .dot ∧
    (lexeme.isKeyword = true → Keyword.isFunctionLike (Text.upper lexeme.value) = false) := by
  have words : ∀ word ∈ "VALUES" :: SpelledLiteral.words,
      Keyword.isFunctionLike word = false ∧ word.toList.all (·.isUpper) = true := by decide
  have uncalled {lexeme : Lexeme} (within : lexeme.KeywordsIn ("VALUES" :: SpelledLiteral.words))
      (keyword : lexeme.isKeyword = true) :
      Keyword.isFunctionLike (Text.upper lexeme.value) = false := by
    obtain ⟨word, listed, -, upper, -⟩ := word_of_within (fun word listed => (words word listed).2) within keyword
    exact upper ▸ (words word listed).1
  intro lexeme member
  rcases List.mem_cons.mp member with rfl | body
  · obtain ⟨apart, same⟩ := exists_of_item spells.values
    rw [same]
    exact ⟨nofun, uncalled fun _ =>
      ⟨"VALUES", List.mem_cons_self, rfl, by rw [String.toList_ofList]; exact known.values⟩⟩
  rcases cases_body spells lexeme body with border | ⟨literal, among, item⟩
  · have kind := kind_of_border border
    exact ⟨by rw [kind]; decide, fun keyword =>
      absurd ((unkeyed_of_kind kind (by decide)).symm.trans keyword) Bool.false_ne_true⟩
  · obtain ⟨kind, within⟩ := kind_of_literal (known.literals literal among) item
    refine ⟨fun dot => ?_, uncalled fun keyword => ?_⟩
    · rw [dot] at kind
      exact absurd kind (by decide)
    · obtain ⟨word, listed, spelled⟩ := within keyword
      exact ⟨word, List.mem_cons_of_mem _ listed, spelled⟩

omit known in
/-- INTO comes before a name. -/
theorem kind_first : ∀ next ∈ (parts.qualifiers ++ parts.table :: parts.listed).head?, next.kind = .name := by
  intro next found
  have qualified := spells.qualifiers
  cases named : parts.qualifiers with
  | nil =>
    rw [named] at found
    exact Option.some.inj found ▸ kind_table spells
  | cons qualifier others =>
    rw [named] at found qualified
    obtain rfl : qualifier = next := Option.some.inj found
    cases names : rows.qualifiers with
    | nil => rw [names] at qualified; cases qualified
    | cons name more =>
      rw [names] at qualified
      obtain ⟨apart, rfl⟩ := exists_of_item (List.cons.inj qualified).1
      rfl

omit known in
/-- VALUES comes after a name or a parenthesis. -/
theorem kind_last : ∀ last ∈ parts.head.getLast?, last.isKeyword = false ∧ last.kind ≠ .dot := by
  intro last found
  have split : parts.head = (parts.verb :: parts.into :: parts.qualifiers) ++ parts.table :: parts.listed := rfl
  rw [split, List.getLast?_append_cons] at found
  have member := List.mem_of_getLast? found
  refine ⟨unkeyed_target spells last (List.mem_append_right _ member), ?_⟩
  rcases List.mem_cons.mp member with rfl | listed
  · rw [kind_table spells]
    decide
  · rcases kind_listed spells last listed with kind | border
    · rw [kind]
      decide
    · rw [kind_of_border border]
      decide

theorem beside_all : parts.all.IsChain Beside := by
  have keyword {lexeme : Lexeme} {letters : List Char} (same : lexeme.item = Lexer.keyword letters) :
      lexeme.kind = .keyword := by
    obtain ⟨apart, rfl⟩ := exists_of_item same
    rfl
  have verb := keyword spells.verb
  have into := keyword spells.into
  have unkeyed := unkeyed_target spells
  have uncalled := uncalled_values spells known
  have target : (parts.qualifiers ++ parts.table :: parts.listed).IsChain Beside := by
    refine (List.pairwise_of_forall_mem_list fun last here next there => ⟨fun keyed => ?_, fun keyed => ?_⟩).isChain
    · cases (unkeyed last here).symm.trans keyed
    · cases (unkeyed next there).symm.trans keyed
  have rest : (parts.values :: parts.body).IsChain Beside :=
    (List.pairwise_of_forall_mem_list fun last here next there =>
      ⟨fun keyed => ⟨(uncalled next there).1, fun _ => (uncalled last here).2 keyed⟩, fun _ =>
        (uncalled last here).1⟩).isChain
  refine List.isChain_append.mpr ⟨List.isChain_cons.mpr ⟨?_, List.isChain_cons.mpr ⟨?_, target⟩⟩, rest, ?_⟩
  · intro next found
    obtain rfl : parts.into = next := Option.some.inj found
    exact ⟨fun _ => ⟨by rw [into]; decide, fun opens => by simp [isPunctuation, into] at opens⟩,
      fun _ => by rw [verb]; decide⟩
  · intro next found
    have kind := kind_first spells next found
    exact ⟨fun _ => ⟨by rw [kind]; decide, fun opens => by simp [isPunctuation, kind] at opens⟩,
      fun _ => by rw [into]; decide⟩
  · intro last found next same
    obtain ⟨unkeyed, undotted⟩ := kind_last spells last found
    exact ⟨fun keyed => absurd (unkeyed.symm.trans keyed) Bool.false_ne_true, fun _ => undotted⟩

/-- The keywords of the statement are no words of a compound. -/
theorem mergeCompounds_all : mergeCompounds parts.all = parts.all := by
  have words : ∀ word ∈ LiteralRows.words, word.toList ≠ "JOIN".toList ∧ word.toList ≠ "BY".toList := by decide
  refine JoinKeywords.mergeCompounds_endless fun lexeme member => ?_
  cases keyword : lexeme.isKeyword with
  | false => simp [isWord, keyword]
  | true =>
    obtain ⟨word, listed, -, -, spelled⟩ :=
      word_of_within letters_words (ordinary_all spells known lexeme member).within keyword
    have other := words word listed
    rw [← spelled] at other
    simp only [isWord, keyword, Bool.true_and, beq_eq_false_iff_ne]
    exact other

theorem ofText_all {text : List Char} {found : List Item} (read : Lexer.items text = .ok found)
    (whole : ofItems found = parts.all) :
    Lexeme.ofText text = .ok parts.all := by
  have ordinary := ordinary_all spells known
  have told := reclassifyAll_beside (beside_all spells known) fun lexeme member => (ordinary lexeme member).starless
  have ended : dropTerminators parts.all = parts.all := by
    refine WrittenBody.dropTerminators_eq ?_
    rw [Option.any_eq_false]
    exact fun last found => by simp [(ordinary last (List.mem_of_getLast? found)).unended]
  rw [Lexeme.ofText, read]
  simp only [Except.map, whole, told, mergeCompounds_all spells known, ended]

end Parts

end Lexemes

section Parentheses
open Selections (Shallow shallow_level sides_append)

variable {rows : LiteralRows} {parts : RowLexemes} (spells : parts.Spells rows)

theorem shallow_group {part : List Lexeme} {inner : List Item} (read : part.map Lexeme.item = group inner)
    (level : ∀ lexeme : Lexeme, lexeme.item ∈ inner → lexeme.side? = none) : Shallow (sides part) 1 := by
  obtain ⟨opening, body, closing, rfl, opens, inside, closes⟩ := exists_group read
  have flat : ∀ lexeme ∈ body, lexeme.side? = none :=
    fun lexeme member => level lexeme (inside ▸ List.mem_map_of_mem member)
  have whole : sides (opening :: (body ++ [closing])) = some .opening :: (sides body ++ [some .closing]) := by
    simp [sides, side?_eq_opening.mpr opens, side?_eq_closing.mpr closes]
  rw [whole]
  exact (shallow_level flat 0).wrap

theorem level_names {first : GivenName} {more : List GivenName} {lexeme : Lexeme}
    (item : lexeme.item ∈ joined (fun name => [name.item]) first more) : lexeme.side? = none := by
  rcases mem_joined item with comma | ⟨name, -, same⟩
  · exact (wordless_of_comma (isPunctuation_of_item comma)).1
  · obtain ⟨apart, rfl⟩ := exists_of_item (List.mem_singleton.mp same)
    exact side?_of_kind nofun

theorem shallow_listed (read : parts.listed.map Lexeme.item = rows.listed) : Shallow (sides parts.listed) 1 := by
  unfold LiteralRows.listed at read
  split at read
  · rw [List.map_eq_nil_iff.mp read]
    exact @shallow_level [] nofun 1
  · exact shallow_group read fun lexeme item => level_names item

theorem shallow_rows {part : List Lexeme} {first : LiteralRow} {more : List LiteralRow}
    (known : ∀ row ∈ first :: more, ∀ literal ∈ row.literals, literal.Known)
    (read : part.map Lexeme.item = joined LiteralRow.items first more) : Shallow (sides part) 1 := by
  have single {part : List Lexeme} {row : LiteralRow} (known : ∀ literal ∈ row.literals, literal.Known)
      (read : part.map Lexeme.item = row.items) : Shallow (sides part) 1 := by
    refine shallow_group read fun lexeme item => ?_
    rcases mem_joined item with comma | ⟨literal, listed, inside⟩
    · exact (wordless_of_comma (isPunctuation_of_item comma)).1
    · exact (staying_literal (known literal listed) inside).1
  induction more generalizing part first with
  | nil =>
    rw [joined_single] at read
    exact single (known first List.mem_cons_self) read
  | cons next more ih =>
    obtain ⟨front, comma, rest, rfl, here, isComma, later⟩ := exists_joined read
    obtain ⟨knownHere, knownLater⟩ := List.forall_mem_cons.mp known
    have border : Shallow (sides [comma]) 1 :=
      shallow_level (List.forall_mem_singleton.mpr (wordless_of_comma isComma).1) 1
    have parts : sides (front ++ comma :: rest) = sides front ++ (sides [comma] ++ sides rest) := by simp [sides]
    rw [parts]
    exact (single knownHere here).append (border.append (ih knownLater later))

include spells

theorem level_start :
    ∀ lexeme ∈ parts.verb :: parts.into :: (parts.qualifiers ++ [parts.table]), lexeme.side? = none := by
  intro lexeme member
  rcases List.mem_cons.mp member with rfl | member
  · obtain ⟨apart, same⟩ := exists_of_item spells.verb
    rw [same]
    rfl
  rcases List.mem_cons.mp member with rfl | member
  · obtain ⟨apart, same⟩ := exists_of_item spells.into
    rw [same]
    rfl
  rcases List.mem_append.mp member with qualifier | table
  · rcases kind_qualifiers spells lexeme qualifier with kind | kind <;> exact side?_of_kind (by rw [kind]; decide)
  · obtain rfl := List.mem_singleton.mp table
    exact side?_of_kind (by rw [kind_table spells]; decide)

theorem side?_values : parts.values.side? = none := by
  obtain ⟨apart, same⟩ := exists_of_item spells.values
  rw [same]
  rfl

theorem shallow_all (known : rows.Known) : Shallow (sides parts.all) 1 := by
  have whole : sides parts.all = sides (parts.verb :: parts.into :: (parts.qualifiers ++ [parts.table])) ++
      (sides parts.listed ++ (sides [parts.values] ++ sides parts.body)) := by
    simp [RowLexemes.all, RowLexemes.head, sides]
  rw [whole]
  exact (shallow_level (level_start spells) 1).append ((shallow_listed spells.listed).append
    ((shallow_level (List.forall_mem_singleton.mpr (side?_values spells)) 1).append
      (shallow_rows (known_row known) spells.body)))

/-- The text is read as the lexemes of its statement. -/
theorem exists_reading (known : rows.Known) {text : String} {found : List Item}
    (read : Lexer.items (normalize text.toList) = .ok found) (whole : ofItems found = parts.all) {limits : Limits}
    (few : parts.all.length ≤ limits.maxTokens) (deep : 1 ≤ limits.maxNestingDepth) :
    ∃ sequence, Reading limits text parts.all sequence := by
  obtain ⟨sequence, annotated⟩ := Selections.annotate_of_shallow (shallow_all spells known) deep
  exact ⟨sequence, tokenize_ok_iff.mpr ⟨parts.all, ofText_all spells known read whole, few, annotated⟩, annotated⟩

end Parentheses

section Statement

variable {rows : LiteralRows} {parts : RowLexemes} (spells : parts.Spells rows) (known : rows.Known)
include spells known

theorem verb_word :
    parts.verb.isKeyword = true ∧ (parts.verb.normalized = "INSERT" ∨ parts.verb.normalized = "REPLACE") ∧
    parts.verb.isWord "CREATE" = false ∧ parts.verb.value ≠ "(" := by
  have other {word : String} (upper : word.toList.all (·.isUpper) = true) (noCreate : word.toList ≠ "CREATE".toList)
      (noParen : "(".toList.map Char.toUpper ≠ word.toList) (spelled : IsSpelling word rows.verb) :
      parts.verb.isKeyword = true ∧ parts.verb.normalized = word ∧ parts.verb.isWord "CREATE" = false ∧
        parts.verb.value ≠ "(" := by
    obtain ⟨keyword, normal, letters⟩ := word_of_item upper spelled spells.verb
    refine ⟨keyword, normal, ?_, fun paren => noParen (by rw [← letters, paren])⟩
    rw [isWord, letters, beq_eq_false_iff_ne.mpr noCreate, Bool.and_false]
  rcases known.verb with spelled | spelled
  · obtain ⟨keyword, normal, facts⟩ := other (by decide) (by decide) (by decide) spelled
    exact ⟨keyword, .inl normal, facts⟩
  · obtain ⟨keyword, normal, facts⟩ := other (by decide) (by decide) (by decide) spelled
    exact ⟨keyword, .inr normal, facts⟩

theorem values_word : parts.values.isKeyword = true ∧ parts.values.normalized = "VALUES" := by
  obtain ⟨keyword, normal, -⟩ := word_of_item (by decide) known.values spells.values
  exact ⟨keyword, normal⟩

theorem start_all : Context.start parts.all = {} := by
  obtain ⟨keyword, -, other, -⟩ := verb_word spells known
  have create : isCreateTable parts.all = false := by
    have first : parts.all.filter (·.isKeyword) = parts.verb :: parts.all.tail.filter (·.isKeyword) :=
      List.filter_cons_of_pos keyword
    rw [isCreateTable, first]
    cases parts.all.tail.filter (·.isKeyword) with
    | nil => rfl
    | cons second rest =>
      dsimp only
      rw [other, Bool.false_and]
  rw [Context.start, create]

theorem exists_kind {limits : Limits} {sequence : TokenSequence}
    (annotated : annotate limits parts.all = .ok sequence) :
    ∃ kind, StatementKind.ofTokens sequence = .ok kind ∧ kind.hasValues = true ∧ kind ≠ .create := by
  obtain ⟨-, word, -, noParen⟩ := verb_word spells known
  rcases word with insert | replace
  · refine ⟨.insert, kind_of_annotated annotated rfl noParen ?_, rfl, nofun⟩
    rw [insert]
    rfl
  · refine ⟨.replace, kind_of_annotated annotated rfl noParen ?_, rfl, nofun⟩
    rw [replace]
    rfl

/-- No keyword but VALUES begins a clause in which anything is looked for that is no table. -/
theorem avoids_all {clauses : String → Bool}
    (others : ∀ word ∈ LiteralRows.words, Keyword.isInsignificant word = true ∨ clauses word = false) :
    ∀ lexeme ∈ parts.all, lexeme.Avoids clauses := by
  intro lexeme member keyword
  obtain ⟨word, listed, same, -⟩ :=
    word_of_within letters_words (ordinary_all spells known lexeme member).within keyword
  exact same ▸ others word listed

theorem avoids_head : ∀ lexeme ∈ parts.head, lexeme.Avoids (· == "VALUES") := by
  intro lexeme member
  rcases List.mem_cons.mp member with rfl | member
  · rcases (verb_word spells known).2.1 with normal | normal <;> exact fun _ => .inr (by rw [normal]; decide)
  rcases List.mem_cons.mp member with rfl | member
  · obtain ⟨-, normal, -⟩ := word_of_item (by decide) known.into spells.into
    exact fun _ => .inr (by rw [normal]; decide)
  · exact avoids_unkeyed (unkeyed_target spells lexeme member)

omit known in
theorem opened_head : (Context.after {} parts.head).opened = [] := by
  have split : parts.head = (parts.verb :: parts.into :: (parts.qualifiers ++ [parts.table])) ++ parts.listed := by
    simp [RowLexemes.head]
  have start : (Context.after {} (parts.verb :: parts.into :: (parts.qualifiers ++ [parts.table]))).opened = [] :=
    opened_after (level_start spells)
  have listed (context : Context) : context.Resumes (context.after parts.listed) := by
    have read := spells.listed
    unfold LiteralRows.listed at read
    split at read
    · rw [List.map_eq_nil_iff.mp read]
      exact ⟨rfl, rfl, rfl⟩
    · obtain ⟨opening, body, closing, whole, opens, inside, closes⟩ := exists_group read
      rw [whole]
      refine resumes_between (side?_eq_opening.mpr opens) (side?_eq_closing.mpr closes) fun context => ?_
      refine opened_after fun lexeme member => ?_
      exact level_names (inside ▸ List.mem_map_of_mem member)
  rw [split, Context.after_append, (listed _).opened]
  exact start

/-- The rows come after VALUES, in no parenthesis. -/
theorem context_body : ((Context.after {} parts.head).step parts.values).clause = some "VALUES" ∧
    ((Context.after {} parts.head).step parts.values).opened = [] := by
  obtain ⟨keyword, normal⟩ := values_word spells known
  obtain ⟨clause, -, opened⟩ :=
    step_significant (Context.after {} parts.head) parts.values keyword (by rw [normal]; decide)
  exact ⟨clause.trans (congrArg some normal), opened.trans (opened_head spells)⟩

theorem values_eq_rows {limits : Limits} {text : String} {sequence : TokenSequence}
    (reading : Reading limits text parts.all sequence) :
    (Query.ofText text limits).values = .ok (rows.literals.map SpelledLiteral.value) := by
  obtain ⟨kind, told, valued, -⟩ := exists_kind spells known reading.annotated
  have before : (spots {} [] parts.head (parts.values :: parts.body ++ [])).filterMap Spot.value? = [] := by
    have clauses := @clause_of_avoids {} (· == "VALUES") parts.head [] (parts.values :: parts.body ++ []) ⟨rfl, nofun⟩
      (avoids_head spells known)
    refine List.filterMap_eq_nil_iff.mpr fun spot member => if_neg ?_
    rw [Spot.endsItem, clauses spot member]
    exact Bool.false_ne_true
  rw [values_eq reading told valued, start_all spells known, RowLexemes.all, spots_append,
    List.filterMap_append, before, filterMap_cons, value?_outside (opened_head spells),
    values_rows (context_body spells known).1 (known_row known) spells.body]
  rfl

theorem bodiless_all {limits : Limits} {text : String} {sequence : TokenSequence}
    (reading : Reading limits text parts.all sequence) :
    Subquery.bodies sequence = {} := by
  have other : ∀ lexeme ∈ parts.all, (lexeme.isKeyword && Keyword.precedesSubquery lexeme.normalized) = false :=
    keyword_all spells known Keyword.precedesSubquery (by decide)
  refine BareFacts.bodies_unqueried reading fun spot within _ => ?_
  have here : spot.context.Unqueried := by
    rw [within.context, start_all spells known]
    exact Context.Unqueried.after
        ⟨List.forall_mem_nil _, fun _ none => absurd none (Option.not_mem_none _)⟩ fun lexeme member =>
      other lexeme (within.whole ▸ List.mem_append_left _ member)
  unfold Spot.isIn
  cases opened : spot.context.opened with
  | nil => rfl
  | cons frame outer =>
    have kind := here.opened frame (by rw [opened]; exact List.mem_cons_self)
    simpa using kind

theorem unmentioned_all (unlisted : rows.columns = []) (aliasNames : List String) (declared : List Nat) :
    (spots {} [] parts.all []).filterMap (Spot.mention? aliasNames declared) = [] := by
  have listed : parts.listed = [] := by
    have read := spells.listed
    rw [LiteralRows.listed, unlisted] at read
    exact List.map_eq_nil_iff.mp read
  have flat : ∀ lexeme ∈ parts.head, lexeme.side? = none := by
    have split :
        parts.head = parts.verb :: parts.into :: (parts.qualifiers ++ [parts.table]) := by rw [RowLexemes.head, listed]
    rw [split]
    exact level_start spells
  refine List.filterMap_eq_nil_iff.mpr fun spot member => ?_
  rw [RowLexemes.all, spots_append] at member
  rcases List.mem_append.mp member with head | tail
  · have noColumns :=
      @clause_of_avoids {} Keyword.precedesColumns parts.head [] (parts.values :: parts.body ++ []) ⟨rfl, nofun⟩
      (fun lexeme inside => avoids_all spells known (by decide) lexeme (List.mem_append_left _ inside)) spot head
    exact ColumnSpots.mention?_unplaced noColumns fun _ => outside_spots flat rfl spot head
  rcases List.mem_cons.mp tail with rfl | body
  · have other : parts.values.isName = false ∧ parts.values.isWildcard = false := by
      obtain ⟨apart, same⟩ := exists_of_item spells.values
      rw [same]
      exact ⟨rfl, rfl⟩
    exact ColumnSpots.mention?_of_other other.1 other.2
  · let clauses (word : String) : Bool := Keyword.precedesColumns word || word == "INTO"
    obtain ⟨clause, opened⟩ := context_body spells known
    have start : ((Context.after {} parts.head).step parts.values).Avoids clauses := by
      refine ⟨?_, ?_⟩
      · rw [clause]
        rfl
      · rw [opened]
        exact List.forall_mem_nil _
    refine ColumnSpots.mention?_of_clause (clause_of_avoids start (fun lexeme inside => ?_) spot body)
    rcases cases_body spells lexeme inside with border | ⟨literal, among, item⟩
    · exact avoids_unkeyed (unkeyed_of_kind (kind_of_border border) (by decide))
    · exact avoids_of_staying (staying_literal (known.literals literal among) item)

/-- Without a list of columns the facts have none to insert into. -/
theorem exists_facts_unlisted (unlisted : rows.columns = []) {limits : Limits} {text : String}
    {sequence : TokenSequence}
    (reading : Reading limits text parts.all sequence) :
    ∃ facts, (Query.ofText text limits).facts = .ok facts ∧ facts.columnsBySection.find? .insert = none := by
  have start := start_all spells known
  obtain ⟨kind, told, -, plain⟩ := exists_kind spells known reading.annotated
  have noWith : ∀ lexeme ∈ parts.all, lexeme.reads "WITH" = false := keyword_all spells known (· == "WITH") (by decide)
  have undeclared : Facts.declarations sequence {} = [] := by
    refine ColumnSpots.declarations_eq_nil reading.annotated fun spot member => ?_
    rw [start] at member
    have avoids : ∀ lexeme ∈ parts.all, lexeme.Avoids Keyword.precedesColumns := avoids_all spells known (by decide)
    have noColumns := clause_of_avoids ⟨rfl, List.forall_mem_nil _⟩ avoids spot member
    simp [Spot.mayDeclare, noColumns]
  have mentioned : Column.mentions sequence (Facts.declaredNames sequence {})
      ((Facts.declarations sequence {}).map (·.position)) = [] := by
    rw [ColumnSpots.mentions_eq reading.annotated, start]
    exact unmentioned_all spells known unlisted _ _
  have targets (known : NameMap (List String)) : AliasDeclaration.targets (Facts.declarations sequence {}) sequence
      ⟨known, Facts.declaredNames sequence {}⟩ {} = .ok {} := by
    rw [undeclared]
    rfl
  have lists := BareFacts.lists_undeclared undeclared []
  refine ⟨_, BareFacts.facts_meant reading told plain
    (withClause_bare reading.annotated noWith) (bodiless_all spells known reading)
    (List.forall_mem_nil _) mentioned fun known _ => targets known, ?_⟩
  have none : _ = SectionMap.ofNames (SectionMap.namesIn []) := lists.columnsBySection
  exact none ▸ rfl

end Statement

section Rows

variable {rows : LiteralRows} (known : rows.Known) {text : String}
  (read : (Lexer.items (normalize text.toList)).map solid = .ok rows.items) {limits : Limits}
  (few : rows.items.length ≤ limits.maxTokens) (deep : 1 ≤ limits.maxNestingDepth)
include known read few deep

/-- Rows of literals are read back, literal by literal, whatever gaps and cases the text has. Each literal is
read as its items wherever it stands, and without a list of columns the values are numbered through. -/
theorem values_of_rows : (∀ literal ∈ rows.literals, ∀ after : List Char, (∀ c ∈ after.head?, endsNumber c = true) →
      Arrives (literal.spelling ++ after) literal.items after) ∧
    (Query.ofText text limits).values = .ok (rows.literals.map SpelledLiteral.value) ∧
    (rows.columns = [] →
      (Query.ofText text limits).assignments = .ok ((rows.literals.map SpelledLiteral.value).zipIdx.map
      fun (value, place) => ("column_" ++ toString (place + 1), value))) := by
  obtain ⟨found, items, same⟩ : ∃ found, Lexer.items (normalize text.toList) = .ok found ∧
      solid found = rows.items := by
    cases items : Lexer.items (normalize text.toList) with
    | error stop => rw [items] at read; cases read
    | ok found => rw [items] at read; exact ⟨found, rfl, Except.ok.inj read⟩
  obtain ⟨parts, whole, spells⟩ := exists_spells ((item_ofItems found).trans same)
  have length : parts.all.length = rows.items.length := by rw [← same, ← item_ofItems, List.length_map, whole]
  obtain ⟨sequence, reading⟩ := exists_reading spells known items whole (length.trans_le few) deep
  have values := values_eq_rows spells known reading
  refine ⟨fun literal listed after ends => arrives_spelling (known.literals literal listed) ends,
    values, fun unlisted => ?_⟩
  obtain ⟨facts, told, none⟩ := exists_facts_unlisted spells known unlisted reading
  rw [Query.assignments, values, told]
  simp only [bind, Except.bind, none]
  rfl

end Rows

/-- Signs, doubled quotes and numbers at both ends of the integers, in several rows and with gaps of all kinds. -/
theorem values_of_rows_limits :
    let text :=
      "insert Into `my db` . t -- rows\n Values(9223372036854775807,-9223372036854775808,'it''s'),\t( '''', '' )" ++
      " , (9223372036854775808, - 2.50,?,NULL, true)"
    let values : List Value :=
      [.integer 9223372036854775807, .integer (-9223372036854775808), .text "it's", .text "'", .text "",
      .float (.ofDecimal ⟨false, 9223372036854775808, 0⟩), .float (.ofDecimal ⟨true, 250, -2⟩),
        .text "?", .text "NULL", .text "true"]
    (Query.ofText text {}).values = .ok values ∧ (Query.ofText text {}).assignments =
      .ok (values.zipIdx.map fun (value, place) => ("column_" ++ toString (place + 1), value)) := by
  let rows : LiteralRows := {
    verb := "insert".toList
    into := "Into".toList
    qualifiers := [⟨"my db".toList, some '`'⟩]
    table := ⟨"t".toList, none⟩
    values := "Values".toList
    first := ⟨.number false "9223372036854775807".toList none,
      [.number true "9223372036854775808".toList none, .string "it''s".toList "it's".toList]⟩
    more := [⟨.string "''".toList "'".toList, [.string [] []]⟩,
      ⟨.number false "9223372036854775808".toList none,
        [.number true "2".toList (some "50".toList), .placeholder, .word "NULL".toList, .word "true".toList]⟩] }
  intro text values
  have known : rows.Known := ⟨by decide, by decide, by decide, by decide⟩
  have read : (Lexer.items (normalize text.toList)).map solid = .ok rows.items := by decide +kernel
  have same : rows.literals.map SpelledLiteral.value = values := by decide
  obtain ⟨-, told, assigned⟩ := values_of_rows known read (show _ ≤ ({} : Limits).maxTokens by decide) (by decide)
  rw [same] at told assigned
  exact ⟨told, assigned rfl⟩

end QueryFacts.Proofs.InsertedRows
