import QueryFacts.Proofs.Clauses
import QueryFacts.Proofs.Phrases

/-! Expressions of a select list as they are written: columns, numbers, strings, sums, groups in
parentheses, and calls of functions. What an expression mentions, the lexemes that it is read as,
and how they nest. -/

namespace QueryFacts
open Text

/-- The name of a function, which may be a keyword that is called. -/
def IsFunctionName (name : String) : Prop := IsUnquoted name ∨ IsCalledName name

instance (name : String) : Decidable (IsFunctionName name) := inferInstanceAs (Decidable (_ ∨ _))

inductive Expression where
  | column (name : String)
  | number (digits : String)
  | string (content : String)
  /-- A function of all rows, such as `count(*)`. -/
  | ofAll (function : String)
  | sum (left right : Expression)
  | group (inner : Expression)
  | call (function : String) (arguments : List Expression)

/-- What stands for a column in an expression, or is spelled like one. -/
inductive Mark where
  | column (name : String)
  | function (name : String)
  | wildcard
  deriving DecidableEq

namespace Lexeme

def plus : Lexeme := ⟨.operator, "+", none, true⟩

def allRows : Lexeme := ⟨.wildcard, "*", none, false⟩

end Lexeme

namespace Mark

def name : Mark → String
  | column name | function name => name
  | wildcard => "*"

def column? : Mark → Option String
  | column name => some name
  | function _ | wildcard => none

def isWildcard : Mark → Bool
  | wildcard => true
  | column _ | function _ => false

end Mark

namespace Expression
open Proofs.ColumnListStatement Lexeme

mutual

def lexemes (apart : Bool) : Expression → List Lexeme
  | column name => [ofName name apart]
  | number digits => [ofNumeral digits apart]
  | string content => [⟨.literal, String.ofList (enclose singleQuote (double singleQuote content.toList)), none, apart⟩]
  | ofAll function => [ofName function apart, ⟨.punctuation, "(", none, false⟩, allRows, closing]
  | sum left right => left.lexemes apart ++ plus :: right.lexemes true
  | group inner => ⟨.punctuation, "(", none, apart⟩ :: (inner.lexemes false ++ [closing])
  | call function arguments =>
    ofName function apart :: ⟨.punctuation, "(", none, false⟩ :: (argumentLexemes false arguments ++ [closing])

/-- Arguments with commas between them, and with one in front if others have `begun`. -/
def argumentLexemes (begun : Bool) : List Expression → List Lexeme
  | [] => []
  | next :: rest => (if begun then [comma] else []) ++ (next.lexemes begun ++ argumentLexemes true rest)

end

mutual

/-- From left to right. -/
def marks : Expression → List Mark
  | column name => [.column name]
  | number _ | string _ => []
  | ofAll function => [.function function, .wildcard]
  | sum left right => left.marks ++ right.marks
  | group inner => inner.marks
  | call function arguments => .function function :: argumentMarks arguments

def argumentMarks : List Expression → List Mark
  | [] => []
  | next :: rest => next.marks ++ argumentMarks rest

end

mutual

/-- How many parentheses are open at one time. -/
def depth : Expression → Nat
  | column _ | number _ | string _ => 0
  | ofAll _ => 1
  | sum left right => max left.depth right.depth
  | group inner => inner.depth + 1
  | call _ arguments => argumentDepth arguments + 1

def argumentDepth : List Expression → Nat
  | [] => 0
  | next :: rest => max next.depth (argumentDepth rest)

end

inductive Known : Expression → Prop where
  | column {name : String} (unquoted : IsUnquoted name) : Known (column name)
  | number {digits : String} (spelled : isNumeral digits.toList = true) : Known (number digits)
  | string (content : String) : Known (string content)
  | ofAll {function : String} (called : IsFunctionName function) : Known (ofAll function)
  | sum {left right : Expression} (first : Known left) (second : Known right) : Known (sum left right)
  | group {inner : Expression} (inside : Known inner) : Known (group inner)
  | call {function : String} {arguments : List Expression} (called : IsFunctionName function)
      (each : ∀ argument ∈ arguments, Known argument) : Known (call function arguments)

/-- The columns that an expression mentions, in order and with repetitions. -/
def columns (expression : Expression) : List String := expression.marks.filterMap Mark.column?

/-- The names and the wildcards of an expression. -/
def words (expression : Expression) : List String := expression.marks.map Mark.name

theorem argumentMarks_eq (arguments : List Expression) : argumentMarks arguments = arguments.flatMap marks := by
  induction arguments with
  | nil => rfl
  | cons next rest ih => rw [argumentMarks, ih, List.flatMap_cons]

end Expression

/-- The lexemes that expressions are written from. -/
inductive Lexeme.Expressive : Lexeme → Prop where
  | name {name : String} (known : IsFunctionName name) (apart : Bool) : Expressive (ofName name apart)
  | phrasal {lexeme : Lexeme} (phrasal : lexeme.Phrasal) (noKeyword : lexeme.isKeyword = false) : Expressive lexeme
  | allRows : Expressive allRows

/-- Lexemes without keywords, with at most `bound` parentheses open at one time. -/
inductive Lexeme.Nested : Nat → List Lexeme → Prop where
  | nil (bound : Nat) : Nested bound []
  | cons {bound : Nat} {lexeme : Lexeme} {rest : List Lexeme} (wordless : lexeme.Wordless) (later : Nested bound rest) :
      Nested bound (lexeme :: rest)
  | group {bound : Nat} (apart : Bool) {inner rest : List Lexeme} (inside : Nested bound inner)
    (later : Nested (bound + 1) rest) :
      Nested (bound + 1) (⟨.punctuation, "(", none, apart⟩ :: (inner ++ Proofs.ColumnListStatement.closing :: rest))

end QueryFacts

namespace QueryFacts.Proofs.Expressions
open Text Lexeme Expression NestingRun PlainText SelectList ColumnListStatement TextParts JoinKeywords Phrases
open Selections (Shallow shallow_level sides_append)

example : String.ofList (written ((call "f" [column "a", sum (group (ofAll "count")) (string "b")]).lexemes true)) =
    "f(a, (count(*)) + 'b')" := by decide

/-- The columns of an expression are no keywords. -/
theorem unquoted_of_column {expression : Expression} (known : expression.Known) {name : String}
    (column : name ∈ expression.columns) :
    IsUnquoted name := by
  obtain ⟨mark, member, told⟩ := List.mem_filterMap.mp column
  clear column
  induction known with
  | column unquoted =>
    obtain rfl := List.mem_singleton.mp member
    exact Option.some.inj told ▸ unquoted
  | number | string => cases member
  | ofAll =>
    simp only [marks, List.mem_cons, List.not_mem_nil, or_false] at member
    rcases member with rfl | rfl <;> cases told
  | sum first second ihFirst ihSecond => exact (List.mem_append.mp member).elim ihFirst ihSecond
  | group inside ih => exact ih member
  | call called each ih =>
    rw [marks, argumentMarks_eq] at member
    rcases List.mem_cons.mp member with rfl | inside
    · cases told
    · obtain ⟨argument, among, here⟩ := List.mem_flatMap.mp inside
      exact ih argument among here

section Lexemes

theorem IsFunctionName.spelled {name : String} (known : IsFunctionName name) : isIdentifier name.toList = true :=
  known.elim (·.spelled) (·.spelled)

private theorem expressive_mark {lexeme : Lexeme} (member : lexeme ∈ [comma, closing, plus]) : lexeme.Expressive := by
  simp only [List.mem_cons, List.not_mem_nil, or_false] at member
  rcases member with rfl | rfl | rfl
  · exact .phrasal .comma rfl
  · exact .phrasal .closing rfl
  · exact .phrasal (.operator (by decide) true) rfl

theorem expressive_arguments {arguments : List Expression}
    (each : ∀ argument ∈ arguments, ∀ apart, ∀ lexeme ∈ argument.lexemes apart, lexeme.Expressive) (begun : Bool) :
    ∀ lexeme ∈ argumentLexemes begun arguments, lexeme.Expressive := by
  induction arguments generalizing begun with
  | nil => nofun
  | cons next rest ih =>
    intro lexeme member
    rcases List.mem_append.mp member with mark | later
    · cases begun with
      | false => cases mark
      | true => exact List.mem_singleton.mp mark ▸ expressive_mark (by simp)
    · rcases List.mem_append.mp later with here | further
      · exact each next List.mem_cons_self begun lexeme here
      · exact ih (fun other inside => each other (List.mem_cons_of_mem _ inside)) true lexeme further

theorem expressive_expression {expression : Expression} (known : expression.Known) (apart : Bool) :
    ∀ lexeme ∈ expression.lexemes apart, lexeme.Expressive := by
  have closed : closing.Expressive := expressive_mark (by simp)
  induction known generalizing apart with
  | column unquoted => exact List.forall_mem_singleton.mpr (.name (.inl unquoted) apart)
  | @number digits spelled =>
    refine List.forall_mem_singleton.mpr (.phrasal (.number spelled apart) ?_)
    rcases ofNumeral_cases digits apart with same | same <;> rw [same] <;> rfl
  | string content =>
    exact List.forall_mem_singleton.mpr (.phrasal (.string content.toList (String.toList_ofList ..) apart) rfl)
  | ofAll called =>
    exact List.forall_mem_cons.mpr ⟨.name called apart, List.forall_mem_cons.mpr ⟨.phrasal (.opening false) rfl,
      List.forall_mem_cons.mpr ⟨.allRows, List.forall_mem_singleton.mpr closed⟩⟩⟩
  | sum first second ihFirst ihSecond =>
    intro lexeme member
    rcases List.mem_append.mp member with left | later
    · exact ihFirst apart lexeme left
    · exact List.forall_mem_cons.mpr ⟨expressive_mark (by simp), ihSecond true⟩ lexeme later
  | group inside ih =>
    refine List.forall_mem_cons.mpr ⟨.phrasal (.opening apart) rfl, fun lexeme member => ?_⟩
    exact (List.mem_append.mp member).elim (ih false lexeme) (List.forall_mem_singleton.mpr closed lexeme)
  | call called each ih =>
    refine List.forall_mem_cons.mpr ⟨.name called apart,
      List.forall_mem_cons.mpr ⟨.phrasal (.opening false) rfl, fun lexeme member => ?_⟩⟩
    exact (List.mem_append.mp member).elim
      (expressive_arguments ih false lexeme) (List.forall_mem_singleton.mpr closed lexeme)

variable {lexeme : Lexeme} (expressive : lexeme.Expressive)
include expressive

theorem plain_of_expressive : lexeme.uncalled.Plain := by
  cases expressive with
  | @name name known apart =>
    rcases known with unquoted | called
    · have plain : (ofName name apart).Plain := .word unquoted.spelled (by simp [unquoted.free])
      exact (uncalled_of_plain plain).symm ▸ plain
    · exact plain_of_called ⟨name, apart, rfl, called⟩
  | phrasal phrasal => exact (uncalled_of_plain (plain_of_phrasal phrasal)).symm ▸ plain_of_phrasal phrasal
  | allRows =>
    have plain : allRows.Plain := .star (.inr rfl)
    exact (uncalled_of_plain plain).symm ▸ plain

theorem noKeyword_of_expressive : lexeme.isKeyword = false := by
  cases expressive with
  | name => rfl
  | phrasal phrasal noKeyword => exact noKeyword
  | allRows => rfl

theorem alone_of_expressive : Alone lexeme := by
  have noKeyword := noKeyword_of_expressive expressive
  exact ⟨by rw [isJoinPrefix, noKeyword, Bool.false_and], by rw [takesBy, noKeyword, Bool.false_and]⟩

end Lexemes

section Texts

variable {last : Lexeme} {after : List Lexeme}

/-- The lexemes may stand after any that ends no word, if what is to come may stand after any end of an operand. -/
def Follows (part : List Lexeme) (apart : Bool) : Prop :=
  ∀ last after, last.kind ≠ .dot → last.isCallable = false →
    (apart = false → ∃ space, last = ⟨.punctuation, "(", none, space⟩) →
    (∀ final, Ends final → final.isCallable = false → (final :: after).IsChain Near) →
      (last :: (part ++ after)).IsChain Near

/-- Two operands one after the other, if nothing but a space has to stand between them. -/
theorem Follows.append {first rest : List Lexeme} {apart : Bool} (begins : Follows first apart)
    (later : Follows rest true) :
    Follows (first ++ rest) apart := by
  intro last after noDot noCall opened continues
  rw [List.append_assoc]
  exact begins last (rest ++ after) noDot noCall opened fun final ends noCall =>
    later final after ends.noDot noCall nofun continues

private theorem ends_opening (apart : Bool) : Ends ⟨.punctuation, "(", none, apart⟩ := ⟨nofun, nofun⟩

private theorem follows_name {name : String} (known : IsFunctionName name) (apart : Bool) {rest : List Lexeme}
    (noDot : last.kind ≠ .dot) (opened : apart = false → ∃ space, last = ⟨.punctuation, "(", none, space⟩)
    (continues : (⟨.punctuation, "(", none, false⟩ :: rest).IsChain Near) :
    (last :: ofName name apart :: ⟨.punctuation, "(", none, false⟩ :: rest).IsChain Near := by
  have ends : Ends (ofName name apart) := ⟨nofun, nofun⟩
  exact chain_name
    (IsFunctionName.spelled known) noDot opened (List.isChain_cons_cons.mpr ⟨near_opening ends rfl, continues⟩)

/-- A literal that ends an operand may stand where an operand may. -/
private theorem follows_literal {literal : Lexeme} {apart : Bool} (phrasal : literal.Phrasal)
    (space : literal.spaceBefore = apart)
    (noOpening : literal.value ≠ "(") (ends : Ends literal) (noCall : literal.isCallable = false) :
    Follows [literal] apart := by
  intro last after noDot _ opened continues
  have leads : Leads (!apart) literal := leads_of_phrasal phrasal (by rw [space]; cases apart <;> rfl) noOpening
  exact List.isChain_cons_cons.mpr ⟨near_last noDot opened space leads, continues literal ends noCall⟩

theorem follows_arguments {arguments : List Expression}
    (each : ∀ argument ∈ arguments, ∀ apart, Follows (argument.lexemes apart) apart) {begun : Bool} (ends : Ends last)
    (noCall : last.isCallable = false) (opened : begun = false → ∃ space, last = ⟨.punctuation, "(", none, space⟩)
    (continues : ∀ final, Ends final → final.isCallable = false → (final :: after).IsChain Near) :
    (last :: (argumentLexemes begun arguments ++ after)).IsChain Near := by
  induction arguments generalizing begun last with
  | nil => exact continues last ends noCall
  | cons next rest ih =>
    have further (final : Lexeme) (ends : Ends final) (noCall : final.isCallable = false) :
        (final :: (argumentLexemes true rest ++ after)).IsChain Near :=
      ih (fun other inside => each other (List.mem_cons_of_mem _ inside)) ends noCall nofun
    have here := each next List.mem_cons_self begun
    cases begun with
    | false =>
      rw [argumentLexemes, List.append_assoc, List.append_assoc]
      exact here last _ ends.noDot noCall opened further
    | true =>
      have comma : (comma :: (next.lexemes true ++ (argumentLexemes true rest ++ after))).IsChain Near :=
        here comma _ nofun rfl nofun further
      rw [argumentLexemes, List.append_assoc, List.append_assoc]
      exact List.isChain_cons_cons.mpr ⟨near_of_leads ends (leads_of_phrasal .comma rfl (by decide)), comma⟩

theorem follows_expression {expression : Expression} (known : expression.Known) (apart : Bool) :
    Follows (expression.lexemes apart) apart := by
  induction known generalizing apart with
  | @column name unquoted =>
    intro last after noDot noCall opened continues
    exact chain_name unquoted.spelled noDot opened (continues (ofName name apart) ⟨nofun, nofun⟩ rfl)
  | @number digits spelled =>
    have odd : digits ≠ "(" := by
      rintro rfl
      cases spelled
    have phrasal : (ofNumeral digits apart).Phrasal := .number spelled apart
    rcases ofNumeral_cases digits apart with same | same <;> rw [same] at phrasal <;> rw [lexemes, same]
    · exact follows_literal phrasal rfl odd ⟨nofun, nofun⟩ rfl
    · exact follows_literal phrasal rfl odd ⟨nofun, nofun⟩ rfl
  | string content =>
    have quoted := String.toList_ofList (l := enclose singleQuote (double singleQuote content.toList))
    have odd : String.ofList (enclose singleQuote (double singleQuote content.toList)) ≠ "(" := fun same => by
      rw [same] at quoted
      cases quoted
    exact follows_literal (.string content.toList quoted apart) rfl odd ⟨nofun, nofun⟩ rfl
  | ofAll called =>
    intro last after noDot noCall opened continues
    have inner : Near ⟨.punctuation, "(", none, false⟩ allRows := ⟨rfl, by decide⟩
    have outer : Near allRows closing := near_closing ⟨nofun, nofun⟩
    exact follows_name called apart noDot opened (List.isChain_cons_cons.mpr ⟨inner,
      List.isChain_cons_cons.mpr ⟨outer, continues closing ⟨nofun, nofun⟩ rfl⟩⟩)
  | @sum left right first second ihFirst ihSecond =>
    intro last after noDot noCall opened continues
    rw [lexemes, List.append_assoc]
    refine ihFirst apart last _ noDot noCall opened fun final ends _ => ?_
    have plus : Lexeme.plus.Phrasal := .operator (by decide) true
    exact List.isChain_cons_cons.mpr
      ⟨near_space_after ends.noDot rfl (leads_of_phrasal plus rfl (show "+" ≠ "(" by decide)),
      ihSecond true Lexeme.plus _ nofun rfl nofun continues⟩
  | group inside ih =>
    intro last after noDot noCall opened continues
    have near : Near last ⟨.punctuation, "(", none, apart⟩ := by
      cases apart with
      | true => exact near_opening_apart noCall
      | false =>
        obtain ⟨space, rfl⟩ := opened rfl
        exact near_opening (ends_opening space) noCall
    rw [lexemes, List.cons_append, List.append_assoc]
    refine List.isChain_cons_cons.mpr ⟨near, ih false _ _ nofun rfl (fun _ => ⟨apart, rfl⟩) fun final ends _ => ?_⟩
    exact List.isChain_cons_cons.mpr ⟨near_closing ends, continues closing ⟨nofun, nofun⟩ rfl⟩
  | call called each ih =>
    intro last after noDot noCall opened continues
    rw [lexemes, List.cons_append, List.cons_append, List.append_assoc]
    refine follows_name called apart noDot
      opened (follows_arguments ih (ends_opening false) rfl (fun _ => ⟨false, rfl⟩) fun final ends _ => ?_)
    exact List.isChain_cons_cons.mpr ⟨near_closing ends, continues closing ⟨nofun, nofun⟩ rfl⟩

private theorem calls_cons {lexeme : Lexeme} (uncalled : lexeme.isCalled = false) (rest : List Lexeme) :
    calls (lexeme :: rest) = calls rest := @calls_append [lexeme] (List.forall_mem_singleton.mpr uncalled) rest

private theorem calls_name (name : String) (apart space : Bool) (rest : List Lexeme) :
    calls (ofName name apart :: ⟨.punctuation, "(", none, space⟩ :: rest) = calls rest := by
  have opens :
      (!(ofName name apart).isCalled || (⟨.punctuation, "(", none, space⟩ : Lexeme).isPunctuation "(") = true :=
    Bool.or_true _
  rw [calls, List.head?_cons, Option.any_some, opens, Bool.true_and]
  exact calls_cons rfl rest

theorem calls_arguments {arguments : List Expression}
    (each : ∀ argument ∈ arguments, ∀ apart after, calls (argument.lexemes apart ++ after) = calls after)
    (begun : Bool) (after : List Lexeme) :
    calls (argumentLexemes begun arguments ++ after) = calls after := by
  induction arguments generalizing begun with
  | nil => rfl
  | cons next rest ih =>
    have later := ih (fun other inside => each other (List.mem_cons_of_mem _ inside)) true
    have mark : ∀ lexeme ∈ if begun then [comma] else [], lexeme.isCalled = false := by cases begun <;> decide
    rw [argumentLexemes, List.append_assoc, List.append_assoc, calls_append mark, each next List.mem_cons_self, later]

/-- In an expression nothing is called but in front of a parenthesis. -/
theorem calls_expression {expression : Expression} (known : expression.Known) (apart : Bool) (after : List Lexeme) :
    calls (expression.lexemes apart ++ after) = calls after := by
  induction known generalizing apart after with
  | @column name unquoted =>
    have plain : (ofName name apart).Plain := .word unquoted.spelled (by simp [unquoted.free])
    exact calls_cons plain.isCalled after
  | @number digits spelled => exact calls_cons (plain_of_phrasal (.number spelled apart)).isCalled after
  | string content => exact calls_cons rfl after
  | ofAll called => exact (calls_name _ apart false _).trans (@calls_append [allRows, closing] (by decide) after)
  | sum first second ihFirst ihSecond =>
    rw [lexemes, List.append_assoc, ihFirst, List.cons_append, calls_cons (by decide), ihSecond]
  | group inside ih =>
    rw [lexemes, List.cons_append, List.append_assoc, calls_cons rfl, ih]
    exact calls_cons (by decide) after
  | call called each ih =>
    rw [lexemes, List.cons_append, List.cons_append, List.append_assoc, calls_name, calls_arguments ih]
    exact calls_cons (by decide) after

end Texts

section Parentheses

variable {bound more : Nat} {part rest : List Lexeme}

theorem nested_append (begins : Nested bound part) (later : Nested bound rest) : Nested bound (part ++ rest) := by
  induction begins with
  | nil => exact later
  | cons wordless _ ih => exact .cons wordless (ih later)
  | group apart inside _ _ ih =>
    rw [List.cons_append, List.append_assoc]
    exact .group apart inside (ih later)

theorem nested_mono (nested : Nested bound part) (le : bound ≤ more) : Nested more part := by
  induction nested generalizing more with
  | nil => exact .nil more
  | cons wordless _ ih => exact .cons wordless (ih le)
  | group apart _ _ ihInner ihRest =>
    cases more with
    | zero => cases le
    | succ more => exact .group apart (ihInner (Nat.le_of_succ_le_succ le)) (ihRest le)

theorem nested_arguments {arguments : List Expression}
    (each : ∀ argument ∈ arguments, ∀ apart, Nested argument.depth (argument.lexemes apart)) (begun : Bool) :
    Nested (argumentDepth arguments) (argumentLexemes begun arguments) := by
  induction arguments generalizing begun with
  | nil => exact .nil _
  | cons next rest ih =>
    have here := nested_mono (each next List.mem_cons_self begun) (Nat.le_max_left next.depth (argumentDepth rest))
    have later := nested_mono (ih (fun other inside => each other (List.mem_cons_of_mem _ inside)) true)
      (Nat.le_max_right next.depth (argumentDepth rest))
    have both := nested_append here later
    cases begun with
    | false => exact both
    | true => exact .cons ⟨rfl, rfl⟩ both

theorem nested_expression {expression : Expression} (known : expression.Known) (apart : Bool) :
    Nested expression.depth (expression.lexemes apart) := by
  induction known generalizing apart with
  | column | string => exact .cons ⟨rfl, rfl⟩ (.nil 0)
  | @number digits spelled =>
    refine .cons ?_ (.nil 0)
    rcases ofNumeral_cases digits apart with same | same <;> rw [same] <;> exact ⟨rfl, rfl⟩
  | ofAll called =>
    have inner : Nested 0 [allRows] := .cons ⟨rfl, rfl⟩ (.nil 0)
    exact .cons ⟨rfl, rfl⟩ (.group false inner (.nil 1))
  | sum first second ihFirst ihSecond =>
    exact nested_append (nested_mono (ihFirst apart) (Nat.le_max_left _ _))
      (.cons ⟨rfl, rfl⟩ (nested_mono (ihSecond true) (Nat.le_max_right _ _)))
  | group inside ih => exact .group apart (ih false) (.nil _)
  | call called each ih => exact .cons ⟨rfl, rfl⟩ (.group false (nested_arguments ih false) (.nil _))

theorem shallow_nested (nested : Nested bound part) : Shallow (sides part) bound := by
  induction nested with
  | nil bound => exact @shallow_level [] nofun bound
  | @cons bound lexeme rest wordless later ih =>
    have here : Shallow (sides [lexeme]) bound := shallow_level (List.forall_mem_singleton.mpr wordless.1) bound
    exact here.append ih
  | @group bound apart inner rest inside later ihInner ihRest =>
    have spelled : sides (⟨.punctuation, "(", none, apart⟩ :: (inner ++ closing :: rest)) =
        some .opening :: (sides inner ++ [some .closing]) ++ sides rest := by
      rw [sides, List.map_cons, List.map_append, List.map_cons, List.cons_append, List.append_assoc]
      rfl
    rw [spelled]
    exact ihInner.wrap.append ihRest

theorem opened_nested (nested : Nested bound part) (context : Context) :
    (context.after part).opened = context.opened := by
  induction nested generalizing context with
  | nil => rfl
  | cons wordless later ih => exact (ih _).trans (Clauses.opened_step wordless.1)
  | @group bound apart inner rest inside later ihInner ihRest =>
    have first := (@Clauses.resumes_level context inner ihInner apart).opened
    have split : (⟨.punctuation, "(", none, apart⟩ :: (inner ++ closing :: rest) : List Lexeme) =
        (⟨.punctuation, "(", none, apart⟩ :: (inner ++ [closing])) ++ rest := by simp
    rw [split, Context.after_append, ihRest, first]

end Parentheses

end QueryFacts.Proofs.Expressions
