import QueryFacts.Proofs.Clauses
import QueryFacts.Proofs.Selections.Bodies

/-! Statements with a WITH clause, with any names, column lists and bodies, also where a part of a
declaration is left out. Between its parts the clause stays open and no parenthesis does, whatever
stands in its parentheses, so that the annotation knows every body and every column list. -/

namespace QueryFacts
open Proofs.Parenthesis Proofs.NestingRun

/-- Two parentheses and what is between them: parentheses that balance, and no WITH. -/
structure Group where
  opening : Lexeme
  inner : List Lexeme
  closing : Lexeme
  opens : opening.isPunctuation "(" = true
  closes : closing.isPunctuation ")" = true
  balanced : Balanced (sides inner)
  noWith : ∀ lexeme ∈ inner, lexeme.reads "WITH" = false

def Group.lexemes (group : Group) : List Lexeme := group.opening :: (group.inner ++ [group.closing])

/-- The parts of a name before its last part, each with its dot. -/
def qualified (qualifiers : List (Lexeme × Lexeme)) : List Lexeme := qualifiers.flatMap fun part => [part.1, part.2]

/-- A declaration of a WITH clause: a dotted name, perhaps a list of columns, then AS and a body,
each of which may be missing. -/
structure WithDeclaration where
  qualifiers : List (Lexeme × Lexeme)
  name : Lexeme
  columns? : Option Group
  as? : Option Lexeme
  body? : Option Group
  isQualifier : ∀ part ∈ qualifiers, part.1.isName = true ∧ part.2.isDot = true
  isName : name.isName = true
  undotted : ∀ columns ∈ columns?, ∀ lexeme ∈ columns.inner, lexeme.isDot = false
  isAs : ∀ as ∈ as?, as.reads "AS" = true

namespace WithDeclaration

def nameLexemes (declaration : WithDeclaration) : List Lexeme :=
  qualified declaration.qualifiers ++ [declaration.name]

def columnsLexemes (declaration : WithDeclaration) : List Lexeme := declaration.columns?.elim [] Group.lexemes

def bodyLexemes (declaration : WithDeclaration) : List Lexeme := declaration.body?.elim [] Group.lexemes

def lexemes (declaration : WithDeclaration) : List Lexeme :=
  declaration.nameLexemes ++ (declaration.columnsLexemes ++ (declaration.as?.toList ++ declaration.bodyLexemes))

/-- The name as it is called, with its dots. -/
def fullName (declaration : WithDeclaration) : String :=
  String.intercalate "." (declaration.qualifiers.map (·.1.value) ++ [declaration.name.value])

/-- Nothing is left out. -/
def isComplete (declaration : WithDeclaration) : Bool := declaration.as?.isSome && declaration.body?.isSome

end WithDeclaration

/-- A WITH clause, perhaps with one AS too many behind it, and the statement that it is for. -/
structure WithStatement where
  header : Lexeme
  recursive? : Option Lexeme
  first : WithDeclaration
  /-- The other declarations, each with the comma before it. -/
  more : List (Lexeme × WithDeclaration)
  again? : Option Lexeme
  head : Lexeme
  rest : List Lexeme
  isHeader : header.reads "WITH" = true
  isRecursive : ∀ word ∈ recursive?, word.reads "RECURSIVE" = true
  commas : ∀ link ∈ more, link.1.isPunctuation "," = true
  isAs : ∀ again ∈ again?, again.reads "AS" = true
  /-- Where a parenthesis follows, the word is a name. -/
  word : head.isKeyword = true ∨ head.isName = true
  starts : head.normalized ∈ ["SELECT", "UPDATE", "DELETE", "REPLACE", "INSERT"]
  balanced : Balanced (sides rest)
  noWith : ∀ lexeme ∈ rest, lexeme.reads "WITH" = false

namespace WithStatement

def linked (more : List (Lexeme × WithDeclaration)) : List Lexeme := more.flatMap fun link => link.1 :: link.2.lexemes

/-- What comes after the last declaration. -/
def ending (statement : WithStatement) : List Lexeme := statement.again?.toList ++ statement.head :: statement.rest

def lexemes (statement : WithStatement) : List Lexeme :=
  statement.header :: (statement.recursive?.toList ++
    (statement.first.lexemes ++ (linked statement.more ++ statement.ending)))

def declarations (statement : WithStatement) : List WithDeclaration := statement.first :: statement.more.map (·.2)

end WithStatement

end QueryFacts

namespace QueryFacts.Proofs.WithStatements
open Parenthesis NestingRun Signs SelectList

/-- Neither a parenthesis nor a keyword that begins a WITH clause or the statement after one. -/
structure Quiet (lexeme : Lexeme) : Prop where
  flat : lexeme.side? = none
  word : lexeme.isKeyword = true → lexeme.normalized ≠ "WITH" ∧ Keyword.startsStatement lexeme.normalized = false

/-- Between the parts of its declarations, a WITH clause at the start of a statement. -/
structure Declaring (context : Context) : Prop where
  opened : context.opened = []
  headers : context.headers = [0]

section Contexts

variable {context : Context} {lexeme : Lexeme} {base extra : List Frame}

theorem quiet_of_other (flat : lexeme.side? = none) (noKeyword : lexeme.isKeyword = false) : Quiet lexeme :=
  ⟨flat, fun keyword => absurd (noKeyword.symm.trans keyword) Bool.false_ne_true⟩

theorem quiet_of_reads {word : String} (reads : lexeme.reads word = true)
    (other : word ≠ "WITH" ∧ Keyword.startsStatement word = false) : Quiet lexeme := by
  rw [Lexeme.reads, Bool.and_eq_true, beq_iff_eq] at reads
  exact ⟨side?_of_keyword reads.1, fun _ => reads.2 ▸ other⟩

theorem Declaring.step (declaring : Declaring context) (quiet : Quiet lexeme) : Declaring (context.step lexeme) := by
  obtain ⟨opened, headers⟩ := declaring
  unfold Context.step
  rw [quiet.flat]
  by_cases keyword : lexeme.isKeyword = true
  · obtain ⟨noWith, noStart⟩ := quiet.word keyword
    have same : context.headersAfter lexeme.normalized = context.headers := by
      rw [Context.headersAfter, if_neg (by rwa [beq_iff_eq]), noStart, Bool.false_and, if_neg Bool.false_ne_true]
    simp only [keyword, if_true]
    exact ⟨opened, same.trans headers⟩
  · simp only [keyword, Bool.false_eq_true, if_false]
    exact ⟨opened, headers⟩

theorem Declaring.after {part : List Lexeme} (declaring : Declaring context) (quiet : ∀ lexeme ∈ part, Quiet lexeme) :
    Declaring (context.after part) := by
  induction part generalizing context with
  | nil => exact declaring
  | cons lexeme part ih =>
    obtain ⟨here, later⟩ := List.forall_mem_cons.mp quiet
    exact ih (declaring.step here) later

/-- In a parenthesis of the clause, a lexeme opens and closes its own parentheses, and the clause stays open. -/
private theorem step_inside (inside : base ≠ []) (opened : context.opened = extra ++ base)
    (headers : context.headers = [0])
    (noWith : lexeme.reads "WITH" = false) (own : lexeme.side? = some .closing → extra ≠ []) :
    ∃ later : List Frame, (context.step lexeme).opened = later ++ base ∧
      (later.length : Int) = extra.length + rise lexeme.side? ∧ (context.step lexeme).headers = [0] := by
  have deep : 0 < context.opened.length := by
    rw [opened, List.length_append]
    exact Nat.add_pos_right _ (List.length_pos_iff.mpr inside)
  unfold Context.step
  split
  next side =>
    refine ⟨⟨context.parenKind, context.clause, context.outside⟩ :: extra, ?_, ?_, headers⟩
    · exact congrArg (_ :: ·) opened
    · rw [side, List.length_cons, Int.natCast_add]
      rfl
  next side =>
    obtain ⟨frame, outer, rfl⟩ := List.exists_cons_of_ne_nil (own side)
    rw [List.cons_append] at opened
    simp only [opened]
    refine ⟨outer, rfl, ?_, ?_⟩
    · rw [side, List.length_cons, Int.natCast_add]
      simp only [rise]
      omega
    · rw [headers, List.dropWhile_cons, decide_eq_false (Nat.not_lt_zero _), if_neg Bool.false_ne_true]
  next side =>
    by_cases keyword : lexeme.isKeyword = true
    · have other : (lexeme.normalized == "WITH") = false := by rwa [Lexeme.reads, keyword, Bool.true_and] at noWith
      have same : context.headersAfter lexeme.normalized = [0] := by
        have apart : (context.headers.head? == some context.opened.length) = false := by
          rw [headers, List.head?_cons, beq_eq_false_iff_ne]
          exact fun same => Nat.ne_of_lt deep (Option.some.inj same)
        rw [Context.headersAfter, other, if_neg Bool.false_ne_true, apart, Bool.and_false,
          if_neg Bool.false_ne_true, headers]
      simp only [keyword, if_true]
      exact ⟨extra, opened, by rw [side]; exact (Int.add_zero _).symm, same⟩
    · simp only [keyword, Bool.false_eq_true, if_false]
      exact ⟨extra, opened, by rw [side]; exact (Int.add_zero _).symm, headers⟩

private theorem after_inside (inside : base ≠ []) {part : List Lexeme}
    (noWith : ∀ lexeme ∈ part, lexeme.reads "WITH" = false)
    (above : ∀ count, 0 ≤ (extra.length : Int) + height ((sides part).take count))
    (opened : context.opened = extra ++ base)
    (headers : context.headers = [0]) : ∃ later : List Frame, (context.after part).opened = later ++ base ∧
      (later.length : Int) = extra.length + height (sides part) ∧ (context.after part).headers = [0] := by
  induction part generalizing context extra with
  | nil => exact ⟨extra, opened, (Int.add_zero _).symm, headers⟩
  | cons lexeme part ih =>
    obtain ⟨here, others⟩ := List.forall_mem_cons.mp noWith
    have grows (rest : Sides) : height (lexeme.side? :: rest) = rise lexeme.side? + height rest := by
      rw [← List.singleton_append, height_append, height_singleton]
    have own (side : lexeme.side? = some .closing) : extra ≠ [] := by
      rintro rfl
      have first := above 1
      rw [sides, List.map_cons, List.take_succ_cons, List.take_zero, height_singleton, side] at first
      exact absurd first (by decide)
    obtain ⟨next, opened, count, headers⟩ := step_inside inside opened headers here own
    obtain ⟨later, opened, total, headers⟩ := ih others (fun index => by
      have bound := above (index + 1)
      rw [sides, List.map_cons, List.take_succ_cons, grows] at bound
      rw [count, Int.add_assoc]
      exact bound) opened headers
    exact ⟨later, opened, by rw [total, count, Int.add_assoc, sides, sides, List.map_cons, grows], headers⟩

/-- After a group the clause goes on. -/
theorem Declaring.group (declaring : Declaring context) (group : Group) : Declaring (context.after group.lexemes) := by
  have opens := side?_eq_opening.mpr group.opens
  have closes := side?_eq_closing.mpr group.closes
  have entered : (context.step group.opening).opened =
      [] ++ [⟨context.parenKind, context.clause, context.outside⟩] := by
    simp only [Context.step, opens, declaring.opened, List.nil_append]
  have headers : (context.step group.opening).headers = [0] := by
    simp only [Context.step, opens, declaring.headers]
  have above (count : Nat) : 0 ≤ (([] : List Frame).length : Int) + height ((sides group.inner).take count) := by
    rw [List.length_nil, Int.ofNat_zero, Int.zero_add]
    exact group.balanced.before count
  obtain ⟨later, opened, total, headers⟩ := after_inside (List.cons_ne_nil _ _) group.noWith above entered headers
  rw [group.balanced.whole] at total
  obtain rfl : later = [] := List.length_eq_zero_iff.mp (Int.ofNat_eq_zero.mp total)
  rw [Group.lexemes, Context.after, List.foldl_cons, List.foldl_append]
  change Declaring (((context.step group.opening).after group.inner).step group.closing)
  generalize (context.step group.opening).after group.inner = inside at opened headers
  rw [List.nil_append] at opened
  simp only [Context.step, closes, opened]
  exact ⟨rfl, by rw [headers]; rfl⟩

/-- A parenthesis behind a name is a list of columns. -/
theorem Declaring.columns (declaring : Declaring context) {name : Lexeme} (last : context.last = some name)
    (isName : name.isName = true) : context.parenKind = .withColumns := by
  have kind : name.kind = .name := eq_of_beq isName
  simp [Context.parenKind, last, declaring.opened, declaring.headers, Lexeme.isKeyword, kind]

/-- A parenthesis behind AS is a body. -/
theorem Declaring.body (declaring : Declaring context) {as : Lexeme} (last : context.last = some as)
    (isAs : as.reads "AS" = true) : context.parenKind = .withQuery := by
  rw [Lexeme.reads, Bool.and_eq_true, beq_iff_eq] at isAs
  have noSubquery : Keyword.precedesSubquery "AS" = false := by decide
  simp [Context.parenKind, last, declaring.opened, declaring.headers, isAs.1, isAs.2, noSubquery]

theorem quiet_name {name : Lexeme} (isName : name.isName = true) : Quiet name := by
  have kind : name.kind = .name := eq_of_beq isName
  exact quiet_of_other (Spots.side?_of_name isName) (by simp [Lexeme.isKeyword, kind])

theorem quiet_dot {dot : Lexeme} (isDot : dot.isDot = true) : Quiet dot := by
  have kind : dot.kind = .dot := eq_of_beq isDot
  exact quiet_of_other (by simp [Lexeme.side?, Lexeme.isPunctuation, kind]) (by simp [Lexeme.isKeyword, kind])

theorem quiet_comma {comma : Lexeme} (isComma : comma.isPunctuation "," = true) : Quiet comma := by
  rw [Lexeme.isPunctuation, Bool.and_eq_true, beq_iff_eq, beq_iff_eq] at isComma
  obtain ⟨kind, value⟩ := isComma
  refine quiet_of_other ?_ (by simp [Lexeme.isKeyword, kind])
  rw [Lexeme.side?, Lexeme.isPunctuation, Lexeme.isPunctuation, value]
  simp

end Contexts

end QueryFacts.Proofs.WithStatements
