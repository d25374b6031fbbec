import QueryFacts.Proofs.Acceptance
import QueryFacts.Proofs.WithStatements.Reader

/-! The WITH clause of a statement as a whole. It declares the bodies and the lists of columns that
are written in it, whatever the bodies are, and it is refused where one is left out. -/

namespace QueryFacts

namespace WithStatement

/-- Nothing is left out, and nothing comes between the clause and its statement. -/
def isComplete (statement : WithStatement) : Bool :=
  statement.declarations.all (·.isComplete) && statement.again?.isNone

/-- The names that are declared, with their bodies. -/
def bodies (statement : WithStatement) : List (String × String) := statement.declarations.filterMap (·.body)

/-- The lists of columns of declarations of which the first begins at a position. -/
def columnListsFrom (start : Nat) (first : WithDeclaration) : List (Lexeme × WithDeclaration) → List WithColumnList
  | [] => (first.columnList? start).toList
  | link :: more => (first.columnList? start).toList ++ columnListsFrom (start + first.lexemes.length + 1) link.2 more

def columnLists (statement : WithStatement) : List WithColumnList :=
  columnListsFrom (1 + statement.recursive?.toList.length) statement.first statement.more

end WithStatement

end QueryFacts

namespace QueryFacts.Proofs.WithStatements
open Parenthesis NestingRun Signs Spots WithClause

section Declared

/-- What declarations declare, of which the first begins at a position. -/
def declareAll (start : Nat) (clause : WithClause) (first : WithDeclaration) :
    List (Lexeme × WithDeclaration) → WithClause
  | [] => declare start clause first
  | link :: more => declareAll (start + first.lexemes.length + 1) (declare start clause first) link.2 more

variable (start : Nat) (clause : WithClause) (first : WithDeclaration) (more : List (Lexeme × WithDeclaration))

private theorem bodies_declare : (declare start clause first).bodies =
    first.body.toList.foldl (fun map pair => map.insertNew pair.1 pair.2) clause.bodies := by
  rw [declare]
  cases first.body <;> rfl

theorem bodies_declareAll : (declareAll start clause first more).bodies =
    ((first :: more.map (·.2)).filterMap (·.body)).foldl
        (fun map pair => map.insertNew pair.1 pair.2) clause.bodies := by
  induction more generalizing start clause first with
  | nil =>
    rw [declareAll, bodies_declare, List.map_nil, List.filterMap_cons]
    cases first.body <;> rfl
  | cons link more ih =>
    have pairs : (first :: link.2 :: more.map (·.2)).filterMap (·.body) =
        first.body.toList ++ (link.2 :: more.map (·.2)).filterMap (·.body) := by
      rw [List.filterMap_cons]
      cases first.body <;> rfl
    rw [declareAll, ih, bodies_declare, List.map_cons, pairs, List.foldl_append]

theorem columnLists_declareAll :
    (declareAll start clause first more).columnLists =
        clause.columnLists ++ WithStatement.columnListsFrom start first more := by
  induction more generalizing start clause first with
  | nil => rfl
  | cons link more ih =>
    rw [declareAll, ih, WithStatement.columnListsFrom, ← List.append_assoc]
    rfl

end Declared

section Reading

variable {limits : Limits} {lexemes : List Lexeme} {sequence : TokenSequence} {before after : List Lexeme}
  {first : WithDeclaration} {more : List (Lexeme × WithDeclaration)}

theorem declaration_stays (declaring : Declaring ((Context.start lexemes).after before.reverse))
    (declaration : WithDeclaration) :
    Declaring ((Context.start lexemes).after (declaration.lexemes.reverse ++ before).reverse) := by
  let front := declaration.columnsLexemes.reverse ++ (declaration.nameLexemes.reverse ++ before)
  have behind : Declaring ((Context.start lexemes).after (declaration.as?.toList.reverse ++ front).reverse) := by
    cases word : declaration.as? with
    | none => exact columns_stays declaring declaration
    | some as =>
      have quiet := quiet_of_reads (declaration.isAs as word) (by decide)
      exact (step_stays (columns_stays declaring declaration) quiet).1
  have whole : Declaring ((Context.start lexemes).after
      (declaration.bodyLexemes.reverse ++ (declaration.as?.toList.reverse ++ front)).reverse) := by
    rw [WithDeclaration.bodyLexemes]
    cases declaration.body? with
    | none => exact behind
    | some body => exact group_stays behind body
  have parts : declaration.lexemes.reverse ++ before =
      declaration.bodyLexemes.reverse ++ (declaration.as?.toList.reverse ++ front) := by
    simp [WithDeclaration.lexemes, front]
  rwa [parts]

/-- What comes before the next declaration, and that the clause is open there. -/
theorem next_declares {link : Lexeme × WithDeclaration}
    (whole : lexemes = before.reverse ++ (first.lexemes ++ (WithStatement.linked (link :: more) ++ after)))
    (declaring : Declaring ((Context.start lexemes).after before.reverse)) (comma : link.1.isPunctuation "," = true) :
    let front := link.1 :: (first.lexemes.reverse ++ before)
    lexemes = front.reverse ++ (link.2.lexemes ++ (WithStatement.linked more ++ after)) ∧
      Declaring ((Context.start lexemes).after front.reverse) ∧ (∀ last ∈ front.head?, last.isDot = false) ∧
      front.length = before.length + first.lexemes.length + 1 := by
  intro front
  refine ⟨by simp [whole, front, WithStatement.linked],
    (step_stays (declaration_stays declaring first) (quiet_comma comma)).1, ?_, ?_⟩
  · rintro last ⟨⟩
    exact undotted_mark comma
  · simp only [front, List.length_cons, List.length_append, List.length_reverse]
    omega

/-- A declaration begins with a name. -/
theorem begins_name (declaration : WithDeclaration) (rest : List Lexeme) (word : String) :
    (declaration.lexemes ++ rest).head?.any (Lexeme.reads word) = false := by
  have noWord {name : Lexeme} (isName : name.isName = true) : name.reads word = false := by
    have kind : name.kind = .name := eq_of_beq isName
    rw [Lexeme.reads, Lexeme.isKeyword, kind]
    rfl
  have qualifier := declaration.isQualifier
  rw [WithDeclaration.lexemes, WithDeclaration.nameLexemes]
  cases qualifiers : declaration.qualifiers with
  | nil => exact noWord declaration.isName
  | cons part others => exact noWord (qualifier part (qualifiers ▸ List.mem_cons_self)).1

theorem ends_of_comma {comma : Lexeme} (isComma : comma.isPunctuation "," = true) (rest : List Lexeme) :
    Ends (comma :: rest) where
  flat := eq_false_of_ne_true (side?_eq_none.mp (quiet_comma isComma).flat).1
  undotted := undotted_mark isComma
  again := .inr (not_word_of_mark isComma "AS")

theorem refuses_of_refused {clause : WithClause} {start : Cursor}
    (refused : Refuses (readQuery clause start)) (count : Nat) :
    Refuses (readQueries clause (count + 1) start) := by
  obtain ⟨position, fault, read⟩ := refused
  rw [readQueries, read]
  exact ⟨position, fault, rfl⟩

variable (annotated : annotate limits lexemes = .ok sequence)
include annotated

theorem readQueries_complete
    (whole : lexemes = before.reverse ++ (first.lexemes ++ (WithStatement.linked more ++ after)))
    (declaring : Declaring ((Context.start lexemes).after before.reverse))
    (undotted : ∀ last ∈ before.head?, last.isDot = false)
    (complete : ∀ declaration ∈ first :: more.map (·.2), declaration.isComplete = true)
    (commas : ∀ link ∈ more, link.1.isPunctuation "," = true) (noComma : after.head?.any (·.isPunctuation ",") = false)
    (noAs : after.head?.any (Lexeme.reads "AS") = false) (clause : WithClause) {count : Nat}
    (enough : more.length < count) :
    readQueries clause count (sequence.cursor before.length) = .ok (declareAll before.length clause first more) := by
  induction more generalizing first before clause count with
  | nil =>
    obtain ⟨count, rfl⟩ := Nat.exists_eq_add_one_of_ne_zero (Nat.ne_of_gt enough)
    rw [WithStatement.linked, List.flatMap_nil, List.nil_append] at whole
    have read := readQuery_complete annotated whole declaring undotted (complete first List.mem_cons_self) clause
    rw [noComma, if_neg Bool.false_ne_true, noAs, if_neg Bool.false_ne_true] at read
    rw [readQueries, read]
    rfl
  | cons link more ih =>
    obtain ⟨count, rfl⟩ := Nat.exists_eq_add_one_of_ne_zero (Nat.ne_of_gt (Nat.zero_lt_of_lt enough))
    obtain ⟨comma, others⟩ := List.forall_mem_cons.mp commas
    obtain ⟨here, later⟩ := List.forall_mem_cons.mp complete
    obtain ⟨rest, declares, begins, place⟩ := next_declares whole declaring comma
    have read := readQuery_complete annotated whole declaring undotted here clause
    have follows : (WithStatement.linked (link :: more) ++ after).head?.any (·.isPunctuation ",") = true := comma
    rw [follows, if_pos rfl, ← place] at read
    rw [readQueries, read]
    have declared :=
      ih rest declares begins later others (declare before.length clause first) (Nat.lt_of_succ_lt_succ enough)
    rw [place] at declared
    rw [place]
    exact declared

theorem readQueries_refuses
    (whole : lexemes = before.reverse ++ (first.lexemes ++ (WithStatement.linked more ++ after)))
    (declaring : Declaring ((Context.start lexemes).after before.reverse))
    (undotted : ∀ last ∈ before.head?, last.isDot = false)
    (commas : ∀ link ∈ more, link.1.isPunctuation "," = true) (ends : Ends after)
    (wrong : (∃ declaration ∈ first :: more.map (·.2), declaration.isComplete = false) ∨
      after.head?.any (Lexeme.reads "AS") = true) (clause : WithClause) {count : Nat} (enough : more.length < count) :
    Refuses (readQueries clause count (sequence.cursor before.length)) := by
  induction more generalizing first before clause count with
  | nil =>
    obtain ⟨count, rfl⟩ := Nat.exists_eq_add_one_of_ne_zero (Nat.ne_of_gt enough)
    rw [WithStatement.linked, List.flatMap_nil, List.nil_append] at whole
    cases complete : first.isComplete with
    | false =>
      exact refuses_of_refused (readQuery_incomplete annotated whole declaring undotted complete ends clause) count
    | true =>
      -- One more AS is behind the last body.
      have again : after.head?.any (Lexeme.reads "AS") = true := by
        refine wrong.resolve_left ?_
        rintro ⟨declaration, member, incomplete⟩
        rw [List.map_nil, List.mem_singleton] at member
        rw [member, complete] at incomplete
        cases incomplete
      have noComma : after.head?.any (·.isPunctuation ",") = false := by
        cases after with
        | nil => rfl
        | cons as rest => exact not_mark_of_reads again ","
      have read := readQuery_complete annotated whole declaring undotted complete clause
      rw [noComma, if_neg Bool.false_ne_true, again, if_pos rfl] at read
      exact refuses_of_refused ⟨_, _, read⟩ count
  | cons link more ih =>
    obtain ⟨count, rfl⟩ := Nat.exists_eq_add_one_of_ne_zero (Nat.ne_of_gt (Nat.zero_lt_of_lt enough))
    obtain ⟨comma, others⟩ := List.forall_mem_cons.mp commas
    cases complete : first.isComplete with
    | false =>
      exact refuses_of_refused
        (readQuery_incomplete annotated whole declaring undotted complete (ends_of_comma comma _) clause) count
    | true =>
      obtain ⟨rest, declares, begins, place⟩ := next_declares whole declaring comma
      have read := readQuery_complete annotated whole declaring undotted complete clause
      have follows : (WithStatement.linked (link :: more) ++ after).head?.any (·.isPunctuation ",") = true := comma
      rw [follows, if_pos rfl, ← place] at read
      have wrong : (∃ declaration ∈ link.2 :: more.map (·.2), declaration.isComplete = false) ∨
          after.head?.any (Lexeme.reads "AS") = true := by
        refine wrong.imp_left ?_
        rintro ⟨declaration, member, incomplete⟩
        refine ⟨declaration, (List.mem_cons.mp member).resolve_left ?_, incomplete⟩
        rintro rfl
        exact Bool.false_ne_true (incomplete.symm.trans complete)
      rw [readQueries, read]
      exact ih rest declares begins others wrong _ (Nat.lt_of_succ_lt_succ enough)

end Reading

section Statements

/-- A part of a statement outside which nothing in it is felt. -/
structure Contained (part : List Lexeme) : Prop where
  balanced : Balanced (sides part)
  noWith : ∀ lexeme ∈ part, lexeme.reads "WITH" = false

theorem Contained.append {first rest : List Lexeme} (left : Contained first) (right : Contained rest) :
    Contained (first ++ rest) where
  balanced := by
    rw [Selections.sides_append]
    exact Selections.balanced_append left.balanced right.balanced
  noWith := List.forall_mem_append.mpr ⟨left.noWith, right.noWith⟩

theorem contained_flat {part : List Lexeme} (flat : ∀ lexeme ∈ part, lexeme.side? = none)
    (noWith : ∀ lexeme ∈ part, lexeme.reads "WITH" = false) : Contained part :=
  ⟨(Selections.shallow_level flat 0).balanced, noWith⟩

theorem contained_quiet {part : List Lexeme} (quiet : ∀ lexeme ∈ part, Quiet lexeme) : Contained part :=
  contained_flat (fun lexeme member => (quiet lexeme member).flat) fun lexeme member => by
    rw [Lexeme.reads, Bool.and_eq_false_iff, ← Bool.not_eq_true, beq_eq_false_iff_ne]
    exact (Decidable.em _).symm.imp_right fun keyword => ((quiet lexeme member).word keyword).1

theorem contained_group (group : Group) : Contained group.lexemes where
  balanced := by
    have opens := side?_eq_opening.mpr group.opens
    have closes := side?_eq_closing.mpr group.closes
    have wrapped := Selections.balanced_wrap group.balanced
    simpa only [Group.lexemes, sides, List.map_cons, List.map_append, List.map_nil, opens, closes] using wrapped
  noWith := by
    refine List.forall_mem_cons.mpr ⟨not_word_of_mark group.opens "WITH", List.forall_mem_append.mpr ⟨group.noWith, ?_⟩⟩
    exact List.forall_mem_singleton.mpr (not_word_of_mark group.closes "WITH")

theorem contained_declaration (declaration : WithDeclaration) : Contained declaration.lexemes := by
  have group (group? : Option Group) : Contained (group?.elim [] Group.lexemes) := by
    cases group? with
    | none => exact contained_quiet (by simp)
    | some group => exact contained_group group
  refine (contained_quiet (quiet_nameLexemes declaration)).append
    ((group _).append ((contained_quiet ?_).append (group _)))
  intro as member
  exact quiet_of_reads (declaration.isAs as (Option.mem_toList.mp member)) (by decide)

theorem contained_linked {more : List (Lexeme × WithDeclaration)}
    (commas : ∀ link ∈ more, link.1.isPunctuation "," = true) :
    Contained (WithStatement.linked more) := by
  induction more with
  | nil => exact contained_quiet (by simp [WithStatement.linked])
  | cons link more ih =>
    obtain ⟨comma, others⟩ := List.forall_mem_cons.mp commas
    have isQuiet := contained_quiet (List.forall_mem_singleton.mpr (quiet_comma comma))
    exact (isQuiet.append (contained_declaration link.2)).append (ih others)

variable (statement : WithStatement)

theorem head_not_mark (text : String) : statement.head.isPunctuation text = false := by
  rcases statement.word.imp eq_of_beq eq_of_beq with kind | kind <;> rw [Lexeme.isPunctuation, kind] <;> rfl

theorem head_undotted : statement.head.isDot = false := by
  rcases statement.word.imp eq_of_beq eq_of_beq with kind | kind <;> rw [Lexeme.isDot, kind] <;> rfl

theorem head_not_word {word : String} (other : word ∉ ["SELECT", "UPDATE", "DELETE", "REPLACE", "INSERT"]) :
    statement.head.reads word = false := by
  rw [Lexeme.reads, Bool.and_eq_false_iff, beq_eq_false_iff_ne]
  exact .inr fun same => other (same ▸ statement.starts)

theorem contained_ending : Contained statement.ending := by
  have again : Contained statement.again?.toList :=
    contained_quiet fun as member => quiet_of_reads (statement.isAs as (Option.mem_toList.mp member)) (by decide)
  have flat : statement.head.side? = none :=
    side?_eq_none.mpr ⟨ne_true_of_eq_false (head_not_mark statement "("),
      ne_true_of_eq_false (head_not_mark statement ")")⟩
  have head : Contained [statement.head] :=
    contained_flat
      (List.forall_mem_singleton.mpr flat) (List.forall_mem_singleton.mpr (head_not_word statement (by decide)))
  exact again.append (head.append ⟨statement.balanced, statement.noWith⟩)

theorem contained_tail : Contained (statement.recursive?.toList ++
    (statement.first.lexemes ++ (WithStatement.linked statement.more ++ statement.ending))) := by
  have recursive : Contained statement.recursive?.toList :=
    contained_quiet fun word member =>
      quiet_of_reads (statement.isRecursive word (Option.mem_toList.mp member)) (by decide)
  exact recursive.append
    ((contained_declaration _).append ((contained_linked statement.commas).append (contained_ending statement)))

theorem ends_ending : Ends statement.ending := by
  rw [WithStatement.ending]
  cases word : statement.again? with
  | none => exact ⟨head_not_mark statement "(", head_undotted statement, .inr (head_not_word statement (by decide))⟩
  | some as =>
    have isAs := statement.isAs as word
    exact ⟨not_mark_of_reads isAs "(", undotted_word isAs, .inl (head_not_mark statement "(")⟩

variable {limits : Limits} {sequence : TokenSequence}

theorem annotate_statement (shallow : ∀ count, heightAt (sides statement.lexemes) count ≤ limits.maxNestingDepth) :
    ∃ sequence, annotate limits statement.lexemes = .ok sequence := by
  have keyword : statement.header.isKeyword = true := (Bool.and_eq_true_iff.mp statement.isHeader).1
  have header : Balanced (sides [statement.header]) :=
    (Selections.shallow_level (List.forall_mem_singleton.mpr (NestingRun.side?_of_keyword keyword)) 0).balanced
  exact Acceptance.annotate_accepts_iff.mpr
    ⟨Selections.balanced_append header (contained_tail statement).balanced, shallow⟩

variable (annotated : annotate limits statement.lexemes = .ok sequence)
include annotated

/-- The statement has no other header of a WITH clause. -/
theorem headers_eq : sequence.cursors.filter isHeader = [sequence.cursor 0] := by
  let tail :=
    statement.recursive?.toList ++
      (statement.first.lexemes ++ (WithStatement.linked statement.more ++ statement.ending))
  have size : sequence.size = tail.length + 1 := size_of_annotated annotated
  have header : isHeader (sequence.cursor 0) = true := by
    have shows := shows_cursor annotated 0
    rw [isHeader, shows.isWord, previous_of_first sequence (by omega)]
    exact Bool.and_eq_true_iff.mpr ⟨statement.isHeader, rfl⟩
  have others : ((List.range tail.length).map (sequence.cursor ·.succ)).filter isHeader = [] := by
    refine List.filter_eq_nil_iff.mpr fun cursor member => ?_
    obtain ⟨index, inside, rfl⟩ := List.mem_map.mp member
    have shows : Shows (sequence.cursor index.succ) tail[index]? := shows_cursor annotated index.succ
    rw [isHeader, shows.isWord, List.getElem?_eq_getElem (List.mem_range.mp inside), Option.any_some,
      (contained_tail statement).noWith _ (List.getElem_mem _), Bool.false_and]
    exact Bool.false_ne_true
  rw [Cursor.cursors_eq_map, size, List.range_succ_eq_map, List.map_cons, List.map_map, List.filter_cons_of_pos header]
  exact congrArg (sequence.cursor 0 :: ·) others

/-- What comes before the first declaration. -/
theorem readHeader_eq (clause : WithClause) :
    let front := statement.recursive?.toList.reverse ++ [statement.header]
    readHeader clause (sequence.cursor 0) = readQueries clause sequence.size (sequence.cursor front.length) ∧
      Declaring ((Context.start statement.lexemes).after front.reverse) ∧
          (∀ last ∈ front.head?, last.isDot = false) := by
  intro front
  have keyword : statement.header.isKeyword = true ∧ statement.header.normalized = "WITH" := by
    simpa only [Lexeme.reads, Bool.and_eq_true, beq_iff_eq] using statement.isHeader
  have declaring : Declaring ((Context.start statement.lexemes).after [statement.header].reverse) := by
    change Declaring ((Context.start statement.lexemes).step statement.header)
    simp only [Context.step, NestingRun.side?_of_keyword keyword.1, keyword.1, keyword.2, if_true]
    exact ⟨rfl, rfl⟩
  have next : Shows (sequence.cursor 0).next
      (statement.recursive?.toList ++
          (statement.first.lexemes ++ (WithStatement.linked statement.more ++ statement.ending))).head? :=
    shows_next annotated (show statement.lexemes = [].reverse ++ statement.header :: _ from rfl)
  cases word : statement.recursive? with
  | none =>
    have noWord : (sequence.cursor 0).next.isWord "RECURSIVE" = false := by
      rw [next.isWord, word]
      exact begins_name statement.first _ "RECURSIVE"
    have same : front = [statement.header] := by simp [front, word]
    rw [same, readHeader, noWord, if_neg Bool.false_ne_true, Cursor.next_cursor]
    exact ⟨rfl, declaring, by rintro last ⟨⟩; exact undotted_word statement.isHeader⟩
  | some recursive =>
    have isRecursive := statement.isRecursive recursive word
    have isWord : (sequence.cursor 0).next.isWord "RECURSIVE" = true := by
      rw [next.isWord, word]
      exact isRecursive
    have same : front = [recursive, statement.header] := by simp [front, word]
    rw [same, readHeader, isWord, if_pos rfl, Cursor.next_cursor, Cursor.next_cursor]
    refine ⟨rfl, (step_stays declaring (quiet_of_reads isRecursive (by decide))).1, ?_⟩
    rintro last ⟨⟩
    exact undotted_word isRecursive

theorem ofTokens_eq : ∃ front : List Lexeme, front.length = 1 + statement.recursive?.toList.length ∧
    statement.lexemes = front.reverse ++
      (statement.first.lexemes ++ (WithStatement.linked statement.more ++ statement.ending)) ∧
    Declaring ((Context.start statement.lexemes).after front.reverse) ∧ (∀ last ∈ front.head?, last.isDot = false) ∧
    WithClause.ofTokens sequence = readQueries {} sequence.size (sequence.cursor front.length) := by
  obtain ⟨read, declaring, undotted⟩ := readHeader_eq statement annotated {}
  refine ⟨_, ?_, ?_, declaring, undotted, ?_⟩
  · simp [Nat.add_comm]
  · simp [WithStatement.lexemes]
  · rw [WithClause.ofTokens, headers_eq statement annotated, List.foldlM_cons, read]
    cases readQueries {} sequence.size _ <;> rfl

omit annotated in
theorem length_linked (more : List (Lexeme × WithDeclaration)) : more.length ≤ (WithStatement.linked more).length := by
  induction more with
  | nil => exact Nat.le_refl 0
  | cons link more ih =>
    have parts : WithStatement.linked (link :: more) = link.1 :: (link.2.lexemes ++ WithStatement.linked more) := rfl
    rw [parts, List.length_cons, List.length_cons, List.length_append]
    omega

theorem enough_count : statement.more.length < sequence.size := by
  have fewer := length_linked statement.more
  rw [size_of_annotated annotated]
  simp only [WithStatement.lexemes, List.length_cons, List.length_append]
  omega

omit annotated in
theorem names_of_complete (complete : ∀ declaration ∈ statement.declarations, declaration.isComplete = true) :
    statement.bodies.map (·.1) = statement.declarations.map (·.fullName) := by
  have name (declaration : WithDeclaration) (member : declaration ∈ statement.declarations) :
      declaration.body.map (·.1) = some declaration.fullName := by
    have body := (Bool.and_eq_true_iff.mp (complete declaration member)).2
    obtain ⟨body, group⟩ := Option.isSome_iff_exists.mp body
    rw [WithDeclaration.body, group]
    rfl
  rw [WithStatement.bodies, List.map_filterMap, List.filterMap_congr name]
  exact congrFun List.filterMap_eq_map _

end Statements

/-- A WITH clause is read as it is written. Its names are the dotted names of its declarations, each once, and
each has the body of its first declaration, respaced; a list of columns holds the names in it. A clause from
which an AS or a body is missing, or behind which there is one more AS, is malformed. -/
theorem ofTokens_with (statement : WithStatement) {limits : Limits} {text : List Char}
    (read : Lexeme.ofText text = .ok statement.lexemes) (few : statement.lexemes.length ≤ limits.maxTokens)
    (shallow : ∀ count, heightAt (sides statement.lexemes) count ≤ limits.maxNestingDepth) :
    ∃ sequence, tokenize limits text = .ok sequence ∧
      (statement.isComplete = true → ∃ clause, WithClause.ofTokens sequence = .ok clause ∧
        clause.names = distinct (statement.declarations.map (·.fullName)) ∧
        (∀ name, clause.bodies.find? name = statement.bodies.lookup name) ∧
        clause.columnLists = statement.columnLists) ∧
      (statement.isComplete = false → Refuses (WithClause.ofTokens sequence)) := by
  obtain ⟨sequence, annotated⟩ := annotate_statement statement shallow
  refine ⟨sequence, tokenize_ok_iff.mpr ⟨_, read, few, annotated⟩, ?_⟩
  obtain ⟨front, place, whole, declaring, undotted, same⟩ := ofTokens_eq statement annotated
  have enough := enough_count statement annotated
  have ends := ends_ending statement
  rw [same]
  constructor
  · intro complete
    obtain ⟨each, noAgain⟩ := Bool.and_eq_true_iff.mp complete
    have each := List.all_eq_true.mp each
    have follows : statement.ending = statement.head :: statement.rest := by
      rw [WithStatement.ending, Option.isNone_iff_eq_none.mp noAgain]
      rfl
    have noComma : statement.ending.head?.any (·.isPunctuation ",") = false := by
      rw [follows]
      exact head_not_mark statement ","
    have noAs : statement.ending.head?.any (Lexeme.reads "AS") = false := by
      rw [follows]
      exact head_not_word statement (by decide)
    have bodies :
        (declareAll front.length {} statement.first statement.more).bodies = NameMap.ofFirstPairs statement.bodies :=
      bodies_declareAll _ _ _ _
    refine ⟨_,
      readQueries_complete annotated whole declaring undotted each statement.commas noComma noAs {} enough, ?_, ?_, ?_⟩
    · rw [names, bodies, NameMap.keys_ofFirstPairs, names_of_complete statement each]
    · intro name
      rw [bodies, NameMap.find?_ofFirstPairs]
    · rw [columnLists_declareAll, place]
      rfl
  · intro incomplete
    refine readQueries_refuses annotated whole declaring undotted statement.commas ends ?_ {} enough
    rcases Bool.and_eq_false_iff.mp incomplete with wrong | again
    · obtain ⟨declaration, member, wrong⟩ := List.all_eq_false.mp wrong
      exact .inl ⟨declaration, member, eq_false_of_ne_true wrong⟩
    · obtain ⟨as, word⟩ := Option.isSome_iff_exists.mp (Option.isNone_eq_false_iff.mp again)
      rw [WithStatement.ending, word]
      exact .inr (statement.isAs as word)

private def sampleBody (value : String) : Group where
  opening := ⟨.punctuation, "(", none, true⟩
  inner := [⟨.keyword, "SELECT", none, false⟩, ⟨.integer, value, none, true⟩]
  closing := ⟨.punctuation, ")", none, false⟩
  opens := by decide
  closes := by decide
  balanced := (Selections.shallow_level (by simp; exact ⟨rfl, rfl⟩) 0).balanced
  noWith := by simp; exact ⟨by decide, rfl⟩

/-- `WITH RECURSIVE t.a (c) AS (SELECT 1), b AS (SELECT 2) DELETE FROM b` -/
def sample : WithStatement where
  header := ⟨.keyword, "WITH", none, true⟩
  recursive? := some ⟨.keyword, "RECURSIVE", none, true⟩
  first := {
    qualifiers := [(⟨.name, "t", none, true⟩, ⟨.dot, ".", none, false⟩)]
    name := ⟨.name, "a", none, false⟩
    columns? := some ⟨⟨.punctuation, "(", none, true⟩, [⟨.name, "c", none, false⟩], ⟨.punctuation, ")", none, false⟩,
      by decide, by decide, (Selections.shallow_level (by decide) 0).balanced, by decide⟩
    as? := some ⟨.keyword, "AS", none, true⟩
    body? := some (sampleBody "1")
    isQualifier := by decide
    isName := by decide
    undotted := by simp; decide
    isAs := by simp; decide }
  more := [(⟨.punctuation, ",", none, false⟩, {
    qualifiers := []
    name := ⟨.name, "b", none, true⟩
    columns? := none
    as? := some ⟨.keyword, "AS", none, true⟩
    body? := some (sampleBody "2")
    isQualifier := by simp
    isName := by decide
    undotted := by simp
    isAs := by simp; decide })]
  again? := none
  head := ⟨.keyword, "DELETE", none, true⟩
  rest := [⟨.keyword, "FROM", none, true⟩, ⟨.name, "b", none, true⟩]
  isHeader := by decide
  isRecursive := by simp; decide
  commas := by simp; decide
  isAs := by simp
  word := by decide
  starts := by decide
  balanced := (Selections.shallow_level (by decide) 0).balanced
  noWith := by decide

theorem ofTokens_with_two :
    ∃ sequence, tokenize {} "WITH RECURSIVE t.a (c) AS (SELECT 1), b AS (SELECT 2) DELETE FROM b".toList =
      .ok sequence ∧
      ∃ clause, WithClause.ofTokens sequence = .ok clause ∧ clause.names = ["t.a", "b"] ∧
        clause.bodies.find? "b" = some "SELECT 2" ∧ clause.columnLists = [⟨"t.a", [6]⟩] := by
  have few : (sides sample.lexemes).length ≤ 512 := by decide
  have shallow (count : Nat) : heightAt (sides sample.lexemes) count ≤ (512 : Nat) := by
    have bound := heightAt_le_length (sides sample.lexemes) count
    omega
  obtain ⟨sequence, tokens, complete, -⟩ := ofTokens_with sample
    (show Lexeme.ofText "WITH RECURSIVE t.a (c) AS (SELECT 1), b AS (SELECT 2) DELETE FROM b".toList =
      .ok _ by decide +kernel)
    (by decide : _ ≤ ({} : Limits).maxTokens) shallow
  obtain ⟨clause, read, names, bodies, lists⟩ := complete (by decide)
  refine ⟨sequence, tokens, clause, read, names.trans (by decide), (bodies "b").trans (by decide),
    lists.trans (by decide)⟩

end QueryFacts.Proofs.WithStatements
