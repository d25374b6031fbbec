import QueryFacts.Proofs.Clauses
import QueryFacts.Proofs.FromClauses

/-! What the two passes for tables find in a part of a statement: the tables that its names are,
and the aliases that they give. They look for names only where the last keyword comes before
tables, so that whole clauses hold nothing for them. -/

namespace QueryFacts
open Text

/-- Neither pass finds anything at the spot. -/
def Spot.Silent (spot : Spot) : Prop := spot.table? = none ∧ ∀ tables, spot.alias? tables = none

/-- What the passes find in a part of a statement. -/
structure Finds (tables : List String) (context : Context) (before part after : List Lexeme) (names : List String)
    (aliases : List (String × String)) : Prop where
  names : (spots context before part after).filterMap Spot.table? = names
  aliases : (spots context before part after).filterMap (Spot.alias? tables) = aliases

/-- The normal form of a keyword before tables, which no name has. -/
structure IsTableWord (word : String) : Prop where
  tables : Keyword.precedesTables word = true
  unspelled : ∀ name, IsPlainName name → Keyword.normalForm name ≠ word

/-- A clause in which names are tables. -/
structure Context.Lists (context : Context) (word : String) : Prop where
  clause : context.clause = some word
  outside : context.outside = false
  word : IsTableWord word

theorem Context.Lists.resumes {context later : Context} {word : String} (lists : context.Lists word)
    (resumes : context.Resumes later) : later.Lists word :=
  ⟨resumes.clause.trans lists.clause, resumes.outside.trans lists.outside, lists.word⟩

/-- An item of the clause may begin after the lexeme. -/
structure Lexeme.Introduces (word : String) (lexeme : Lexeme) : Prop where
  noDot : lexeme.isDot = false
  noWord : lexeme.reads "AS" = false ∧ lexeme.reads "WITH" = false
  noClosing : lexeme.isPunctuation ")" = false
  starts : lexeme.normalized = word ∨ lexeme.reads "EXISTS" = true ∨ lexeme.isMark = true

/-- A plain name, or several of them with dots between them. -/
def IsDottedName (text : String) : Prop :=
  ∃ first more, (∀ part ∈ first :: more, IsPlainName part) ∧ text = String.intercalate "." (first :: more)

end QueryFacts

namespace QueryFacts.Proofs.TableSpots
open Text Lexeme PlainText SelectList ColumnListStatement Selections JoinKeywords FromClauses Clauses Spots

section Silence

variable {spot : Spot}

theorem silent_of_other (other : spot.here.isName = false) :
    spot.Silent := by simp [Spot.Silent, Spot.table?, Spot.alias?, other]

theorem silent_of_clause (quiet : Keyword.precedesTables spot.clause = false) : spot.Silent := by
  simp [Spot.Silent, Spot.table?, Spot.alias?, quiet]

/-- A name before a dot is the beginning of another. -/
theorem silent_of_dot (dotted : spot.next.any isDot = true) : spot.Silent := by
  simp [Spot.Silent, Spot.table?, Spot.alias?, dotted]

end Silence

end QueryFacts.Proofs.TableSpots

namespace QueryFacts.Finds
open Proofs.TableSpots

variable {tables : List String} {context : Context} {before after first rest : List Lexeme}

theorem append {names names' : List String} {aliases aliases' : List (String × String)}
    (left : Finds tables context before first (rest ++ after) names aliases)
    (right : Finds tables (context.after first) (first.reverse ++ before) rest after names' aliases') :
    Finds tables context before (first ++ rest) after (names ++ names') (aliases ++ aliases') :=
  ⟨by rw [spots_append, List.filterMap_append, left.names, right.names],
    by rw [spots_append, List.filterMap_append, left.aliases, right.aliases]⟩

theorem single {here : Lexeme} {name : Option String} {pair : Option (String × String)}
    (named : Spot.table? ⟨context, before, here, after⟩ = name)
    (paired : Spot.alias? tables ⟨context, before, here, after⟩ = pair) :
    Finds tables context before [here] after name.toList pair.toList := by
  have one : spots context before [here] after = [⟨context, before, here, after⟩] := rfl
  refine ⟨?_, ?_⟩
  · rw [one, List.filterMap_cons, named]
    cases name <;> rfl
  · rw [one, List.filterMap_cons, paired]
    cases pair <;> rfl

theorem silent {here : Lexeme} (silent : Spot.Silent ⟨context, before, here, after⟩) :
    Finds tables context before [here] after [] [] := single silent.1 (silent.2 tables)

theorem cons {here : Lexeme} {names names' : List String} {aliases aliases' : List (String × String)}
    (now : Finds tables context before [here] (rest ++ after) names aliases)
    (later : Finds tables (context.step here) (here :: before) rest after names' aliases') :
    Finds tables context before (here :: rest) after (names ++ names') (aliases ++ aliases') := now.append later

theorem skip {here : Lexeme} {names : List String} {aliases : List (String × String)}
    (silent : Spot.Silent ⟨context, before, here, rest ++ after⟩)
    (later : Finds tables (context.step here) (here :: before) rest after names aliases) :
    Finds tables context before (here :: rest) after names aliases := (Finds.silent silent).cons later

/-- Nothing is found where no clause of tables comes up. -/
theorem of_clauses {part : List Lexeme}
    (clauses : ∀ spot ∈ spots context before part after, Keyword.precedesTables spot.clause = false) :
    Finds tables context before part after [] [] :=
  ⟨List.filterMap_eq_nil_iff.mpr fun spot member => (silent_of_clause (clauses spot member)).1,
    List.filterMap_eq_nil_iff.mpr fun spot member => (silent_of_clause (clauses spot member)).2 tables⟩

theorem avoiding {part : List Lexeme} (avoids : context.Avoids Keyword.precedesTables)
    (none : ∀ lexeme ∈ part, lexeme.Avoids Keyword.precedesTables) : Finds tables context before part after [] [] :=
  .of_clauses (Proofs.Clauses.clause_of_avoids avoids none)

end QueryFacts.Finds

namespace QueryFacts.Proofs.TableSpots
open Text Lexeme PlainText SelectList ColumnListStatement Selections JoinKeywords FromClauses Clauses Spots

section Names

variable {before : List Lexeme}

theorem wordless_dotted (apart : Bool) (first : String) (more : List String) :
    ∀ lexeme ∈ dottedLexemes apart first more, lexeme.Wordless := by
  intro lexeme member
  rcases List.mem_cons.mp member with rfl | later
  · exact ⟨rfl, rfl⟩
  · obtain ⟨part, -, here⟩ := List.mem_flatMap.mp later
    simp only [List.mem_cons, List.not_mem_nil, or_false] at here
    rcases here with rfl | rfl <;> exact ⟨rfl, rfl⟩

theorem resumes_dotted (context : Context) (apart : Bool) (first : String) (more : List String) :
    context.Resumes (context.after (dottedLexemes apart first more)) :=
  resumes_after fun lexeme member => staying_of_wordless (wordless_dotted apart first more lexeme member)

theorem staying_reference (reference : TableReference) : ∀ lexeme ∈ referenceLexemes reference, lexeme.Staying := by
  have as : (ofKeyword "AS" true).Staying := ⟨rfl, fun _ => by decide⟩
  have named (name : String) : (ofName name true).Staying := ⟨rfl, nofun⟩
  intro lexeme member
  rcases List.mem_append.mp member with name | label
  · exact staying_of_wordless (wordless_dotted true _ _ lexeme name)
  · rcases found : reference.label with _ | ⟨name, _ | _⟩ <;> rw [found] at label
    · cases label
    · exact List.mem_singleton.mp label ▸ named name
    · rcases List.mem_cons.mp label with rfl | last
      · exact as
      · exact List.mem_singleton.mp last ▸ named name

theorem dottedLexemes_concat (apart : Bool) (first : String) (more : List String) (last : String) :
    dottedLexemes apart first (more ++ [last]) = dottedLexemes apart first more ++ [dot, ofName last false] := by
  simp [dottedLexemes]

/-- The last name of a dotted name, and the parts of the name that ends there. -/
theorem exists_dotted (undotted : ∀ last ∈ before.head?, last.isDot = false) (apart : Bool)
    (first : String) (more : List String) :
    ∃ last ∈ first :: more, ∃ apart' front, (dottedLexemes apart first more).reverse ++ before =
      ofName last apart' :: front ∧
      nameParts front (ofName last apart') = first :: more := by
  induction more using List.reverseRecOn with
  | nil => exact ⟨first, List.mem_cons_self, apart, before, rfl, nameParts_undotted undotted _⟩
  | append_singleton more last ih =>
    obtain ⟨name, -, apart', front, split, parts⟩ := ih
    refine ⟨last, by simp, false, dot :: ofName name apart' :: front, ?_, ?_⟩
    · rw [dottedLexemes_concat, List.reverse_append, List.append_assoc, split]
      rfl
    · have dotted : (dot.isDot && (ofName name apart').isName) = true := rfl
      rw [nameParts, if_pos dotted, parts]
      rfl

theorem isTableWord_reserved {word : String} (tables : Keyword.precedesTables word = true)
    (reserved : Keyword.isReserved word = true) :
    IsTableWord word := by
  refine ⟨tables, fun name known same => ?_⟩
  rw [← same, known.unread] at reserved
  cases reserved

theorem isTableWord_join {prefixes : List String} (known : ∀ word ∈ prefixes, word ∈ Keyword.joinPrefixes) :
    IsTableWord (mergedJoin prefixes) :=
  ⟨by rw [Keyword.precedesTables, isJoin_mergedJoin, Bool.or_true], fun _ plain => plain.unmerged prefixes known⟩

theorem ne_of_isDottedName {text : String} (named : IsDottedName text) {other : String} (bare : '.' ∉ other.toList)
    (unnamed : ¬IsPlainName other) : text ≠ other := by
  rintro rfl
  obtain ⟨first, more, known, rfl⟩ := named
  cases more with
  | nil => exact unnamed (known first List.mem_cons_self)
  | cons part more => exact bare (by simp [String.intercalate_cons_cons])

end Names

section References

variable {tables : List String} {context : Context} {word name : String} {apart : Bool} {last here : Lexeme}
  {before after : List Lexeme} (lists : context.Lists word)
include lists

theorem table?_start (isName : here.isName = true) (introduces : last.Introduces word)
    (ends : after.head?.any isDot = false) :
    Spot.table? ⟨context, last :: before, here, after⟩ = some here.value := by
  have starts :
      ((last.normalized == word || last.reads "EXISTS" || last.isMark) && !last.isPunctuation ")") = true := by
    rw [introduces.noClosing]
    rcases introduces.starts with same | exists' | mark
    · simp [same]
    · simp [exists']
    · simp [mark]
  simp only [Spot.table?, Spot.clause, Spot.previous, Spot.next, Spot.isInColumnList, isName,
    lists.clause, lists.outside, Option.getD_some, lists.word.tables, List.head?_cons, Option.any_some,
    Option.map_some, introduces.noWord.1, introduces.noWord.2, ends, introduces.noDot, Bool.not_true,
      Bool.or_self, Bool.false_and, Bool.false_eq_true, if_false, starts, if_true]

omit lists in
theorem alias?_start (introduces : last.Introduces word) (unlisted : nameBefore (last :: before) ∉ tables) :
    Spot.alias? tables ⟨context, last :: before, here, after⟩ = none := by
  have aliased : Spot.aliased ⟨context, last :: before, here, after⟩ = nameBefore (last :: before) := by
    simp only [Spot.aliased, Spot.previous, List.head?_cons, Option.any_some, introduces.noWord.1,
      Bool.false_eq_true, if_false]
  unfold Spot.alias?
  rw [aliased, if_neg (fun contains => unlisted (List.contains_iff_mem.mp contains))]
  split <;> simp

theorem table?_dotted (ends : after.head?.any isDot = false) :
    Spot.table? ⟨context, dot :: before, ofName name apart, after⟩ =
      some (String.intercalate "." (nameParts (dot :: before) (ofName name apart))) := by
  have isName : (ofName name apart).isName = true := rfl
  have isDot : dot.isDot = true := rfl
  have noWord : dot.reads "AS" = false ∧ dot.reads "WITH" = false := ⟨rfl, rfl⟩
  simp only [Spot.table?, Spot.clause, Spot.previous, Spot.next, Spot.isInColumnList, isName,
    lists.clause, lists.outside, Option.getD_some, lists.word.tables, List.head?_cons, Option.any_some,
    noWord.1, noWord.2, ends, isDot, Bool.not_true, Bool.or_self, Bool.false_and, Bool.false_eq_true, if_false, if_true]

omit lists in
theorem alias?_dotted : Spot.alias? tables ⟨context, dot :: before, ofName name apart, after⟩ = none := by
  have isDot : dot.isDot = true := rfl
  simp [Spot.alias?, Spot.previous, isDot]

omit lists in
/-- The names before the last of a dotted name are nothing on their own. -/
theorem finds_beginning (dotted : after.head?.any isDot = true) (apart : Bool) (first : String) (more : List String) :
    Finds tables context before (dottedLexemes apart first more) after [] [] := by
  induction more generalizing context before apart first with
  | nil => exact .silent (silent_of_dot dotted)
  | cons part more ih => exact .skip (silent_of_dot rfl) (.skip (silent_of_other rfl) (ih false part))

theorem finds_dotted (introduces : last.Introduces word) (unlisted : nameBefore (last :: before) ∉ tables)
    (ends : after.head?.any isDot = false) (apart : Bool) (first : String) (more : List String) :
    Finds tables context (last :: before) (dottedLexemes apart first more) after
        [String.intercalate "." (first :: more)] [] := by
  have undotted := undotted_cons introduces.noDot before
  rcases List.eq_nil_or_concat more with rfl | ⟨front, final, rfl⟩
  · exact .single (table?_start lists rfl introduces ends) (alias?_start introduces unlisted)
  · obtain ⟨name, -, apart', rest, split, parts⟩ := exists_dotted undotted apart first front
    have again := lists.resumes (resumes_dotted context apart first front)
    have whole : nameParts (dot :: ofName name apart' :: rest) (ofName final false) = first :: (front ++ [final]) := by
      have dotted : (dot.isDot && (ofName name apart').isName) = true := rfl
      rw [nameParts, if_pos dotted, parts]
      rfl
    have ending :
        Finds tables ((context.after (dottedLexemes apart first front)).step dot) (dot :: ofName name apart' :: rest)
        [ofName final false] after [String.intercalate "." (first :: (front ++ [final]))] [] := by
      have mark : ((context.after (dottedLexemes apart first front)).step dot).Lists word :=
        again.resumes (resumes_step (staying_of_wordless (show dot.Wordless from ⟨rfl, rfl⟩)))
      exact .single (whole ▸ table?_dotted mark ends) alias?_dotted
    have beginning : Finds tables context (last :: before) (dottedLexemes apart first front)
        ([dot, ofName final false] ++ after) [] [] := finds_beginning rfl apart first front
    rw [List.concat_eq_append, dottedLexemes_concat]
    refine beginning.append ?_
    rw [split]
    exact .skip (silent_of_other rfl) ending

/-- An alias follows its table, perhaps after AS. -/
theorem finds_label {table before' : String} (known : IsPlainName before') {apart : Bool}
    (named : nameBefore (ofName before' apart :: before) = table) (listed : table ∈ tables) (label : Option Label)
    (ends : after.head?.any isDot = false ∧ after.head?.any (reads "AS") = false) :
    Finds tables context (ofName before' apart :: before) (labelLexemes label) after []
      (label.map fun label => (label.name, table)).toList := by
  have contains : tables.contains table = true := List.contains_iff_mem.mpr listed
  have isName (name : String) (apart : Bool) : (ofName name apart).isName = true := rfl
  rcases label with _ | ⟨name, _ | _⟩
  · exact ⟨rfl, rfl⟩
  · have noItem : (ofName before' apart).normalized ≠ word := lists.word.unspelled before' known
    refine @Finds.single tables _ _ _ (ofName name true) none (some (name, table)) ?_ ?_
    · have bare : (ofName before' apart).reads "AS" = false ∧ (ofName before' apart).reads "WITH" = false ∧
          (ofName before' apart).reads "EXISTS" = false ∧ (ofName before' apart).isDot = false ∧
          (ofName before' apart).isMark = false := ⟨rfl, rfl, rfl, rfl, rfl⟩
      simp only [Spot.table?, Spot.clause, Spot.previous, Spot.next, Spot.isInColumnList, isName,
        lists.clause, lists.outside, Option.getD_some, lists.word.tables, List.head?_cons,
        Option.any_some, Option.map_some, bare, ends.1, beq_eq_false_iff_ne.mpr noItem, Bool.not_true,
          Bool.or_self, Bool.false_and, Bool.false_eq_true, if_false]
    · have bare : (ofName before' apart).reads "AS" = false ∧ (ofName before' apart).isDot = false := ⟨rfl, rfl⟩
      simp only [Spot.alias?, Spot.aliased, Spot.clause, Spot.previous, Spot.next, isName,
        lists.clause, Option.getD_some, lists.word.tables, List.head?_cons, Option.any_some,
        bare, ends.1, ends.2, Bool.not_true, Bool.or_self, Bool.false_eq_true, if_false, named, contains, if_true]
      rfl
  · have as : (ofKeyword "AS" true).reads "AS" = true := by decide
    have staying : (ofKeyword "AS" true).Staying := ⟨rfl, fun _ => by decide⟩
    have again := lists.resumes (resumes_step staying)
    refine .skip (silent_of_other rfl) (@Finds.single tables _ _ _ (ofName name true) none (some (name, table)) ?_ ?_)
    · simp [Spot.table?, Spot.previous, as]
    · have bare : (ofKeyword "AS" true).isDot = false := rfl
      simp only [Spot.alias?, Spot.aliased, Spot.clause, Spot.previous, Spot.next, isName,
        again.clause, Option.getD_some, again.word.tables, List.head?_cons, Option.any_some,
        as, bare, ends.1, ends.2, Bool.not_true, Bool.or_self, Bool.false_eq_true, if_false,
          List.tail_cons, named, contains, if_true]
      rfl

/-- A reference in a list of tables is a table with its alias. -/
theorem finds_reference {reference : TableReference} (known : reference.Known) (introduces : last.Introduces word)
    (unlisted : nameBefore (last :: before) ∉ tables) (listed : reference.dotted ∈ tables)
    (ends : after.head?.any isDot = false ∧ after.head?.any (reads "AS") = false) :
    Finds tables context (last :: before) (referenceLexemes reference) after
        [reference.dotted] reference.declared?.toList := by
  have undotted := undotted_cons introduces.noDot before
  have follows : (labelLexemes reference.label ++ after).head?.any isDot = false := by
    rcases reference.label with _ | ⟨name, _ | _⟩
    · exact ends.1
    · rfl
    · rfl
  have table := finds_dotted lists introduces unlisted follows true reference.first reference.more
  obtain ⟨final, inside, apart, rest, split, parts⟩ := exists_dotted undotted true reference.first reference.more
  have again := lists.resumes (resumes_dotted context true reference.first reference.more)
  have named : nameBefore (ofName final apart :: rest) = reference.dotted := by
    rw [nameBefore, parts]
    rfl
  have label := finds_label again (known.parts final inside) named listed reference.label ends
  rw [← split] at label
  exact table.append label

end References

end QueryFacts.Proofs.TableSpots
