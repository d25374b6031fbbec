import QueryFacts.Proofs.MentionSpots

/-! The columns that a statement inserts into, in the parenthesis after INTO and the table. They are
mentioned like other columns, so that a name which is an alias further on is one here. -/

namespace QueryFacts.Proofs.InsertTargets
open Text Lexeme NestingRun PlainText SelectList ColumnListStatement Selections TextParts FromClauses Clauses
open Spots TableSpots MentionSpots

/-- The beginning of the statement, up to the end of its columns. -/
def headLexemes (word table first : String) (more : List String) : List Lexeme :=
  [ofKeyword word true, ofKeyword "INTO" true, ofName table true] ++ listedLexemes first more

def inserting : List String := ["INSERT", "REPLACE"]

variable {word table first : String} {more : List String}

section Text

theorem part_head (known : word ∈ inserting) (named : IsUnquoted table)
    (columns : ∀ name ∈ first :: more, IsUnquoted name) :
    Part false (headLexemes word table first more) := by
  have words : ∀ word ∈ "INTO" :: inserting, isIdentifier word.toList = true ∧
      Keyword.isReserved (upper word) = true := by decide
  have keyword {word : String} (known : word ∈ "INTO" :: inserting) : Part false [ofKeyword word true] :=
    part_keyword (words word known).1 (words word known).2
  have begins : Part false [ofKeyword word true, ofKeyword "INTO" true, ofName table true] :=
    (keyword (List.mem_cons_of_mem _ known)).append
      ((keyword List.mem_cons_self).append (part_name named.spelled named.free rfl))
  exact part_listed begins (List.cons_ne_nil _ _) (fun last found => by cases found; rfl) columns

theorem staying_list (first : String) (more : List String) :
    ∀ lexeme ∈ ofName first false :: more.flatMap (fun name => [comma, ofName name true]), lexeme.Staying := by
  refine List.forall_mem_cons.mpr ⟨⟨rfl, nofun⟩, fun lexeme member => ?_⟩
  obtain ⟨name, -, here⟩ := List.mem_flatMap.mp member
  simp only [List.mem_cons, List.not_mem_nil, or_false] at here
  rcases here with rfl | rfl
  · exact ⟨by decide, nofun⟩
  · exact ⟨rfl, nofun⟩

theorem mem_headLexemes {lexeme : Lexeme} (member : lexeme ∈ headLexemes word table first more) :
    (∃ name apart, lexeme = ofName name apart) ∨ lexeme = ofKeyword word true ∨
        lexeme ∈ [ofKeyword "INTO" true, opening, comma, closing] := by
  have name (name : String) (apart : Bool) :
      (∃ name' apart', ofName name apart = ofName name' apart') ∨ ofName name apart = ofKeyword word true ∨
      ofName name apart ∈ [ofKeyword "INTO" true, opening, comma, closing] := .inl ⟨name, apart, rfl⟩
  rcases List.mem_append.mp member with begins | list
  · simp only [List.mem_cons, List.not_mem_nil, or_false] at begins
    rcases begins with rfl | rfl | rfl
    · exact .inr (.inl rfl)
    · exact .inr (.inr List.mem_cons_self)
    · exact name table true
  · rcases List.mem_cons.mp list with rfl | list
    · exact .inr (.inr (by simp))
    · rcases List.mem_append.mp list with inside | last
      · rcases List.mem_cons.mp inside with rfl | later
        · exact name first false
        · obtain ⟨column, -, here⟩ := List.mem_flatMap.mp later
          simp only [List.mem_cons, List.not_mem_nil, or_false] at here
          rcases here with rfl | rfl
          · exact .inr (.inr (by simp))
          · exact name column true
      · exact .inr (.inr (by simp [List.mem_singleton.mp last]))

theorem shallow_head : Shallow (sides (headLexemes word table first more)) 1 := by
  have begins : ∀ lexeme ∈ [ofKeyword word true, ofKeyword "INTO" true, ofName table true], lexeme.side? = none := by
    simp [show (ofKeyword word true).side? = none from rfl, show (ofKeyword "INTO" true).side? = none from rfl,
      show (ofName table true).side? = none from rfl]
  have list := (shallow_level (fun lexeme member => (staying_list first more lexeme member).1) 0).wrap
  rw [headLexemes, sides_append]
  refine (shallow_level begins 1).append ?_
  rw [listedLexemes, sides, List.map_cons, List.map_append]
  exact list

end Text

section Targets

variable {scope : AliasDeclaration.Scope} {tables : List String} {context : Context}
    {before after : List Lexeme} {last : Lexeme}

/-- Where the columns of an insertion are listed. -/
structure Listing (context : Context) : Prop where
  clause : context.clause = some "INTO"
  outside : context.outside = true
  opened : ∃ outer, context.opened = ⟨.nestedFunction, some "INTO", false⟩ :: outer

theorem Listing.resumes {later : Context} (listing : Listing context)
    (resumes : context.Resumes later) : Listing later :=
  ⟨resumes.clause.trans listing.clause, resumes.outside.trans listing.outside, resumes.opened.symm ▸ listing.opened⟩

theorem names_listed (listing : Listing context) (fresh : Fresh last) (mark : last.isMark = true)
    (noDot : last.isDot = false)
    (halts : Halts after) {here : Lexeme} (named : here.isName = true) :
    Names scope context (last :: before) [here] after
      (if Keyword.isIgnoredFunction here.normalized then none
        else some (Column.Mention.ofName scope.names here.value .insert)).toList [] := by
  have place : Spot.section? ⟨context, last :: before, here, after⟩ = some .insert := by
    rw [Spot.section?, Spot.clause, listing.clause, Option.getD_some, if_pos rfl, listing.outside,
      Spot.previous, List.head?_cons, Option.any_some, mark]
    rfl
  have frames : ∀ frame ∈ context.opened.head?, frame.kind ≠ .withColumns ∧ frame.kind ≠ .createTableColumns := by
    obtain ⟨outer, opened⟩ := listing.opened
    rw [opened]
    simp
  have told := @mention?_here context before after last here scope.names named fresh.toCalm halts frames [] rfl
  rw [place, nameBefore_undotted (undotted_cons noDot before), Option.map_some] at told
  exact .single (declares_of_fresh fresh) (fun _ => fresh.noClosing) told

/-- The names of a list are mentioned one after the other, however they are spelled. -/
theorem names_spelled {spell : String → Bool → Lexeme} {normal : String → String}
    (spelled : ∀ name apart, (spell name apart).isName = true ∧
      (spell name apart).value = name ∧ (spell name apart).normalized = normal name)
    (listing : Listing context) (fresh : Fresh last) (mark : last.isMark = true) (noDot : last.isDot = false)
    (halts : Halts after)
    (first : String) (more : List String) (apart : Bool) : Names scope context (last :: before)
      (spell first apart :: more.flatMap fun name => [comma, spell name true]) after
        (((first :: more).filter fun name => !Keyword.isIgnoredFunction (normal name)).map
            (Column.Mention.ofName scope.names · .insert)) [] := by
  have single {context : Context} {before after : List Lexeme} {last : Lexeme}
      (listing : Listing context) (fresh : Fresh last)
      (mark : last.isMark = true) (noDot : last.isDot = false) (halts : Halts after) (name : String) (apart : Bool) :
      Names scope context (last :: before) [spell name apart] after
        (([name].filter fun name => !Keyword.isIgnoredFunction (normal name)).map
            (Column.Mention.ofName scope.names · .insert)) [] := by
    obtain ⟨named, value, normalized⟩ := spelled name apart
    have here := @names_listed scope context before after last listing fresh mark noDot halts _ named
    rw [value, normalized] at here
    cases ignored : Keyword.isIgnoredFunction (normal name) <;> simpa [ignored] using here
  induction more generalizing context before last first apart with
  | nil => exact single listing fresh mark noDot halts first apart
  | cons next more ih =>
    have resumes : context.Resumes ((context.step (spell first apart)).step comma) :=
      (resumes_step (staying_of_wordless (wordless_of_name (spelled first apart).1))).trans
        (resumes_step (staying_of_wordless ⟨by decide, rfl⟩))
    have comma_halts :
        Halts (comma :: (spell next true :: more.flatMap fun name => [comma, spell name true]) ++ after) :=
      ⟨rfl, show comma.isPunctuation "(" = false by decide⟩
    have parts : first :: next :: more = [first] ++ next :: more := rfl
    rw [parts, List.filter_append, List.map_append]
    exact (single listing fresh mark noDot comma_halts first apart).append
      (.skip ⟨rfl, rfl⟩ (ih (listing.resumes resumes) fresh_comma rfl rfl next true))

theorem names_targets (listing : Listing context) (fresh : Fresh last) (mark : last.isMark = true)
    (noDot : last.isDot = false)
    (halts : Halts after) (apart : Bool) : Names scope context (last :: before)
      (ofName first apart :: more.flatMap fun name => [comma, ofName name true]) after
        (Column.Mention.ofNames scope.names .insert (first :: more)) [] :=
  @names_spelled scope context before after last ofName Keyword.normalForm
    (fun _ _ => ⟨rfl, rfl, rfl⟩) listing fresh mark noDot halts first more apart

theorem silent_target (listing : Listing context) (noWord : last.reads "AS" = false) (unlisted : last.value ∉ tables)
    (undotted : ∀ lexeme ∈ before.head?, lexeme.isDot = false) {name : String} {apart : Bool} :
    Finds tables context (last :: before) [ofName name apart] after [] [] := by
  obtain ⟨outer, opened⟩ := listing.opened
  have list : Spot.isInColumnList ⟨context, last :: before, ofName name apart, after⟩ = true := by
    rw [Spot.isInColumnList, listing.outside, opened]
    rfl
  have aliased : Spot.aliased ⟨context, last :: before, ofName name apart, after⟩ = last.value := by
    rw [Spot.aliased, Spot.previous, List.head?_cons, Option.any_some, noWord, if_neg Bool.false_ne_true]
    exact nameBefore_undotted undotted _
  have table : Spot.table? ⟨context, last :: before, ofName name apart, after⟩ = none := by simp [Spot.table?, list]
  have noAlias : Spot.alias? tables ⟨context, last :: before, ofName name apart, after⟩ = none := by
    simp [Spot.alias?, aliased, unlisted]
  exact .single table noAlias

/-- None of them is a table, or the alias of one. -/
theorem finds_targets (listing : Listing context) (noWord : last.reads "AS" = false)
    (unlisted : last.value ∉ tables ∧ "," ∉ tables)
    (undotted : ∀ lexeme ∈ before.head?, lexeme.isDot = false) (apart : Bool) :
    Finds tables context (last :: before)
        (ofName first apart :: more.flatMap fun name => [comma, ofName name true]) after [] [] := by
  induction more generalizing context before last first apart with
  | nil => exact silent_target listing noWord unlisted.1 undotted
  | cons next more ih =>
    have resumes : context.Resumes ((context.step (ofName first apart)).step comma) :=
      (resumes_step (⟨rfl, nofun⟩ : (ofName first apart).Staying)).trans (resumes_step ⟨by decide, nofun⟩)
    exact .cons (silent_target listing noWord unlisted.1 undotted) (.skip (silent_of_other rfl)
      (ih (listing.resumes resumes) rfl ⟨unlisted.2, unlisted.2⟩ (undotted_cons rfl _) true))

end Targets

section Head

theorem word_facts (known : word ∈ inserting) : Keyword.normalForm word = word ∧ Keyword.isInsignificant word = false ∧
    (word == "WITH") = false ∧ (ofKeyword word true).reads "WITH" = false := by
  have facts : ∀ word ∈ inserting, Keyword.normalForm word = word ∧ Keyword.isInsignificant word = false ∧
      (word == "WITH") = false ∧
      (ofKeyword word true).reads "WITH" = false := by decide
  exact facts word known

theorem normalForm_into : Keyword.normalForm "INTO" = "INTO" := by decide

theorem after_inserting (known : word ∈ inserting) : Context.after {} [ofKeyword word true, ofKeyword "INTO" true] =
    { last := some (ofKeyword "INTO" true), clause := some "INTO" } := by
  obtain ⟨normal, significant, noWith, -⟩ := word_facts known
  have first := step_keyword normal significant true {}
  have headers : Context.headersAfter {} word = [] := by simp [Context.headersAfter, noWith]
  rw [headers] at first
  rw [Context.after, List.foldl_cons, first, List.foldl_cons, step_keyword normalForm_into (by decide)]
  rfl

theorem resumes_head (known : word ∈ inserting) (table first : String) (more : List String) :
    Context.Resumes { clause := some "INTO" } (Context.after {} (headLexemes word table first more)) := by
  let named : Context := { last := some (ofName table true), clause := some "INTO" }
  have begins : Context.after {} [ofKeyword word true, ofKeyword "INTO" true, ofName table true] = named := by
    have split : [ofKeyword word true, ofKeyword "INTO" true, ofName table true] =
      [ofKeyword word true, ofKeyword "INTO" true] ++ [ofName table true] := rfl
    rw [split, Context.after_append, after_inserting known]
    rfl
  have list : named.Resumes (named.after (listedLexemes first more)) :=
    resumes_group (fun lexeme member => (staying_list first more lexeme member).1) true
  rw [headLexemes, Context.after_append, begins]
  exact ⟨list.clause, list.outside, list.opened⟩

/-- What the beginning mentions are the columns. -/
theorem names_head {scope : AliasDeclaration.Scope} (known : word ∈ inserting) (after : List Lexeme) :
    Names scope {} [] (headLexemes word table first more) after
        (Column.Mention.ofNames scope.names .insert (first :: more)) [] := by
  let into : Context := { last := some (ofKeyword "INTO" true), clause := some "INTO" }
  have nameless (word : String) : (ofKeyword word true).isName = false ∧ (ofKeyword word true).isWildcard = false :=
    ⟨rfl, rfl⟩
  have words :
      Names scope {} []
        [ofKeyword word true, ofKeyword "INTO" true] (ofName table true :: listedLexemes first more ++ after)
      [] [] := .nameless (List.forall_mem_cons.mpr ⟨nameless word, List.forall_mem_singleton.mpr (nameless "INTO")⟩)
  have unmentioned :
      Spot.mention? scope.names [] ⟨into, [ofKeyword "INTO" true, ofKeyword word true], ofName table true,
      listedLexemes first more ++ after⟩ = none := by
    simp [Spot.mention?, Spot.section?, Spot.clause, into, ofName, isWildcard]
  have name :
      Names scope into [ofKeyword "INTO" true, ofKeyword word true]
        [ofName table true] (listedLexemes first more ++ after)
      (none : Option Column.Mention).toList [] := .single (declares_of_clause rfl) (fun _ => rfl) unmentioned
  have inside : Listing ((into.step (ofName table true)).step opening) := ⟨rfl, rfl, [], rfl⟩
  have columns (before : List Lexeme) :=
    @names_targets first more scope _ before (closing :: after) opening inside
      (fresh_opening true) rfl rfl ⟨rfl, rfl⟩ false
  have close {context : Context} {before : List Lexeme} : Names scope context before [closing] after [] [] :=
    .nameless (by decide)
  have list :
      Names scope (into.step (ofName table true)) [ofName table true, ofKeyword "INTO" true, ofKeyword word true]
      (listedLexemes first more) after (Column.Mention.ofNames scope.names .insert (first :: more)) [] := by
    have whole := (columns [ofName table true, ofKeyword "INTO" true, ofKeyword word true]).append close
    rw [List.append_nil, List.append_nil] at whole
    exact .skip ⟨rfl, rfl⟩ whole
  have begins : Context.after {} [ofKeyword word true, ofKeyword "INTO" true] = into := after_inserting known
  have later := name.append list
  rw [← begins] at later
  exact words.append later

/-- The only table of the beginning is the one that is inserted into. -/
theorem finds_head {tables : List String} (known : word ∈ inserting)
    (unlisted : ∀ mark ∈ ["INTO", "(", ","], mark ∉ tables)
    (after : List Lexeme) : Finds tables {} [] (headLexemes word table first more) after [table] [] := by
  let into : Context := { last := some (ofKeyword "INTO" true), clause := some "INTO" }
  have words :
      Finds tables {} []
        [ofKeyword word true, ofKeyword "INTO" true] (ofName table true :: listedLexemes first more ++ after)
      [] [] := .skip (silent_of_other rfl) (.silent (silent_of_other rfl))
  have lists : into.Lists "INTO" := ⟨rfl, rfl, isTableWord_reserved (by decide) (by decide)⟩
  have introduces : (ofKeyword "INTO" true).Introduces "INTO" :=
    ⟨rfl, by decide, rfl, .inl normalForm_into⟩
  have last : nameBefore [ofKeyword "INTO" true, ofKeyword word true] ∉ tables := by
    rw [nameBefore_undotted (undotted_cons rfl [])]
    exact unlisted "INTO" (by decide)
  have name :
      Finds tables into [ofKeyword "INTO" true, ofKeyword word true]
        [ofName table true] (listedLexemes first more ++ after)
      [table] [] := .single (table?_start lists rfl introduces rfl) (alias?_start introduces last)
  have inside : Listing ((into.step (ofName table true)).step opening) := ⟨rfl, rfl, [], rfl⟩
  have columns (before : List Lexeme) (undotted : ∀ lexeme ∈ before.head?, lexeme.isDot = false) :=
    @finds_targets first more tables _ before (closing :: after) opening inside rfl
      ⟨unlisted "(" (by decide), unlisted "," (by decide)⟩ undotted false
  have close {context : Context} {before : List Lexeme} : Finds tables context before [closing] after [] [] :=
    .silent (silent_of_other rfl)
  have list :
      Finds tables (into.step (ofName table true)) [ofName table true, ofKeyword "INTO" true, ofKeyword word true]
      (listedLexemes first more) after [] [] :=
    .skip (silent_of_other rfl) ((columns [ofName table true, ofKeyword "INTO" true, ofKeyword word true]
      (undotted_cons rfl _)).append close)
  have begins : Context.after {} [ofKeyword word true, ofKeyword "INTO" true] = into := after_inserting known
  have later := name.append list
  rw [← begins] at later
  exact words.append later

end Head

end QueryFacts.Proofs.InsertTargets
