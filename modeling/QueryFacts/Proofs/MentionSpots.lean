import QueryFacts.Proofs.BareFacts
import QueryFacts.Proofs.LabelSpots
import QueryFacts.Proofs.TableSpots

/-! What the names in a part of a statement are: columns, aliases of the statement, and labels that
declare them. A name is a column where the last keyword comes before columns, and a dotted one is
where it ends. -/

namespace QueryFacts
open Lexeme

/-- The keyword of a clause in which every name is a column. -/
structure Section.OpenedBy (sec : Section) (word : String) : Prop where
  columns : Keyword.precedesColumns word = true
  free : word ≠ "USING"
  opens : Section.ofKeyword? word = some sec

/-- A mention in a statement with these aliases. -/
def Column.Mention.ofName (aliasNames : List String) (spelled : String) (sec : Section) : Mention :=
  if !spelled.toList.contains '.' && aliasNames.contains spelled then .aliasName spelled sec else .column spelled sec

namespace Column.Mention

/-- The mentions of names in a clause, without those of functions that are never columns. -/
def ofNames (aliasNames : List String) (sec : Section) (names : List String) : List Mention :=
  (names.filter fun name => !Keyword.isIgnoredFunction (Keyword.normalForm name)).map (ofName aliasNames · sec)

theorem ofNames_cons (aliasNames : List String) (sec : Section) (names : List String) (name : String) :
    ofNames aliasNames sec (name :: names) =
      (if Keyword.isIgnoredFunction (Keyword.normalForm name) then
        none else some (ofName aliasNames name sec)).toList ++
        ofNames aliasNames sec names := by
  unfold ofNames
  cases ignored : Keyword.isIgnoredFunction (Keyword.normalForm name) <;> simp [ignored]

theorem ofNames_append (aliasNames : List String) (sec : Section) (first rest : List String) :
    ofNames aliasNames sec (first ++ rest) = ofNames aliasNames sec first ++ ofNames aliasNames sec rest := by
  simp [ofNames]

section Uses

variable {aliases : NameMap AliasTarget} {aliasNames names : List String}

theorem uses_ofName {name : String}
    (known : aliases.contains name → aliasNames.contains name = true ∧ '.' ∉ name.toList) (sec : Section) :
    (ofName aliasNames name sec).columnUse? aliases = (if aliases.contains name then none else some (name, sec)) ∧
      (ofName aliasNames name sec).aliasUse? aliases = if aliases.contains name then some (name, sec) else none := by
  cases target : aliases.contains name with
  | true =>
    obtain ⟨listed, bare⟩ := known target
    have same : ofName aliasNames name sec = .aliasName name sec := if_pos (by simp only [listed]; simpa using bare)
    rw [same]
    exact ⟨if_pos target, if_pos target⟩
  | false =>
    unfold ofName
    split
    · exact ⟨if_neg (by simp [target]), if_neg (by simp [target])⟩
    · exact ⟨rfl, rfl⟩

/-- The names of a clause are columns of it, apart from those that stand for others. -/
theorem uses_ofNames
    (known : ∀ name ∈ names, aliases.contains name → aliasNames.contains name = true ∧ '.' ∉ name.toList)
    (sec : Section) :
    (ofNames aliasNames sec names).filterMap (columnUse? aliases) =
        ((names.filter fun name => !Keyword.isIgnoredFunction (Keyword.normalForm name)).filter
          (!aliases.contains ·)).map (·, sec) ∧
      (ofNames aliasNames sec names).filterMap (aliasUse? aliases) =
        ((names.filter fun name => !Keyword.isIgnoredFunction (Keyword.normalForm name)).filter aliases.contains).map
            (·, sec) := by
  have told (name : String)
      (member : name ∈ names.filter fun name => !Keyword.isIgnoredFunction (Keyword.normalForm name)) :=
    uses_ofName (known name (List.mem_filter.mp member).1) sec
  unfold ofNames
  generalize names.filter (fun name => !Keyword.isIgnoredFunction (Keyword.normalForm name)) = kept at told ⊢
  rw [List.filterMap_map, List.filterMap_map, ← List.filterMap_eq_map, List.filterMap_filter, List.filterMap_filter]
  refine ⟨List.filterMap_congr fun name member => ?_, List.filterMap_congr fun name member => ?_⟩
  · rw [Function.comp_apply, (told name member).1]
    cases aliases.contains name <;> rfl
  · rw [Function.comp_apply, (told name member).2]
    cases aliases.contains name <;> rfl

end Uses

end Column.Mention

/-- A label with its clause, and the columns of its item. -/
structure LabelledItem where
  name : String
  sec : Option Section
  columns : List String

namespace Spot

/-- The mention at a spot, where labels are told from their places. -/
def mentioned? (aliasNames : List String) (spot : Spot) : Option Column.Mention :=
  spot.mention? aliasNames (if spot.declares then [spot.before.length] else [])

def labelled? (scope : AliasDeclaration.Scope) (spot : Spot) : Option LabelledItem :=
  if spot.declares then
    some ⟨spot.here.value, Section.ofKeyword? spot.clause, distinct (scope.itemBefore (some spot.here) spot.before)⟩
  else none

/-- No parenthesis is open around a label, and none ends in front of it that may hold a query. -/
def Level (spot : Spot) : Prop :=
  spot.declares = true → openings spot.before = [] ∧
    (spot.before[1]?.any (·.isPunctuation ")") = false ∨ ∀ lexeme ∈ spot.before.dropLast, lexeme.reads "SELECT" = false)

end Spot

/-- What the names in a part of a statement are. -/
structure Names (scope : AliasDeclaration.Scope) (context : Context) (before part after : List Lexeme)
    (mentions : List Column.Mention) (labels : List LabelledItem) : Prop where
  mentions : (spots context before part after).filterMap (Spot.mentioned? scope.names) = mentions
  labels : (spots context before part after).filterMap (Spot.labelled? scope) = labels
  apart : ∀ spot ∈ spots context before part after, spot.Apart ∧ spot.Level

namespace Lexeme

/-- Before a name comes nothing that it could be the type, the unit or the label of after AS. -/
structure Calm (last : Lexeme) : Prop where
  noAs : last.reads "AS" = false
  noClosing : last.isPunctuation ")" = false
  noCast : (last.value == "::") = false
  noNumber : (last.kind == .integer || last.kind == .literal) = false

/-- Nor anything that it could be the label of. -/
structure Fresh (last : Lexeme) : Prop extends Calm last where
  noName : last.isName = false
  noEnd : last.reads "END" = false

/-- Not a dot, and no parenthesis that opens. -/
def Halts (after : List Lexeme) : Prop := after.head?.any isDot = false ∧ after.head?.any (·.isPunctuation "(") = false

end Lexeme

end QueryFacts

namespace QueryFacts.Proofs.MentionSpots
open Text Lexeme PlainText SelectList ColumnListStatement Selections FromClauses Clauses Spots ColumnSpots LabelSpots

section Mentions

variable {context : Context} {before after : List Lexeme} {last here : Lexeme} {aliasNames : List String}

theorem ofName_bare (spelled : String) (sec : Section) : Column.Mention.ofName [] spelled sec = .column spelled sec :=
  if_neg (by simp)

theorem calm_comma : Calm comma := ⟨rfl, by decide, by decide, rfl⟩

theorem calm_dot : Calm dot := ⟨rfl, rfl, by decide, rfl⟩

theorem fresh_comma : Fresh comma := ⟨calm_comma, rfl, rfl⟩

theorem fresh_dot : Fresh dot := ⟨calm_dot, rfl, rfl⟩

theorem fresh_keyword {word : String} (words : (ofKeyword word true).reads "AS" = false ∧ (word == "::") = false ∧
    (ofKeyword word true).reads "END" = false) : Fresh (ofKeyword word true) :=
  ⟨⟨words.1, rfl, words.2.1, rfl⟩, rfl, words.2.2⟩

theorem fresh_opening (apart : Bool) : Fresh ⟨.punctuation, "(", none, apart⟩ :=
  ⟨⟨rfl, rfl, show ("(" == "::") = false by decide, rfl⟩, rfl, rfl⟩

theorem section?_of_clause {spot : Spot} {word : String} {sec : Section} (opened : sec.OpenedBy word)
    (clause : spot.clause = word) :
    spot.section? = some sec := by
  have noInto : word ≠ "INTO" := by
    rintro rfl
    exact absurd opened.columns (by decide)
  rw [Spot.section?, clause, if_neg noInto, if_neg opened.free, if_pos opened.columns, opened.opens]

/-- A name is a mention in the clause that it stands in, but for the names of functions that are never columns. -/
theorem mention?_here (named : here.isName = true) (calm : Calm last) (halts : Halts after)
    (frames : ∀ frame ∈ context.opened.head?, frame.kind ≠ .withColumns ∧ frame.kind ≠ .createTableColumns)
    {declared : List Nat} (undeclared : declared.contains (last :: before).length = false) :
    Spot.mention? aliasNames declared ⟨context, last :: before, here, after⟩ =
      if Keyword.isIgnoredFunction here.normalized then none
      else (Spot.section? ⟨context, last :: before, here, after⟩).map
        (Column.Mention.ofName aliasNames (nameBefore (here :: last :: before))) := by
  have outside : Spot.isIn .withColumns ⟨context, last :: before, here, after⟩ = false ∧
      Spot.isIn .createTableColumns ⟨context, last :: before, here, after⟩ = false := by
    unfold Spot.isIn
    cases opened : context.opened.head? with
    | none => exact ⟨rfl, rfl⟩
    | some frame =>
      obtain ⟨noWith, noTable⟩ := frames frame opened
      exact ⟨decide_eq_false noWith, decide_eq_false noTable⟩
  have unit : Spot.isIntervalUnit ⟨context, last :: before, here, after⟩ = false := by
    simp [Spot.isIntervalUnit, Spot.previous, calm.noNumber]
  have excluded :
      Spot.isExcluded declared ⟨context, last :: before, here, after⟩ = Keyword.isIgnoredFunction here.normalized := by
    simp only [Spot.isExcluded, Spot.previous, Spot.next, halts.1, halts.2, List.head?_cons, Option.any_some, calm.noAs,
      calm.noClosing, calm.noCast, unit, undeclared, outside.1, outside.2, Bool.or_false, Bool.false_or]
  have wildcard : here.isWildcard = false := by
    have kind : here.kind = .name := eq_of_beq named
    rw [isWildcard, kind]
    rfl
  simp only [Spot.mention?, wildcard, named, excluded, Bool.false_eq_true, if_false, Bool.not_true, Bool.false_or]
  rfl

theorem mention?_name (calm : Calm last) (halts : Halts after)
    (frames : ∀ frame ∈ context.opened.head?, frame.kind ≠ .withColumns ∧ frame.kind ≠ .createTableColumns)
    {name : String}
    {apart : Bool} {declared : List Nat}
    (undeclared : declared.contains (last :: before).length = false) {sec : Section}
    (place : Spot.section? ⟨context, last :: before, ofName name apart, after⟩ = some sec) :
    Spot.mention? aliasNames declared ⟨context, last :: before, ofName name apart, after⟩ =
      if Keyword.isIgnoredFunction (Keyword.normalForm name) then none
      else some (Column.Mention.ofName aliasNames (nameBefore (ofName name apart :: last :: before)) sec) := by
  rw [mention?_here rfl calm halts frames undeclared, place]
  rfl

theorem declares_of_fresh (fresh : Fresh last) : Spot.declares ⟨context, last :: before, here, after⟩ = false := by
  have noLiteral := (Bool.or_eq_false_iff.mp fresh.noNumber).2
  simp [Spot.declares, Spot.previous, fresh.noAs, fresh.noName, fresh.noEnd, noLiteral]

theorem declares_of_other {spot : Spot} (other : spot.here.isName = false) : spot.declares = false := by
  simp [Spot.declares, other]

theorem declares_of_dot {spot : Spot} (dotted : spot.next.any isDot = true) : spot.declares = false := by
  simp [Spot.declares, dotted]

theorem declares_of_clause {spot : Spot} (clause : Keyword.precedesColumns spot.clause = false) :
    spot.declares = false := by
  simp [Spot.declares, clause]

theorem name_of_declares {spot : Spot} (declares : spot.declares = true) : spot.here.isName = true := by
  cases name : spot.here.isName with
  | true => rfl
  | false => exact absurd ((declares_of_other name).symm.trans declares) Bool.false_ne_true

theorem mentioned?_undeclared {spot : Spot} (undeclared : spot.declares = false) :
    spot.mentioned? aliasNames = spot.mention? aliasNames [] := by
  rw [Spot.mentioned?, undeclared]
  rfl

theorem labelled?_undeclared {spot : Spot} {scope : AliasDeclaration.Scope} (undeclared : spot.declares = false) :
    spot.labelled? scope = none := if_neg (by rw [undeclared]; exact Bool.false_ne_true)

end Mentions

end QueryFacts.Proofs.MentionSpots

namespace QueryFacts.Names
open Lexeme Proofs.Spots Proofs.MentionSpots

variable {scope : AliasDeclaration.Scope} {context : Context} {before after first rest : List Lexeme} {here : Lexeme}
  {mentions mentions' : List Column.Mention} {labels labels' : List LabelledItem}

theorem nil : Names scope context before [] after [] [] := ⟨rfl, rfl, List.forall_mem_nil _⟩

theorem append (left : Names scope context before first (rest ++ after) mentions labels)
    (right : Names scope (context.after first) (first.reverse ++ before) rest after mentions' labels') :
    Names scope context before (first ++ rest) after (mentions ++ mentions') (labels ++ labels') where
  mentions := by rw [spots_append, List.filterMap_append, left.mentions, right.mentions]
  labels := by rw [spots_append, List.filterMap_append, left.labels, right.labels]
  apart spot member := by
    rw [spots_append] at member
    exact (List.mem_append.mp member).elim (left.apart spot) (right.apart spot)

/-- Nothing is declared at the lexeme. -/
theorem single (undeclared : Spot.declares ⟨context, before, here, after⟩ = false)
    (apart : here.isName = true → before.head?.any (·.isPunctuation ")") = false) {mention : Option Column.Mention}
    (told : Spot.mention? scope.names [] ⟨context, before, here, after⟩ = mention) :
    Names scope context before [here] after mention.toList [] where
  mentions := by
    rw [filterMap_cons, List.nil_append, mentioned?_undeclared undeclared, told]
    exact List.append_nil _
  labels := by
    rw [filterMap_cons, List.nil_append, labelled?_undeclared undeclared]
    rfl
  apart spot member := by
    obtain rfl := List.mem_singleton.mp member
    exact ⟨fun name _ => apart name, fun declares => absurd (undeclared.symm.trans declares) Bool.false_ne_true⟩

theorem skip (other : here.isName = false ∧ here.isWildcard = false)
    (later : Names scope (context.step here) (here :: before) rest after mentions labels) :
    Names scope context before (here :: rest) after mentions labels := by
  have nothing : Names scope context before [here] (rest ++ after) [] [] :=
    single (declares_of_other other.1) (fun name => absurd (other.1.symm.trans name) Bool.false_ne_true)
      (Proofs.ColumnSpots.mention?_of_other other.1 other.2)
  exact nothing.append later

theorem nameless {part : List Lexeme} (nameless : ∀ lexeme ∈ part, lexeme.isName = false ∧ lexeme.isWildcard = false) :
    Names scope context before part after [] [] := by
  induction part generalizing context before with
  | nil => exact .nil
  | cons lexeme part ih =>
    exact .skip
      (nameless lexeme List.mem_cons_self) (ih fun other member => nameless other (List.mem_cons_of_mem _ member))

end QueryFacts.Names

namespace QueryFacts.Proofs.MentionSpots
open Text Lexeme PlainText SelectList ColumnListStatement Selections FromClauses Clauses Spots ColumnSpots LabelSpots

section Dotted

variable {scope : AliasDeclaration.Scope} {context : Context} {before after : List Lexeme}
    {last : Lexeme} {apart : Bool} {name : String}

/-- A name in a place for columns. -/
theorem names_single (fresh : Fresh last) (halts : Halts after)
    (frames : ∀ frame ∈ context.opened.head?, frame.kind ≠ .withColumns ∧ frame.kind ≠ .createTableColumns)
    {sec : Section}
    (place : Spot.section? ⟨context, last :: before, ofName name apart, after⟩ = some sec) :
    Names scope context (last :: before) [ofName name apart] after
      (if Keyword.isIgnoredFunction (Keyword.normalForm name) then none
        else some (Column.Mention.ofName scope.names (nameBefore (ofName name apart :: last :: before)) sec)).toList
            [] :=
  .single (declares_of_fresh fresh) (fun _ => fresh.noClosing) (mention?_name fresh.toCalm halts frames rfl place)

/-- After AS a name is a label of what comes before it. -/
theorem names_label {word : String} {sec : Section} (opened : sec.OpenedBy word) (clause : context.clause = some word)
    (outside : context.opened = []) (level : openings before = []) {as : Lexeme} (reads : as.reads "AS" = true)
    (queryless : before.head?.any (·.isPunctuation ")") = false ∨
      ∀ lexeme ∈ (as :: before).dropLast, lexeme.reads "SELECT" = false)
    (halts : Halts after) :
    Names scope context (as :: before) [ofName name apart] after []
      [⟨name, some sec, distinct (scope.itemBefore (some (ofName name apart)) (as :: before))⟩] := by
  let spot : Spot := ⟨context, as :: before, ofName name apart, after⟩
  have keyword : as.side? = none := NestingRun.side?_of_keyword (Bool.and_eq_true .. ▸ reads : _ ∧ _).1
  have place : spot.clause = word := by rw [Spot.clause, clause]; rfl
  have noCast : spot.isInTypeCast = false := by
    rw [Spot.isInTypeCast, Spot.isIn, outside]
    rfl
  have named : spot.here.isName = true := rfl
  have noDot : spot.next.any isDot = false := halts.1
  have noParen : spot.next.any (·.isPunctuation "(") = false := halts.2
  have after : spot.previous.any (Lexeme.reads "AS") = true := reads
  have declares : spot.declares = true := by
    simp [Spot.declares, place, named, noDot, noParen, opened.columns, opened.free, after, noCast]
  have nothing : spot.mentioned? scope.names = none := by
    have excluded : spot.isExcluded [spot.before.length] = true := by simp [Spot.isExcluded, after]
    have wildcard : spot.here.isWildcard = false := rfl
    simp [Spot.mentioned?, Spot.mention?, declares, excluded, wildcard]
  refine ⟨?_, ?_, fun other member => ?_⟩
  · rw [filterMap_cons, List.nil_append, nothing]
    rfl
  · rw [filterMap_cons, List.nil_append, Spot.labelled?, if_pos declares, place, opened.opens]
    rfl
  · obtain rfl := List.mem_singleton.mp member
    refine ⟨fun _ _ => ?_, fun _ => ⟨?_, ?_⟩⟩
    · rw [Bool.eq_false_iff]
      exact fun closing => by cases (NestingRun.side?_eq_closing.mpr closing).symm.trans keyword
    · rw [openings, keyword]
      exact level
    · rwa [List.getElem?_cons_succ, ← List.head?_eq_getElem?]

/-- A name in front of a dot is the beginning of another. -/
theorem names_qualifier (noClosing : before.head?.any (·.isPunctuation ")") = false)
    (dotted : after.head?.any isDot = true) :
    Names scope context before [ofName name apart] after [] [] :=
  .single (declares_of_dot dotted) (fun _ => noClosing) (mention?_of_dot rfl dotted)

theorem names_beginning (noClosing : before.head?.any (·.isPunctuation ")") = false)
    (dotted : after.head?.any isDot = true)
    (apart : Bool) (first : String) (more : List String) :
    Names scope context before (dottedLexemes apart first more) after [] [] := by
  induction more generalizing context before apart first with
  | nil => exact names_qualifier noClosing dotted
  | cons part more ih =>
    have begins :
        Names scope context before [ofName first apart] (dot :: dottedLexemes false part more ++ after) [] [] :=
      names_qualifier noClosing rfl
    exact begins.append (.skip ⟨rfl, rfl⟩ (ih rfl false part))

/-- A dotted name is a column where it ends. -/
theorem names_dotted {word : String} {sec : Section} (opened : sec.OpenedBy word) (clause : context.clause = some word)
    (frames : ∀ frame ∈ context.opened.head?, frame.kind ≠ .withColumns ∧ frame.kind ≠ .createTableColumns)
    (fresh : Fresh last)
    (noDot : last.isDot = false) (halts : Halts after) (apart : Bool) (first : String) (more : List String)
    (column : Keyword.isIgnoredFunction (Keyword.normalForm ((first :: more).getLast (List.cons_ne_nil _ _))) = false) :
    Names scope context (last :: before) (dottedLexemes apart first more) after
      [Column.Mention.ofName scope.names (String.intercalate "." (first :: more)) sec] [] := by
  have undotted := undotted_cons noDot before
  rcases List.eq_nil_or_concat more with rfl | ⟨front, final, rfl⟩
  · have here : Spot.clause ⟨context, last :: before, ofName first apart, after⟩ = word := by
      rw [Spot.clause, clause]
      rfl
    have place : Spot.section? ⟨context, last :: before, ofName first apart, after⟩ =
        some sec := section?_of_clause opened here
    have named := @names_single scope context before after last apart first fresh halts frames sec place
    rwa [show Keyword.isIgnoredFunction (Keyword.normalForm first) =
      false from column, nameBefore_undotted undotted] at named
  · obtain ⟨name, -, apart', rest, split, parts⟩ := TableSpots.exists_dotted undotted apart first front
    have staying : dot.Staying := staying_of_wordless ⟨rfl, rfl⟩
    have resumes := (TableSpots.resumes_dotted context apart first front).trans (resumes_step staying)
    have place :
        Spot.section? ⟨(context.after (dottedLexemes apart first front)).step dot, dot :: ofName name apart' :: rest,
        ofName final false, after⟩ =
        some sec := section?_of_clause opened (by rw [Spot.clause, resumes.clause, clause]; rfl)
    have spelled : nameBefore (ofName final false :: dot :: ofName name apart' :: rest) =
        String.intercalate "." (first :: (front ++ [final])) := by
      have dotted : (dot.isDot && (ofName name apart').isName) = true := rfl
      rw [nameBefore, nameParts, if_pos dotted, parts]
      rfl
    have ending :=
      @names_single scope _ _ after dot false final fresh_dot halts (by rw [resumes.opened]; exact frames) sec place
    have kept : Keyword.isIgnoredFunction (Keyword.normalForm final) = false := by simpa using column
    have noClosing : (last :: before).head?.any (·.isPunctuation ")") = false := fresh.noClosing
    have beginning : Names scope context (last :: before) (dottedLexemes apart first front)
        ([dot, ofName final false] ++ after) [] [] := names_beginning noClosing rfl apart first front
    rw [kept, spelled] at ending
    rw [List.concat_eq_append, TableSpots.dottedLexemes_concat]
    refine beginning.append ?_
    rw [split]
    exact .skip ⟨rfl, rfl⟩ ending

/-- Outside of the clauses of columns, names are neither columns nor labels. -/
theorem names_of_clauses {part : List Lexeme}
    (clauses : ∀ spot ∈ spots context before part after,
      (Keyword.precedesColumns spot.clause || spot.clause == "INTO") = false) :
    Names scope context before part after [] [] := by
  have quiet (spot : Spot) (member : spot ∈ spots context before part after) :
      Keyword.precedesColumns spot.clause = false :=
    (Bool.or_eq_false_iff.mp (clauses spot member)).1
  refine ⟨List.filterMap_eq_nil_iff.mpr fun spot member => ?_, List.filterMap_eq_nil_iff.mpr fun spot member => ?_,
    fun spot member => ⟨fun _ columns => ?_, fun declares => ?_⟩⟩
  · rw [mentioned?_undeclared (declares_of_clause (quiet spot member))]
    exact mention?_of_clause (clauses spot member)
  · exact labelled?_undeclared (declares_of_clause (quiet spot member))
  · exact absurd ((quiet spot member).symm.trans columns) Bool.false_ne_true
  · exact absurd ((declares_of_clause (quiet spot member)).symm.trans declares) Bool.false_ne_true

theorem names_avoiding {part : List Lexeme}
    (avoids : context.Avoids fun word => Keyword.precedesColumns word || word == "INTO")
    (none : ∀ lexeme ∈ part, lexeme.Avoids fun word => Keyword.precedesColumns word || word == "INTO") :
    Names scope context before part after [] [] := names_of_clauses (clause_of_avoids avoids none)

end Dotted

section Statements

variable {limits : Limits} {lexemes : List Lexeme} {sequence : TokenSequence}
    (annotated : annotate limits lexemes = .ok sequence)
  (bodiless : Subquery.bodies sequence = {}) {scope : AliasDeclaration.Scope} {mentions : List Column.Mention}
  {labels : List LabelledItem} (names : Names scope (Context.start lexemes) [] lexemes [] mentions labels)
include annotated bodiless names

theorem mentions_eq :
    Column.mentions sequence scope.names ((Facts.declarations sequence {}).map (·.position)) = mentions := by
  have apart (spot : Spot) (within : Within lexemes spot) := (names.apart spot within.mem).1
  rw [← names.mentions, Column.mentions]
  refine filterMap_spots annotated fun spot within => ?_
  have declared := contains_declarations annotated apart bodiless within
  have same : ((Facts.declarations sequence {}).map (·.position)).contains spot.before.length =
      (if spot.declares then [spot.before.length] else []).contains spot.before.length := by
    rw [declared]
    cases spot.declares <;> simp
  have excluded : spot.isExcluded ((Facts.declarations sequence {}).map (·.position)) =
      spot.isExcluded (if spot.declares then [spot.before.length] else []) := by
    rw [Spot.isExcluded, Spot.isExcluded, same]
  rw [mention?_eq annotated within, Spot.mentioned?, Spot.mention?, Spot.mention?, excluded]

/-- The declarations, with the columns that each is for. -/
theorem labels_eq : (Facts.declarations sequence {}).map (fun declaration =>
    (⟨declaration.name, declaration.sec, scope.expressionColumns (sequence.cursor declaration.position)⟩ :
        LabelledItem)) = labels := by
  have apart (spot : Spot) (within : Within lexemes spot) := (names.apart spot within.mem).1
  rw [← names.labels, declarations_eq annotated apart bodiless, List.map_filterMap]
  refine List.filterMap_congr fun spot member => ?_
  have within := within_of_mem member
  rw [Spot.declaration?, Spot.labelled?]
  cases declares : spot.declares with
  | false => rfl
  | true =>
    obtain ⟨apart, level⟩ := names.apart spot member
    obtain ⟨outside, second⟩ := level declares
    have isName := name_of_declares declares
    have columns : Keyword.precedesColumns spot.clause = true := by
      cases clause : Keyword.precedesColumns spot.clause with
      | true => rfl
      | false => exact absurd ((declares_of_clause clause).symm.trans declares) Bool.false_ne_true
    have bare : spot.here.side? = none := side?_of_name isName
    rw [if_pos rfl, if_pos rfl, Option.map_some,
      expressionColumns_eq annotated within bare outside (apart isName columns) second]

theorem expressions : ∀ declaration ∈ Facts.declarations sequence {}, declaration.kind = .expression := by
  have apart (spot : Spot) (within : Within lexemes spot) := (names.apart spot within.mem).1
  intro declaration member
  rw [declarations_eq annotated apart bodiless] at member
  obtain ⟨spot, -, told⟩ := List.mem_filterMap.mp member
  obtain ⟨-, here⟩ := Option.ite_none_right_eq_some.mp told
  cases here
  rfl

end Statements

end QueryFacts.Proofs.MentionSpots
