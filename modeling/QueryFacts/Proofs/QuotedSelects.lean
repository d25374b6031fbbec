import QueryFacts.Proofs.MentionSpots
import QueryFacts.Proofs.SegmentCuts
import QueryFacts.Proofs.Unnested
import QueryFacts.Proofs.WrittenIdentifier

/-! Statements that select quoted names from a table. With the names between double quotes, a name that
can be written bare is written so, and is then a keyword or a function like any other word. -/

namespace QueryFacts
open Text Lexer

/-- A name that stays as it is between quotes, and that has one part. -/
def IsQuotable (name : String) : Prop := ∀ c ∈ name.toList, c ≠ doubleQuote ∧ c ≠ backtick ∧ c ≠ '\\' ∧ c ≠ '.'

instance : DecidablePred IsQuotable := fun name =>
  List.decidableBAll (fun c => c ≠ doubleQuote ∧ c ≠ backtick ∧ c ≠ '\\' ∧ c ≠ '.') name.toList

/-- Written bare, the name means what it means in backticks. -/
def IsHarmless (name : String) : Prop :=
  isPlainIdentifier name.toList = true → Keyword.isReserved (upper name) = false ∧
    (Keyword.isIgnoredFunction (Keyword.normalForm name) = true → Keyword.isIgnoredFunction name = true)

instance : DecidablePred IsHarmless := fun name =>
  inferInstanceAs (Decidable (isPlainIdentifier name.toList = true → Keyword.isReserved (upper name) = false ∧
    (Keyword.isIgnoredFunction (Keyword.normalForm name) = true → Keyword.isIgnoredFunction name = true)))

/-- SELECT, names with commas between them, FROM, and the name `t`. -/
def selectText (write : String → List Char) (first : String) (more : List String) : List Char :=
  "SELECT ".toList ++
    (write first ++ (more.flatMap (fun name => ", ".toList ++ write name) ++ (" FROM ".toList ++ write "t")))

def quotedSelect (quote : Char) (first : String) (more : List String) : String :=
  String.ofList (selectText (fun name => enclose quote name.toList) first more)

/-- A name as it is written in the normalized text: in backticks, or bare where that is possible. -/
def writeName (bare : Bool) (name : String) : List Char :=
  if bare then writeIdentifier name.toList else enclose backtick name.toList

namespace Lexeme

/-- What a written name is read as. -/
def ofWritten (bare : Bool) (name : String) : Lexeme :=
  if bare && isPlainIdentifier name.toList then
    ⟨if Keyword.isReserved (upper name) then .keyword else .name, name, none, true⟩
  else ⟨.name, name, some backtick, true⟩

def ofNames (bare : Bool) (first : String) (more : List String) : List Lexeme :=
  ofWritten bare first :: more.flatMap fun name => [comma, ofWritten bare name]

/-- The lexemes of the statement. -/
def ofSelect (bare : Bool) (first : String) (more : List String) : List Lexeme :=
  ofKeyword "SELECT" true :: (ofNames bare first more ++ [ofKeyword "FROM" true, ofWritten bare "t"])

/-- What stands between the names. -/
def betweenNames : List Lexeme := [ofKeyword "SELECT" true, ofKeyword "FROM" true, comma]

end Lexeme

end QueryFacts

namespace QueryFacts.Proofs.QuotedSelects
open Text Lexer Lexeme PlainText WrittenIdentifier NormalizedText

section Normalize

variable {quote : Char} {kind : SegmentKind} {name : String} {after : List Char}

/-- A backslash counts in all quotes but backticks. -/
private theorem closesQuote_name {text : List Char} (plain : ∀ c ∈ text, c ≠ quote ∧ (c = '\\' → quote = backtick)) :
    closesQuote quote (text ++ [quote]) = true := by
  induction text with
  | nil => exact beq_self_eq_true quote
  | cons c text ih =>
    obtain ⟨⟨noQuote, noEscape⟩, others⟩ := List.forall_mem_cons.mp plain
    have later := ih others
    cases whole : text ++ [quote] with
    | nil => simp at whole
    | cons d rest =>
      rw [whole] at later
      rw [List.cons_append, whole, closesQuote, if_neg (fun escaped => escaped.2 (noEscape escaped.1)),
        if_neg noQuote, later]

theorem normalize_name (quoted : kind.quote? = some quote)
    (plain : ∀ c ∈ name.toList, c ≠ quote ∧ (c = '\\' → quote = backtick))
    (apart : after.head? ≠ some quote) : normalize (enclose quote name.toList ++ after) =
      Segment.normalize ⟨kind, enclose quote name.toList⟩ ++ normalize after := by
  have closed := SegmentCuts.throughQuote_closed quoted (closesQuote_name plain) apart
  have whole : enclose quote name.toList ++ after = quote :: (name.toList ++ [quote] ++ after) := rfl
  rw [whole, normalize, Layout.flatMap_quote quoted, closed]
  rfl

/-- What comes after a name does not begin with a quote. -/
private theorem apart_rest (quoted : kind.quote? = some quote) (write : String → List Char) (more : List String) :
    (more.flatMap (fun name => ", ".toList ++ write name) ++ (" FROM ".toList ++ write "t")).head? ≠ some quote := by
  have other : quote ≠ ' ' ∧ quote ≠ ',' := by
    cases kind <;> cases quoted <;> decide
  cases more with
  | nil => exact fun same => other.1 (Option.some.inj same).symm
  | cons name more => exact fun same => other.2 (Option.some.inj same).symm

theorem normalize_select (quoted : kind.quote? = some quote) {first : String} {more : List String}
    (plain : ∀ name ∈ first :: more, ∀ c ∈ name.toList, c ≠ quote ∧ (c = '\\' → quote = backtick)) :
    normalize (selectText (fun name => enclose quote name.toList) first more) =
      selectText (fun name => Segment.normalize ⟨kind, enclose quote name.toList⟩) first more := by
  have code : (∀ c ∈ "SELECT ".toList, isCode c = true) ∧ (∀ c ∈ ", ".toList, isCode c = true) ∧
      ∀ c ∈ " FROM ".toList, isCode c = true :=
    ⟨List.all_eq_true.mp (by decide), List.all_eq_true.mp (by decide), List.all_eq_true.mp (by decide)⟩
  have table : ∀ c ∈ "t".toList, c ≠ quote ∧ (c = '\\' → quote = backtick) :=
    List.forall_mem_singleton.mpr (by cases kind <;> cases quoted <;> decide)
  have last : normalize (enclose quote "t".toList) = Segment.normalize ⟨kind, enclose quote "t".toList⟩ := by
    have whole := @normalize_name _ _ _ [] quoted table nofun
    rwa [List.append_nil, normalize_nil, List.append_nil] at whole
  unfold selectText
  rw [normalize_append code.1, List.append_cancel_left_eq]
  induction more generalizing first with
  | nil =>
    rw [normalize_name quoted (plain first List.mem_cons_self) (apart_rest quoted _ []),
      List.flatMap_nil, List.flatMap_nil, List.nil_append, List.nil_append, normalize_append code.2.2, last]
  | cons next more ih =>
    obtain ⟨here, others⟩ := List.forall_mem_cons.mp plain
    rw [normalize_name quoted here (apart_rest quoted _ (next :: more)), List.flatMap_cons,
      List.flatMap_cons, List.append_assoc, List.append_assoc, List.append_assoc, List.append_assoc,
      normalize_append code.2.1, ih others]

end Normalize

section Reading

variable {bare : Bool} {name first : String} {more : List String} {after : List Char}

theorem normalize_quotedSelect (quotable : ∀ name ∈ first :: more, IsQuotable name) :
    normalize (quotedSelect doubleQuote first more).toList = selectText (writeName true) first more ∧
      normalize (quotedSelect backtick first more).toList = selectText (writeName false) first more := by
  have double : SegmentKind.doubleQuoted.quote? = some doubleQuote := rfl
  have tick : SegmentKind.backticked.quote? = some backtick := rfl
  rw [quotedSelect, quotedSelect, String.toList_ofList, String.toList_ofList]
  constructor
  · rw [normalize_select double fun name member c inside =>
      ⟨(quotable name member c inside).1, fun escape => absurd escape (quotable name member c inside).2.2.1⟩]
    simp only [normalize_doubleQuoted]
    rfl
  · exact normalize_select tick fun name member c inside => ⟨(quotable name member c inside).2.1, fun _ => rfl⟩

/-- The item that a written name is read as. -/
def nameItem (bare : Bool) (name : String) : Item :=
  .lexical (ofWritten bare name).kind name.toList (ofWritten bare name).quote

theorem arrives_name (quotable : IsQuotable name) (bounded : after.head?.all isBoundary = true) :
    Arrives (writeName bare name ++ after) [nameItem bare name] after := by
  have unticked : double backtick name.toList = name.toList :=
    Reread.double_of_backticks_eq_zero (List.count_eq_zero.mpr fun member => (quotable _ member).2.1 rfl)
  have apart : after.head? ≠ some backtick := by
    intro same
    rw [same, Option.all_some] at bounded
    exact absurd bounded (by decide)
  have ticked : Arrives (enclose backtick name.toList ++ after) [.lexical .name name.toList (some backtick)] after := by
    have read := (@arrives_ticked_iff name.toList after .name (some backtick)).mpr ⟨⟨rfl, rfl⟩, apart⟩
    rwa [unticked] at read
  unfold writeName nameItem ofWritten writeIdentifier
  cases bare with
  | false => exact ticked
  | true =>
    cases plain : isPlainIdentifier name.toList with
    | false =>
      simp only [Bool.true_and, Bool.false_eq_true, if_false, if_true, unticked]
      exact ticked
    | true =>
      simp only [Bool.true_and, if_true]
      have spelled := isIdentifier_of_plain plain
      cases whole : name.toList with
      | nil => rw [whole] at spelled; cases spelled
      | cons c part =>
        have same : String.ofList (c :: part) = name := by rw [← whole, String.ofList_toList]
        rw [whole] at spelled
        rw [List.cons_append, arrives_one, scan_word spelled bounded, word, same]

/-- The gap behind a word or a comma. -/
private theorem arrives_gap {text : List Char} {item : Item} (read : Arrives text [item] (' ' :: after)) :
    Arrives text [item, .gap] after := arrives_append read (.next rfl .here)

theorem arrives_keyword {word : String} (spelled : isIdentifier word.toList = true)
    (reserved : Keyword.isReserved (upper word) = true)
    (after : List Char) :
    Arrives (word.toList ++ ' ' :: after) [.lexical .keyword word.toList none] (' ' :: after) := by
  cases whole : word.toList with
  | nil => rw [whole] at spelled; cases spelled
  | cons c part =>
    have same : String.ofList (c :: part) = word := by rw [← whole, String.ofList_toList]
    rw [whole] at spelled
    rw [List.cons_append, arrives_one, scan_word spelled rfl, Lexer.word, same, reserved]
    rfl

theorem arrives_comma (after : List Char) :
    Arrives (", ".toList ++ after) [.lexical .punctuation [','] none, .gap] after :=
  arrives_gap (arrives_one.mpr (scan_symbol_alone (by decide) (by decide) _))

/-- The items of the statement. -/
def selectItems (bare : Bool) (first : String) (more : List String) : List Item :=
  .lexical .keyword "SELECT".toList none :: .gap :: nameItem bare first ::
    (more.flatMap (fun name => [.lexical .punctuation [','] none, .gap, nameItem bare name]) ++
      [.gap, .lexical .keyword "FROM".toList none, .gap, nameItem bare "t"])

theorem isQuotable_t : IsQuotable "t" := by decide

theorem arrives_select (quotable : ∀ name ∈ first :: more, IsQuotable name) :
    Arrives (selectText (writeName bare) first more) (selectItems bare first more) [] := by
  have start (after : List Char) :
      Arrives ("SELECT ".toList ++ after) [.lexical .keyword "SELECT".toList none, .gap] after :=
    arrives_gap (@arrives_keyword "SELECT" (by decide) (by decide) after)
  have table :
      Arrives (" FROM ".toList ++ writeName bare "t")
          [.gap, .lexical .keyword "FROM".toList none, .gap, nameItem bare "t"] [] := by
    have last := @arrives_name bare "t" [] isQuotable_t rfl
    rw [List.append_nil] at last
    have word := arrives_gap (@arrives_keyword "FROM" (by decide) (by decide) (writeName bare "t"))
    exact .next rfl (arrives_append word last)
  refine arrives_append (start _) ?_
  induction more generalizing first with
  | nil =>
    have here := quotable first List.mem_cons_self
    exact arrives_append (arrives_name here rfl) table
  | cons next more ih =>
    obtain ⟨here, others⟩ := List.forall_mem_cons.mp quotable
    rw [List.flatMap_cons, List.append_assoc, List.append_assoc]
    exact arrives_append (arrives_name here rfl) (arrives_append (arrives_comma _) (ih others))

theorem ofItems_select : ofItems (selectItems bare first more) = ofSelect bare first more := by
  have named (name : String) (rest : List Item) :
      ofItemsFrom false (nameItem bare name :: rest) = ofWritten bare name :: ofItemsFrom true rest := by
    rw [nameItem, ofItemsFrom, String.ofList_toList]
    unfold ofWritten
    split <;> rfl
  rw [ofItems, selectItems, ofItemsFrom, ofItemsFrom, named, ofSelect, ofNames, List.cons_append]
  refine congrArg (fun rest => ofKeyword "SELECT" true :: ofWritten bare first :: rest) ?_
  induction more with
  | nil =>
    change ofItemsFrom true [.gap, .lexical .keyword "FROM".toList none, .gap, nameItem bare "t"] = _
    rw [ofItemsFrom, ofItemsFrom, ofItemsFrom, named]
    rfl
  | cons next more ih =>
    rw [List.flatMap_cons, List.flatMap_cons, List.append_assoc, List.append_assoc, ← ih]
    change ofItemsFrom true (.lexical .punctuation [','] none :: .gap :: nameItem bare next :: _) = _
    rw [ofItemsFrom, ofItemsFrom, named]
    rfl

/-- Keywords stay keywords and stars stay stars where there are no dots, calls and stars. -/
theorem reclassifyFrom_plain {before : Option Lexeme} {lexemes : List Lexeme}
    (undotted : ∀ last ∈ before, last.kind ≠ .dot)
    (plain : ∀ lexeme ∈ lexemes, lexeme.kind ≠ .dot ∧ lexeme.kind ≠ .wildcard ∧ lexeme.isPunctuation "(" = false) :
    reclassifyFrom before lexemes = lexemes := by
  induction lexemes generalizing before with
  | nil => rfl
  | cons lexeme rest ih =>
    obtain ⟨⟨noDot, noStar, -⟩, others⟩ := List.forall_mem_cons.mp plain
    have left : before.any (·.kind == .dot) = false := by
      rw [Option.any_eq_false]
      exact fun last found => by simpa using undotted last found
    have right : rest.head?.any (·.kind == .dot) = false ∧ rest.head?.any (·.isPunctuation "(") = false := by
      rw [Option.any_eq_false, Option.any_eq_false]
      exact ⟨fun next found => by simpa using (others next (List.mem_of_mem_head? found)).1,
        fun next found => by simpa using (others next (List.mem_of_mem_head? found)).2.2⟩
    have told : reclassify before lexeme rest.head? = lexeme := by
      unfold reclassify
      split
      · simp [left, right]
      next star => exact absurd star noStar
      · rfl
    rw [reclassifyFrom, told, ih (fun last same => Option.some.inj same ▸ noDot) others]

theorem mem_ofSelect {lexeme : Lexeme} (member : lexeme ∈ ofSelect bare first more) :
    lexeme ∈ betweenNames ∨ ∃ name, (name = "t" ∨ name ∈ first :: more) ∧ lexeme = ofWritten bare name := by
  simp only [ofSelect, ofNames, List.cons_append, List.mem_cons, List.mem_append, List.mem_flatMap,
    List.not_mem_nil, or_false] at member
  rcases member with rfl | rfl | ⟨name, inside, rfl | rfl⟩ | rfl | rfl
  · exact .inl (by simp [betweenNames])
  · exact .inr ⟨first, .inr List.mem_cons_self, rfl⟩
  · exact .inl (by simp [betweenNames])
  · exact .inr ⟨name, .inr (List.mem_cons_of_mem _ inside), rfl⟩
  · exact .inl (by simp [betweenNames])
  · exact .inr ⟨"t", .inl rfl, rfl⟩

theorem kind_ofWritten (bare : Bool) (name : String) :
    (ofWritten bare name).kind = .name ∨ (ofWritten bare name).isKeyword = true := by
  unfold ofWritten
  split
  · split
    · exact .inr rfl
    · exact .inl rfl
  · exact .inl rfl

/-- Nothing in the statement is a dot, a star, a parenthesis or a semicolon. -/
theorem plain_ofSelect {lexeme : Lexeme} (member : lexeme ∈ ofSelect bare first more) :
    lexeme.kind ≠ .dot ∧ lexeme.kind ≠ .wildcard ∧ ∀ mark ∈ ["(", ")", ";"], lexeme.isPunctuation mark = false := by
  rcases mem_ofSelect member with between | ⟨name, -, rfl⟩
  · have words : ∀ word ∈ betweenNames, word.kind ≠ .dot ∧ word.kind ≠ .wildcard ∧
        ∀ mark ∈ ["(", ")", ";"], word.isPunctuation mark = false := by
      decide
    exact words lexeme between
  · rcases kind_ofWritten bare name with kind | kind
    · simp [kind, isPunctuation]
    · have kind : (ofWritten bare name).kind = .keyword := eq_of_beq kind
      simp [kind, isPunctuation]

/-- Of two lexemes next to each other, one stands between names. -/
theorem beside_ofSelect : (ofSelect bare first more).IsChain fun last next => last ∈ betweenNames ∨
    next ∈ betweenNames := by
  have inside : ofKeyword "SELECT" true ∈ betweenNames ∧ ofKeyword "FROM" true ∈ betweenNames ∧
      comma ∈ betweenNames := by decide
  refine .cons_cons (.inl inside.1) ?_
  induction more generalizing first with
  | nil => exact .cons_cons (.inr inside.2.1) (.cons_cons (.inl inside.2.1) (.singleton _))
  | cons next more ih => exact .cons_cons (.inr inside.2.2) (.cons_cons (.inl inside.2.2) ih)

theorem ofText_select (quotable : ∀ name ∈ first :: more, IsQuotable name) :
    Lexeme.ofText (selectText (writeName bare) first more) = .ok (ofSelect bare first more) := by
  have items : Lexer.items (selectText (writeName bare) first more) = .ok (selectItems bare first more) := by
    rw [items_of_arrives (arrives_select quotable), Lexer.items]
    exact congrArg Except.ok (List.append_nil _)
  have told : reclassifyAll (ofSelect bare first more) = ofSelect bare first more :=
    reclassifyFrom_plain (fun last found => absurd found (Option.not_mem_none last)) fun lexeme member =>
      ⟨(plain_ofSelect member).1, (plain_ofSelect member).2.1, (plain_ofSelect member).2.2 _ (by decide)⟩
  have merged : mergeCompounds (ofSelect bare first more) = ofSelect bare first more := by
    refine compounds_apart (beside_ofSelect.imp fun last next between => ?_)
    have words : ∀ word ∈ betweenNames, (word.takesBy = false ∧ word.isJoinPrefix = false) ∧
        word.isWord "BY" = false ∧ word.isWord "JOIN" = false := by decide
    rcases between with first | second
    · simp [endsKeyword, words last first]
    · simp [endsKeyword, words next second]
  have ended : dropTerminators (ofSelect bare first more) = ofSelect bare first more := by
    refine WrittenBody.dropTerminators_eq ?_
    rw [Option.any_eq_false]
    intro last found
    simp [(plain_ofSelect (List.mem_of_getLast? found)).2.2 ";" (by decide)]
  rw [Lexeme.ofText, items]
  simp only [Except.map, ofItems_select, told, merged, ended]

end Reading

end QueryFacts.Proofs.QuotedSelects
