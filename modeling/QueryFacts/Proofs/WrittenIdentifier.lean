import QueryFacts.Proofs.Layout
import QueryFacts.Proofs.PlainText
import QueryFacts.Proofs.Reread

/-! What becomes of a double-quoted identifier. It is written bare or in backticks, and then it is one
name among the lexemes of the text where nothing beside it joins it and, if it is bare, where it is no keyword. -/

namespace QueryFacts
open Text

namespace Lexer

/-- The lexer reads these items from the start of a text, one after the other, and comes to the rest. -/
inductive Arrives : List Char → List Item → List Char → Prop where
  | here {text : List Char} : Arrives text [] text
  | next {c : Char} {rest middle after : List Char} {item : Item}
    {items : List Item} (read : scan c rest = .ok (item, middle))
      (later : Arrives middle items after) : Arrives (c :: rest) (item :: items) after

/-- A letter and the quote after it begin a string, as in `N'..'` and `b".."`. -/
def beginsString (word after : List Char) : Bool :=
  match word, after with
  | [c], quote :: _ =>
    decide ((c = 'b' ∨ c = 'B') ∧ (quote = singleQuote ∨ quote = doubleQuote) ∨
      c ∈ ['n', 'N', 'x', 'X', 'e', 'E'] ∧ quote = singleQuote)
  | _, _ => false

end Lexer

/-- Between these lexemes a keyword is a name: next to a dot, or in the place of a function. -/
def Lexeme.isNameBetween (before after : Option Lexeme) (word : String) : Bool :=
  before.any (·.kind == .dot) || after.any (·.kind == .dot) ||
    (after.any (·.isPunctuation "(") && Keyword.isFunctionLike (upper word))

open Lexer Lexeme

/-- Between these items an identifier is a name of its own. A bare one does not go on, is not the letter before
a string, and is no keyword where it stands. One in backticks does not go on as if a backtick in it was doubled. -/
def StandsAlone (items others : List Item) (name after : List Char) : Prop :=
  if isPlainIdentifier name then
    after.head?.any isIdentifierPart = false ∧ beginsString name after = false ∧
      (Keyword.isReserved (upper (String.ofList name)) = true →
        isNameBetween (ofItems items).getLast? (ofItems others).head? (String.ofList name) = true)
  else after.head? ≠ some backtick

/-- The lexer comes to where an identifier is written and reads it as one item, and that item is one name among
the lexemes of the text. -/
def IsReadAsName (text name after : List Char) : Prop :=
  ∃ items kind quote others, Arrives text items (writeIdentifier name ++ after) ∧
    Arrives (writeIdentifier name ++ after) [.lexical kind name quote] after ∧ Lexer.items after = .ok others ∧
    ∃ front lexeme back, reclassifyAll (ofItems (items ++ .lexical kind name quote :: others)) =
      front ++ lexeme :: back ∧
      front.length = (ofItems items).length ∧ lexeme.kind = .name ∧ lexeme.value = String.ofList name ∧
      Lexeme.ofText text = .ok (mergeCompounds front ++ lexeme :: dropTerminators (mergeCompounds back))

namespace Proofs.WrittenIdentifier
open Lexer Lexeme PlainText

variable {text name after : List Char} {items : List Item}

/-- The items of the text are those that were read and those of the rest. -/
theorem items_of_arrives (arrives : Arrives text items after) :
    Lexer.items text = (Lexer.items after).map (items ++ ·) := by
  induction arrives with
  | here => exact (congrFun Except.map_id _).symm
  | @next c rest middle after item items read later ih =>
    rw [Lexer.items, read]
    change (Lexer.items middle).map (item :: ·) = _
    rw [ih]
    cases Lexer.items after <;> rfl

theorem isIdentifier_of_plain (plain : isPlainIdentifier name = true) : isIdentifier name = true := by
  have letter {c : Char} (alpha : c.isAlpha = true) : isIdentifierStart c = true := by
    simp [isIdentifierStart, isLetter, alpha]
  cases name with
  | nil => cases plain
  | cons c part =>
    simp only [isPlainIdentifier, Bool.and_eq_true, Bool.or_eq_true, beq_iff_eq, List.all_eq_true] at plain
    obtain ⟨first, rest⟩ := plain
    simp only [isIdentifier, Bool.and_eq_true, bne_iff_ne, List.all_eq_true]
    refine ⟨⟨?_, ?_⟩, fun d member => ?_⟩
    · rcases first with alpha | rfl
      · exact letter alpha
      · decide
    · rintro rfl
      revert first
      decide
    · rcases rest d member with (word | rfl) | rfl
      · rw [Char.isAlphanum, Bool.or_eq_true] at word
        rw [isIdentifierPart, Bool.or_eq_true]
        exact word.imp_left letter
      · decide
      · decide

theorem arrives_append {middle : List Char} {others : List Item} (first : Arrives text items middle)
    (second : Arrives middle others after) :
    Arrives text (items ++ others) after := by
  induction first with
  | here => exact second
  | next read later ih => exact .next read (ih second)

theorem arrives_one {c : Char} {rest : List Char} {item : Item} :
    Arrives (c :: rest) [item] after ↔ scan c rest = .ok (item, after) := by
  constructor
  · rintro (_ | ⟨read, ⟨⟩⟩)
    exact read
  · exact fun read => .next read .here

section Bare

variable {c : Char} {part rest : List Char}

/-- Only some letters are read together with a quote behind them. -/
theorem string?_eq_none_iff (unquoted : c ≠ singleQuote ∧ c ≠ doubleQuote ∧ c ≠ backtick) :
    string? c rest = none ↔ beginsString [c] rest = false := by
  obtain ⟨noSingle, noDouble, noTick⟩ := unquoted
  unfold string?
  simp only [if_neg noSingle, if_neg noDouble, if_neg noTick]
  cases rest with
  | nil => exact ⟨fun _ => rfl, fun _ => rfl⟩
  | cons quote rest =>
    simp only [List.head?_cons, beginsString, decide_eq_false_iff_not, List.mem_cons, List.not_mem_nil, or_false]
    split
    next bits => exact ⟨nofun, fun other => absurd (.inl bits) other⟩
    next noBits =>
      split
      next text => exact ⟨nofun, fun other => absurd (.inr ⟨by grind, text.2⟩) other⟩
      next noText =>
        split
        next escaped => exact ⟨nofun, fun other => absurd (.inr ⟨by grind, escaped.2⟩) other⟩
        next noEscape => exact ⟨fun _ => by grind, fun _ => rfl⟩

/-- What such a letter begins is no word. -/
theorem string?_ne_word (unquoted : c ≠ singleQuote ∧ c ≠ doubleQuote ∧ c ≠ backtick) {kind : TokenKind}
    (word : kind = .name ∨ kind = .keyword) {quote : Option Char} {value : List Char} :
    string? c rest ≠ some (.ok (.lexical kind value quote, after)) := by
  obtain ⟨noSingle, noDouble, noTick⟩ := unquoted
  unfold string?
  simp only [if_neg noSingle, if_neg noDouble, if_neg noTick]
  intro read
  repeat' split at read
  all_goals simp only [Option.some.injEq, reduceCtorEq] at read
  all_goals
    obtain ⟨inner, -, same⟩ := quotedItem_eq_ok.mp read
    cases same
    revert word
    decide

/-- A word is as long as it can be. -/
theorem wordFrom_iff (c : Char) {kind : TokenKind} {quote : Option Char}
    (parts : ∀ d ∈ part, isIdentifierPart d = true) :
    wordFrom [c] (part ++ after) = (.lexical kind (c :: part) quote, after) ↔
      Lexer.word (c :: part) = .lexical kind (c :: part) quote ∧ after.head?.any isIdentifierPart = false := by
  have whole : wordFrom [c] (part ++ after) =
      (word (c :: part ++ after.takeWhile isIdentifierPart), after.dropWhile isIdentifierPart) := by
    rw [wordFrom, List.takeWhile_append_of_pos parts, List.dropWhile_append_of_pos parts]
    rfl
  have ends : after.head?.any isIdentifierPart = false ↔ after.dropWhile isIdentifierPart = after := by
    cases after with
    | nil => exact ⟨fun _ => rfl, fun _ => rfl⟩
    | cons d after =>
      have shorter := (List.dropWhile_suffix isIdentifierPart (l := after)).length_le
      have longer : after.dropWhile isIdentifierPart ≠ d :: after := fun same => by
        rw [same, List.length_cons] at shorter
        omega
      cases goes : isIdentifierPart d <;> simp [goes, longer]
  have nothing (rest : after.dropWhile isIdentifierPart = after) : after.takeWhile isIdentifierPart = [] := by
    have parts := List.takeWhile_append_dropWhile (p := isIdentifierPart) (l := after)
    rwa [rest, List.append_left_eq_self] at parts
  rw [whole, Prod.mk.injEq, ends]
  constructor
  · rintro ⟨item, rest⟩
    rw [nothing rest, List.append_nil] at item
    exact ⟨item, rest⟩
  · rintro ⟨item, rest⟩
    rw [nothing rest, List.append_nil]
    exact ⟨item, rest⟩

theorem bare_iff (plain : isPlainIdentifier name = true) {kind : TokenKind} (word : kind = .name ∨ kind = .keyword)
    {quote : Option Char} : Arrives (name ++ after) [.lexical kind name quote] after ↔
      Lexer.word name = .lexical kind name quote ∧ after.head?.any isIdentifierPart = false ∧
          beginsString name after = false := by
  have spelled := isIdentifier_of_plain plain
  obtain ⟨c, part, rfl⟩ : ∃ c part, name = c :: part := List.exists_cons_of_ne_nil (by rintro rfl; cases spelled)
  have parts : ∀ d ∈ c :: part, isIdentifierPart d = true := fun d => isIdentifierPart_of_mem spelled
  have other {quote : Char} (noPart : isIdentifierPart quote = false) : ∀ d ∈ c :: part, d ≠ quote := by
    rintro d member rfl
    exact Bool.false_ne_true (noPart.symm.trans (parts d member))
  have noSingle := other (show isIdentifierPart singleQuote = false by decide)
  have noDouble := other (show isIdentifierPart doubleQuote = false by decide)
  have noTick := other (show isIdentifierPart backtick = false by decide)
  have unquoted : c ≠ singleQuote ∧ c ≠ doubleQuote ∧ c ≠ backtick :=
    ⟨noSingle c List.mem_cons_self, noDouble c List.mem_cons_self, noTick c List.mem_cons_self⟩
  have same : beginsString [c] (part ++ after) = beginsString (c :: part) after := by
    cases part with
    | nil => rfl
    | cons d part =>
      have single := noSingle d (List.mem_cons_of_mem _ List.mem_cons_self)
      have double := noDouble d (List.mem_cons_of_mem _ List.mem_cons_self)
      simp [beginsString, single, double]
  have starts : isIdentifierStart c = true ∧ c ≠ '@' := by
    rw [isIdentifier, Bool.and_eq_true, Bool.and_eq_true, bne_iff_ne] at spelled
    exact spelled.1
  simp only [List.cons_append, arrives_one, scan_identifier starts.1 starts.2]
  cases string : beginsString (c :: part) after with
  | true =>
    obtain ⟨found, read⟩ : ∃ found, string? c (part ++ after) = some found := by
      rw [← Option.ne_none_iff_exists', Ne, string?_eq_none_iff unquoted, same, string]
      exact Bool.noConfusion
    refine ⟨fun here => ?_, fun stands => absurd stands.2.2.symm Bool.false_ne_true⟩
    rw [read, Option.getD_some] at here
    exact absurd (read.trans (congrArg some here)) (string?_ne_word unquoted word)
  | false =>
    rw [(string?_eq_none_iff unquoted).mpr (same.trans string), Option.getD_none, Except.ok.injEq,
      wordFrom_iff c fun d member => parts d (List.mem_cons_of_mem _ member)]
    exact ⟨fun here => ⟨here.1, here.2, rfl⟩, fun stands => ⟨stands.1, stands.2.1⟩⟩

end Bare

theorem arrives_ticked_iff {kind : TokenKind} {quote : Option Char} :
    Arrives (enclose backtick (double backtick name) ++ after) [.lexical kind name quote] after ↔
      (kind = .name ∧ quote = some backtick) ∧ after.head? ≠ some backtick := by
  have whole :
      enclose backtick (double backtick name) ++ after = backtick :: (double backtick name ++ backtick :: after) := by
    simp [enclose]
  have scanned : scan backtick (double backtick name ++ backtick :: after) =
      quotedItem .unterminatedIdentifier (backtick :: (double backtick name ++ backtick :: after))
        (quotedBody backtick false (double backtick name ++ backtick :: after))
          (fun inner => .lexical .name inner (some backtick)) := rfl
  have light : weight backtick ≤ 1 := by decide
  have body := @Reread.quotedBody_double_iff backtick false light name after
  rw [whole, arrives_one, scanned, quotedItem_eq_ok]
  constructor
  · rintro ⟨inner, read, same⟩
    cases same
    exact ⟨⟨rfl, rfl⟩, (body.mp read).2⟩
  · rintro ⟨⟨rfl, rfl⟩, apart⟩
    exact ⟨name, body.mpr ⟨fun escaped => absurd escaped Bool.false_ne_true, apart⟩, rfl⟩

section Lexemes

variable {before after : Option Lexeme} {lexeme : Lexeme} {others : List Item}

private theorem isDot_reclassify : ((reclassify before lexeme after).kind == .dot) = (lexeme.kind == .dot) := by
  unfold reclassify
  split
  next keyword => dsimp only; split <;> simp [keyword]
  next star => dsimp only; split <;> simp [star]
  · rfl

/-- A word is told by the lexemes next to it, as they are told. -/
theorem reclassifyFrom_at (before : Option Lexeme) (first : List Lexeme) (lexeme : Lexeme) (rest : List Lexeme) :
    ∃ front back, reclassifyFrom before (first ++ lexeme :: rest) =
      front ++ reclassify (front.getLast?.or before) lexeme rest.head? :: back ∧
      front.length = first.length ∧ front.getLast?.any (·.kind == .dot) = first.getLast?.any (·.kind == .dot) := by
  induction first generalizing before with
  | nil => exact ⟨[], _, rfl, rfl, rfl⟩
  | cons head first ih =>
    let known := reclassify before head (first ++ lexeme :: rest).head?
    obtain ⟨front, back, told, length, dot⟩ := ih (some known)
    refine ⟨known :: front, back, ?_, congrArg (· + 1) length, ?_⟩
    · rw [List.cons_append, reclassifyFrom, told, List.getLast?_cons]
      cases front.getLast? <;> rfl
    · rw [List.getLast?_cons, List.getLast?_cons]
      cases front with
      | nil =>
        obtain rfl := List.length_eq_zero_iff.mp length.symm
        exact isDot_reclassify
      | cons other front =>
        obtain ⟨next, first, rfl⟩ := List.exists_cons_of_length_eq_add_one length.symm
        simpa [List.getLast?_cons] using dot

theorem kind_reclassify_iff : (reclassify before lexeme after).kind = .name ↔
    lexeme.kind = .name ∨ lexeme.kind = .keyword ∧ isNameBetween before after lexeme.value = true := by
  unfold reclassify isNameBetween
  split
  next keyword => dsimp only; split <;> simp_all
  next star => dsimp only; split <;> simp [star]
  next noKeyword noStar => exact ⟨.inl, fun told => told.elim id fun word => absurd word.1 noKeyword⟩

private theorem value_reclassify : (reclassify before lexeme after).value = lexeme.value := by
  unfold reclassify
  split
  · dsimp only; split <;> rfl
  · dsimp only; split <;> rfl
  · rfl

theorem ofItemsFrom_append (glued : Bool) (items others : List Item) :
    ∃ joined, ofItemsFrom glued (items ++ others) = ofItemsFrom glued items ++ ofItemsFrom joined others := by
  induction items generalizing glued with
  | nil => exact ⟨glued, rfl⟩
  | cons item items ih =>
    cases item with
    | gap => exact ih false
    | lexical kind value quote =>
      obtain ⟨joined, same⟩ := ih true
      exact ⟨joined, congrArg _ same⟩

private theorem isNameBetween_glued (word : String) :
    isNameBetween before (ofItemsFrom true others).head? word = isNameBetween before (ofItems others).head? word := by
  cases others with
  | nil => rfl
  | cons item others => cases item <;> rfl

end Lexemes

/-- The item of a word among others, as a lexeme of the text. -/
theorem lexeme_is_name_iff {kind : TokenKind} {quote : Option Char} {others : List Item}
    (read : Lexer.items text = .ok (items ++ .lexical kind name quote :: others)) :
    (∃ front lexeme back, reclassifyAll (ofItems (items ++ .lexical kind name quote :: others)) =
      front ++ lexeme :: back ∧
      front.length = (ofItems items).length ∧ lexeme.kind = .name ∧ lexeme.value = String.ofList name ∧
      Lexeme.ofText text = .ok (mergeCompounds front ++ lexeme :: dropTerminators (mergeCompounds back))) ↔
      kind = .name ∨ kind = .keyword ∧
        isNameBetween (ofItems items).getLast? (ofItems others).head? (String.ofList name) = true := by
  obtain ⟨joined, split⟩ := ofItemsFrom_append false items (.lexical kind name quote :: others)
  let lexeme : Lexeme := ⟨kind, String.ofList name, quote, !joined⟩
  have parts : ofItems (items ++ .lexical kind name quote :: others) =
      ofItems items ++ lexeme :: ofItemsFrom true others := split
  obtain ⟨front, back, told, length, dot⟩ := reclassifyFrom_at none (ofItems items) lexeme (ofItemsFrom true others)
  have between : isNameBetween (front.getLast?.or none) (ofItemsFrom true others).head? (String.ofList name) =
      isNameBetween (ofItems items).getLast? (ofItems others).head? (String.ofList name) := by
    rw [Option.or_none, isNameBetween_glued, isNameBetween, isNameBetween, dot]
  have named := @kind_reclassify_iff (front.getLast?.or none) (ofItemsFrom true others).head? lexeme
  have value := @value_reclassify (front.getLast?.or none) (ofItemsFrom true others).head? lexeme
  rw [between] at named
  generalize reclassify (front.getLast?.or none) lexeme (ofItemsFrom true others).head? = known at told named value
  rw [← named, parts, reclassifyAll, told]
  constructor
  · rintro ⟨front', lexeme', back', same, length', isName, -⟩
    obtain ⟨-, same⟩ := List.append_inj same (length.trans length'.symm)
    rw [(List.cons.inj same).1]
    exact isName
  · intro isName
    have free : known.isKeyword = false := by simp [isKeyword, isName]
    have solid : known.isPunctuation ";" = false := by simp [isPunctuation, isName]
    refine ⟨front, known, back, rfl, length, isName, value, ?_⟩
    rw [Lexeme.ofText, read]
    simp only [Except.map, parts, reclassifyAll, told, BodyLexemes.mergeCompounds_free free,
      WrittenBody.dropTerminators_append solid]

/-- An identifier is read as a name of a text exactly where the lexer comes to it and it stands alone. -/
theorem isReadAsName_iff : IsReadAsName text name after ↔
    ∃ items others, Arrives text items (writeIdentifier name ++ after) ∧
    Lexer.items after = .ok others ∧ StandsAlone items others name after := by
  have whole {items others : List Item} {kind : TokenKind}
      {quote : Option Char} (before : Arrives text items (writeIdentifier name ++ after))
      (here : Arrives (writeIdentifier name ++ after) [.lexical kind name quote] after)
      (rest : Lexer.items after = .ok others) :
      Lexer.items text = .ok (items ++ .lexical kind name quote :: others) := by
    rw [items_of_arrives before, items_of_arrives here, rest]
    rfl
  constructor
  · rintro ⟨items, kind, quote, others, before, here, rest, found⟩
    have told := (lexeme_is_name_iff (whole before here rest)).mp found
    refine ⟨items, others, before, rest, ?_⟩
    unfold StandsAlone
    split
    next plain =>
      have word : kind = .name ∨ kind = .keyword := told.imp_right And.left
      rw [writeIdentifier, if_pos plain, bare_iff plain word] at here
      obtain ⟨item, ends, noString⟩ := here
      refine ⟨ends, noString, fun reserved => ?_⟩
      rw [Lexer.word, reserved] at item
      cases item
      exact (told.resolve_left (by decide)).2
    next other =>
      rw [writeIdentifier, if_neg other, arrives_ticked_iff] at here
      exact here.2
  · rintro ⟨items, others, before, rest, stands⟩
    unfold StandsAlone at stands
    split at stands
    next plain =>
      obtain ⟨ends, noString, between⟩ := stands
      let kind : TokenKind := if Keyword.isReserved (upper (String.ofList name)) then .keyword else .name
      have told : kind = .name ∨ kind = .keyword ∧
          isNameBetween (ofItems items).getLast? (ofItems others).head? (String.ofList name) = true := by
        unfold kind
        split
        next reserved => exact .inr ⟨rfl, between reserved⟩
        next => exact .inl rfl
      have here : Arrives (writeIdentifier name ++ after) [.lexical kind name none] after := by
        rw [writeIdentifier, if_pos plain]
        exact (bare_iff plain (told.imp_right And.left)).mpr ⟨rfl, ends, noString⟩
      exact ⟨items, _, _, others, before, here, rest, (lexeme_is_name_iff (whole before here rest)).mpr told⟩
    next other =>
      have here : Arrives (writeIdentifier name ++ after) [.lexical .name name (some backtick)] after := by
        rw [writeIdentifier, if_neg other]
        exact arrives_ticked_iff.mpr ⟨⟨rfl, rfl⟩, stands⟩
      exact ⟨items, _, _, others, before, here, rest, (lexeme_is_name_iff (whole before here rest)).mpr (.inl rfl)⟩

theorem normalize_doubleQuoted (inner : List Char) :
    Segment.normalize ⟨.doubleQuoted, enclose doubleQuote inner⟩ = writeIdentifier inner := by
  rw [Segment.normalize, enclose, List.cons_append, enclosed?, List.getLast?_concat, if_pos ⟨rfl, rfl⟩,
    List.dropLast_concat]
  rfl

/-- A double-quoted identifier is written where it stood. -/
theorem normalize_parts {inner : List Char} {front back : List Segment}
    (parts : Segment.ofText text = front ++ ⟨.doubleQuoted, enclose doubleQuote inner⟩ :: back) :
    normalize text = front.flatMap Segment.normalize ++ (writeIdentifier inner ++ back.flatMap Segment.normalize) := by
  rw [normalize, parts, List.flatMap_append, List.flatMap_cons, normalize_doubleQuoted]

end Proofs.WrittenIdentifier

end QueryFacts
