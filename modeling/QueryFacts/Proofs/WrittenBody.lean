import QueryFacts.Proofs.Acceptance
import QueryFacts.Proofs.BodyLexemes
import QueryFacts.Proofs.Reread

/-! When the body of a pair of parentheses, written out and read again, gives the tokens
that it was written from. It does exactly when each item of it is read from its own text
there: an item that is read otherwise can not be made up for by the items around it. -/

namespace QueryFacts
open Lexer

/-- What a token is, wherever it stands. -/
def Token.reading (token : Token) : String × TokenKind × Option Char := (token.value, token.kind, token.quote)

def Lexeme.reading (lexeme : Lexeme) : String × TokenKind × Option Char := (lexeme.value, lexeme.kind, lexeme.quote)

theorem Token.Writes.reading {token : Token} {lexeme : Lexeme} (writes : token.Writes lexeme) :
    token.reading = lexeme.reading := by
  rw [Token.reading, Lexeme.reading, writes.value, writes.kind, writes.quote]

namespace TokenSequence

/-- The text between two positions, in normal form, is read as the tokens between them. -/
def Survives (sequence : TokenSequence) (limits : Limits) (first last : Nat) : Prop :=
  ∃ body, tokenize limits (normalize (sequence.write first last).toList) = .ok body ∧
    body.tokens.toList.map Token.reading = (sequence.between first last).map Token.reading

/-- The text between two positions is in normal form, all items of it are read from what
they are written as, and it does not end in a semicolon. -/
structure WritesBack (sequence : TokenSequence) (first last : Nat) : Prop where
  normal : normalize (sequence.write first last).toList = (sequence.write first last).toList
  items : ReadBack ((sequence.between first last).flatMap Token.items) (sequence.write first last).toList
  unended : (sequence.between first last).getLast?.any (·.isPunctuation ";") = false

end TokenSequence

end QueryFacts

namespace QueryFacts.Proofs.WrittenBody
open Lexer Parenthesis NestingRun WellNested Acceptance Reread LexemeItems BodyLexemes

private theorem dense_intercalate (parts : List (List Char)) :
    dense (List.intercalate [' '] parts) = dense parts.flatten := by
  induction parts with
  | nil => rfl
  | cons part rest ih =>
    cases rest with
    | nil => rw [List.intercalate_singleton, List.flatten_singleton]
    | cons next rest =>
      have alone : dense [' '] = [] := rfl
      change _ = dense (part ++ (next :: rest).flatten)
      rw [List.intercalate_cons_cons, dense_append, dense_append, dense_append, alone, List.append_nil, ih]

private theorem flatMap_word (parts : List (List Char)) : (parts.map word).flatMap Item.text = parts.flatten := by
  induction parts with
  | nil => rfl
  | cons part rest ih => rw [List.map_cons, List.flatMap_cons, ih]; rfl

/-- But for spaces, a token is written as the items that it is made of. -/
theorem dense_display (token : Token) : dense token.display.toList = dense (token.items.flatMap Item.text) := by
  unfold Token.display Token.items
  cases token.quote with
  | some quote => simp [itemsOf, Item.text]
  | none =>
    cases kind : token.kind with
    | keyword =>
      simp only [itemsOf]
      rw [flatMap_word, ← dense_intercalate, List.intercalate_splitOn]
    | operator =>
      simp only [itemsOf]
      split <;> simp [Item.text]
    | name | punctuation | dot | wildcard | integer | float | literal => simp [itemsOf, Item.text, word]

theorem dense_writeAfter (before : Option Token) (tokens : List Token) :
    dense (Token.writeAfter before tokens) = dense ((tokens.flatMap Token.items).flatMap Item.text) := by
  induction tokens generalizing before with
  | nil => rfl
  | cons token rest ih =>
    rw [Token.writeAfter, dense_append, dense_append, ih, dense_display, List.flatMap_cons,
      List.flatMap_append, dense_append]
    split <;> rfl

theorem solid_text (items : List Item) : (solid items).flatMap Item.text = items.flatMap Item.text := by
  induction items with
  | nil => rfl
  | cons item rest ih =>
    rw [solid, List.filter_cons]
    split
    next => rw [List.flatMap_cons, List.flatMap_cons, ← ih]; rfl
    next gap =>
      obtain rfl : item = .gap := by simpa using gap
      exact ih

/-- Only semicolons are dropped at the end of a statement, and all of them. -/
theorem dropTerminators_marks (lexemes : List Lexeme) :
    ∃ marks, lexemes = Lexeme.dropTerminators lexemes ++ marks ∧ (∀ mark ∈ marks, mark.isPunctuation ";" = true) ∧
      (Lexeme.dropTerminators lexemes).getLast?.any (·.isPunctuation ";") = false := by
  refine ⟨(lexemes.reverse.takeWhile (·.isPunctuation ";")).reverse, ?_, ?_, ?_⟩
  · rw [Lexeme.dropTerminators, ← List.reverse_append, List.takeWhile_append_dropWhile, List.reverse_reverse]
  · intro mark member
    exact List.all_eq_true.mp List.all_takeWhile mark (List.mem_reverse.mp member)
  · have stops := List.head?_dropWhile_not (fun lexeme : Lexeme => lexeme.isPunctuation ";") lexemes.reverse
    rw [Lexeme.dropTerminators, List.getLast?_reverse]
    cases last : (lexemes.reverse.dropWhile (·.isPunctuation ";")).head? with
    | none => rfl
    | some lexeme => rwa [last] at stops

theorem dropTerminators_eq {lexemes : List Lexeme} (unended : lexemes.getLast?.any (·.isPunctuation ";") = false) :
    Lexeme.dropTerminators lexemes = lexemes := by
  rw [Lexeme.dropTerminators]
  cases last : lexemes.getLast? with
  | none => rw [List.getLast?_eq_none_iff.mp last]; rfl
  | some lexeme =>
    obtain ⟨front, rfl⟩ := List.getLast?_eq_some_iff.mp last
    rw [last] at unended
    rw [List.reverse_append, List.reverse_singleton, List.singleton_append,
      List.dropWhile_cons_of_neg (by simpa using unended), List.reverse_cons, List.reverse_reverse]

/-- Semicolons are dropped only behind the last lexeme that is none. -/
theorem dropTerminators_append {lexeme : Lexeme} (solid : lexeme.isPunctuation ";" = false) (front rest : List Lexeme) :
    Lexeme.dropTerminators (front ++ lexeme :: rest) = front ++ lexeme :: Lexeme.dropTerminators rest := by
  have stops : (lexeme :: front.reverse).dropWhile (·.isPunctuation ";") = lexeme :: front.reverse :=
    List.dropWhile_cons_of_neg (by simp [solid])
  rw [Lexeme.dropTerminators, Lexeme.dropTerminators, List.reverse_append, List.reverse_cons,
    List.append_assoc, List.singleton_append, List.dropWhile_append]
  split
  next all =>
    rw [stops, List.isEmpty_iff.mp all, List.reverse_cons, List.reverse_reverse, List.reverse_nil]
  next => simp

/-- A text that is read is read as its items, with the semicolons at its end dropped. -/
theorem ofText_items {text : List Char} {lexemes : List Lexeme} (read : Lexeme.ofText text = .ok lexemes) :
    ∃ found, Lexer.items text = .ok found ∧ (∀ lexeme ∈ Lexeme.ofItems found, lexeme.Single) ∧
      (Lexeme.ofItems found).flatMap Lexeme.items = solid found ∧
      lexemes = Lexeme.dropTerminators (Lexeme.mergeCompounds (Lexeme.reclassifyAll (Lexeme.ofItems found))) := by
  unfold Lexeme.ofText at read
  cases found : Lexer.items text with
  | error stop => rw [found] at read; cases read
  | ok items =>
    rw [found] at read
    obtain ⟨singles, same⟩ := ofItemsFrom_items (items_lexed found) false
    exact ⟨items, rfl, singles, same, (Except.ok.inj read).symm⟩

theorem items_of_readings {tokens : List Token} {lexemes : List Lexeme}
    (same : tokens.map Token.reading = lexemes.map Lexeme.reading) :
    tokens.flatMap Token.items = lexemes.flatMap Lexeme.items := by
  have items := congrArg (List.flatMap fun reading => itemsOf reading.2.1 reading.1.toList reading.2.2) same
  rw [List.flatMap_map, List.flatMap_map] at items
  exact items

theorem lastMark_of_readings {tokens : List Token} {lexemes : List Lexeme}
    (same : tokens.map Token.reading = lexemes.map Lexeme.reading) :
    tokens.getLast?.any (·.isPunctuation ";") = lexemes.getLast?.any (·.isPunctuation ";") := by
  have lasts :=
    congrArg (fun readings => readings.getLast?.any fun reading => reading.2.1 == .punctuation && reading.1 == ";") same
  simp only [List.getLast?_map, Option.any_map] at lasts
  exact lasts

private theorem weightOf_mark {mark : Lexeme} (semicolon : mark.isPunctuation ";" = true) :
    0 < weightOf (mark.items.flatMap Item.text) := by
  obtain ⟨kind, value⟩ := kind_of_isPunctuation semicolon
  have heavy : weight ';' = 1 := by decide
  unfold Lexeme.items
  rw [kind, value]
  cases mark.quote with
  | none => decide
  | some quote =>
    change 0 < weightOf ((quote :: [';'] ++ [_]) ++ [])
    simp only [List.cons_append, weightOf_cons, heavy]
    omega

private theorem marks_eq_nil {marks : List Lexeme} (semicolons : ∀ mark ∈ marks, mark.isPunctuation ";" = true)
    (light : weightOf ((marks.flatMap Lexeme.items).flatMap Item.text) = 0) : marks = [] := by
  cases marks with
  | nil => rfl
  | cons mark rest =>
    have heavy := weightOf_mark (semicolons mark List.mem_cons_self)
    rw [List.flatMap_cons, List.flatMap_append, weightOf_append] at light
    omega

variable {limits : Limits} {sequence : TokenSequence} {first last : Nat}

theorem writesBack_of_survives (survives : sequence.Survives limits first last) : sequence.WritesBack first last := by
  obtain ⟨body, tokenized, same⟩ := survives
  obtain ⟨lexemes, ofText, -, annotated⟩ := tokenize_ok_iff.mp tokenized
  obtain ⟨final, ends, -, rfl⟩ := annotate_ok_iff.mp annotated
  have readings := ends.map_tokens Token.reading Lexeme.reading fun _ _ writes => writes.reading
  rw [readings] at same
  obtain ⟨found, read, singles, texts, dropped⟩ := ofText_items ofText
  obtain ⟨marks, whole, semicolons, unended⟩ :=
    dropTerminators_marks (Lexeme.mergeCompounds (Lexeme.reclassifyAll (Lexeme.ofItems found)))
  rw [← dropped] at whole unended
  have items := (merged_items singles).trans texts
  rw [whole, List.flatMap_append, ← items_of_readings same.symm] at items
  have written := dense_writeAfter none (sequence.between first last)
  have text : (sequence.write first last).toList = Token.writeAfter none (sequence.between first last) :=
    String.toList_ofList
  rw [← text] at written
  -- Semicolons that were dropped would weigh something that the written text does not have.
  have nothing : marks = [] := by
    apply marks_eq_nil semicolons
    have light : weightOf (found.flatMap Item.text) ≤ weightOf (sequence.write first last).toList := by
      apply Nat.le_trans _ (NormalizedText.normalize_lighter_or_kept _).weight_le
      rcases items_lighter_or_kept read with lighter | kept
      · exact Nat.le_of_lt lighter
      · exact Nat.le_of_eq kept.weight
    have weights := congrArg weightOf written
    rw [weightOf_dense, weightOf_dense] at weights
    rw [← solid_text, ← items, List.flatMap_append, weightOf_append] at light
    omega
  rw [nothing, List.flatMap_nil, List.append_nil] at items
  rw [items, solid_text] at written
  obtain ⟨normal, back⟩ := reread written read
  exact ⟨normal, items ▸ back, (lastMark_of_readings same.symm).trans unended⟩

private theorem gap_notMem_items (kind : TokenKind) (value : List Char) (quote : Option Char) :
    .gap ∉ itemsOf kind value quote := by
  unfold itemsOf
  split
  next => simp [word]
  next => simp [word]
  next => split <;> simp
  next => simp

private theorem parts_between {α : Type} {all : List α} {first last : Nat} {opening closing : α}
    (ordered : first < last)
    (opens : all[first]? = some opening) (closes : all[last]? = some closing) :
    all = all.take first ++ opening :: ((all.take last).drop (first + 1) ++ closing :: all.drop (last + 1)) := by
  have inside := (List.getElem?_eq_some_iff.mp closes).1
  have before : all.take last = all.take first ++ opening :: (all.take last).drop (first + 1) := by
    have found : (all.take last)[first]? = some opening := by rwa [List.getElem?_take_of_lt ordered]
    obtain ⟨place, same⟩ := List.getElem?_eq_some_iff.mp found
    have cut := (List.take_append_drop first (all.take last)).symm
    rwa [List.take_take, Nat.min_eq_left (Nat.le_of_lt ordered), List.drop_eq_getElem_cons place, same] at cut
  obtain ⟨place, same⟩ := List.getElem?_eq_some_iff.mp closes
  have cut := (List.take_append_drop last all).symm
  rw [List.drop_eq_getElem_cons place, same, before, List.append_assoc, List.cons_append] at cut
  exact cut

theorem between_merged {text : List Char} {lexemes : List Lexeme} (read : Lexeme.ofText text = .ok lexemes)
    (pair : Pair (sides lexemes) first last) :
    ∃ inner : List Lexeme, (∀ lexeme ∈ inner, lexeme.Single) ∧
      Lexeme.mergeCompounds (Lexeme.reclassifyAll inner) = (lexemes.take last).drop (first + 1) := by
  have sideOf {place : Nat} {side : ParenSide} (found : (sides lexemes)[place]? = some (some side)) :
      ∃ lexeme, lexemes[place]? = some lexeme ∧ lexeme.side? = some side := by
    rw [sides, List.getElem?_map] at found
    exact Option.map_eq_some_iff.mp found
  obtain ⟨opening, opens, openSide⟩ := sideOf pair.opening
  obtain ⟨closing, closes, closeSide⟩ := sideOf pair.closing
  obtain ⟨found, -, singles, -, dropped⟩ := ofText_items read
  obtain ⟨marks, whole, -, -⟩ :=
    dropTerminators_marks (Lexeme.mergeCompounds (Lexeme.reclassifyAll (Lexeme.ofItems found)))
  rw [← dropped, parts_between pair.ordered opens closes, List.append_assoc, List.cons_append, List.append_assoc,
    List.cons_append] at whole
  obtain ⟨inner, inside, merged⟩ := lexemes_between (side?_eq_opening.mp openSide) (side?_eq_closing.mp closeSide) whole
  exact ⟨inner, fun lexeme member => singles lexeme (inside member), merged⟩

/-- What is read item by item gives the same lexemes as in the statement around it. -/
private theorem lexemes_of_writesBack {text : List Char} {lexemes : List Lexeme}
    (read : Lexeme.ofText text = .ok lexemes)
    (pair : Pair (sides lexemes) first last)
    (same : (sequence.between first last).map Token.reading = ((lexemes.take last).drop (first + 1)).map Lexeme.reading)
    (back : sequence.WritesBack first last) :
    ∃ own, Lexeme.ofText (normalize (sequence.write first last).toList) = .ok own ∧
      own.map Lexeme.bare = ((lexemes.take last).drop (first + 1)).map Lexeme.bare := by
  have lexical : .gap ∉ (sequence.between first last).flatMap Token.items := by
    intro gap
    obtain ⟨token, -, member⟩ := List.mem_flatMap.mp gap
    exact gap_notMem_items _ _ _ member
  obtain ⟨found, items, texts⟩ := items_of_readBack back.items lexical
  obtain ⟨inner, singles, merged⟩ := between_merged read pair
  obtain ⟨ownSingles, ownTexts⟩ := ofItemsFrom_items (items_lexed items) false
  have parts : (Lexeme.ofItems found).flatMap Lexeme.items = inner.flatMap Lexeme.items := by
    rw [← merged_items singles, merged, ← items_of_readings same, ← texts]
    exact ownTexts
  -- The same items are cut into the same keywords, whatever stood between them.
  have bares := merged_bare ownSingles singles parts
  rw [merged] at bares
  have unended : (Lexeme.mergeCompounds (Lexeme.reclassifyAll (Lexeme.ofItems found))).getLast?.any
      (·.isPunctuation ";") = false := by
    have lasts := congrArg (fun all => all.getLast?.any (Lexeme.isPunctuation · ";")) bares
    simp only [List.getLast?_map, Option.any_map, Lexeme.bare_isPunctuation] at lasts
    exact lasts.trans ((lastMark_of_readings same).symm.trans back.unended)
  refine ⟨_, ?_, bares⟩
  rw [back.normal, Lexeme.ofText, items]
  exact congrArg _ (dropTerminators_eq unended)

theorem survives_of_writesBack {text : List Char} (read : tokenize limits text = .ok sequence)
    (pair : sequence.Pair first last) (back : sequence.WritesBack first last) :
    sequence.Survives limits first last := by
  obtain ⟨lexemes, ofText, few, annotated⟩ := tokenize_ok_iff.mp read
  obtain ⟨final, ends, -, whole⟩ := annotate_ok_iff.mp annotated
  have parens : Pair (sides lexemes) first last := by
    rw [← sides_eq ends, ← whole]
    exact pair
  have same :
      (sequence.between first last).map Token.reading = ((lexemes.take last).drop (first + 1)).map Lexeme.reading := by
    rw [List.map_drop, List.map_take, ← ends.map_tokens Token.reading Lexeme.reading fun _ _ writes => writes.reading,
      ← List.map_take, ← List.map_drop, whole]
    rfl
  obtain ⟨own, ownText, bares⟩ := lexemes_of_writesBack ofText parens same back
  -- Only the parentheses decide whether the lexemes are annotated.
  have ownSides : sides own = ((sides lexemes).take last).drop (first + 1) := by
    have alike := congrArg (List.map Lexeme.side?) bares
    rw [List.map_map, List.map_map] at alike
    rw [sides, sides, ← List.map_take, ← List.map_drop]
    exact alike
  obtain ⟨body, ran⟩ := annotate_between ⟨sequence, annotated⟩ parens ownSides
  obtain ⟨ownFinal, ownEnds, -, rfl⟩ := annotate_ok_iff.mp ran
  have length : own.length ≤ limits.maxTokens := by
    have alike := congrArg List.length bares
    rw [List.length_map, List.length_map, List.length_drop, List.length_take] at alike
    omega
  refine ⟨_, tokenize_ok_iff.mpr ⟨own, ownText, length, ran⟩, ?_⟩
  have alike := congrArg (List.map Lexeme.reading) bares
  rw [List.map_map, List.map_map] at alike
  rw [ownEnds.map_tokens Token.reading Lexeme.reading fun _ _ writes => writes.reading, same]
  exact alike

/-- The body of a pair of parentheses survives being written out exactly when its text is in
normal form, each item is read from its own text and no semicolon ends it. -/
theorem body_survives_iff {text : List Char} (read : tokenize limits (normalize text) = .ok sequence)
    (pair : sequence.Pair first last) : sequence.Survives limits first last ↔ sequence.WritesBack first last := by
  constructor
  · exact writesBack_of_survives
  · exact survives_of_writesBack read pair

/-- A name with a blank survives. A backtick in a name is written once and not twice, so
that the name ends there. -/
theorem body_survives_blank_not_backtick :
    (∃ sequence, tokenize {} (normalize "SELECT x FROM (SELECT `a b`, f('c') FROM t) s".toList) = .ok sequence ∧
      sequence.Pair 3 13 ∧ sequence.Survives {} 3 13 ∧ sequence.WritesBack 3 13) ∧
    ∃ sequence, tokenize {} (normalize "SELECT x FROM (SELECT `a``b` FROM t) s".toList) = .ok sequence ∧
      sequence.Pair 3 8 ∧ ¬sequence.Survives {} 3 8 := by
  constructor
  · have seen : (tokenize {} (normalize "SELECT x FROM (SELECT `a b`, f('c') FROM t) s".toList)).toOption.bind
        (fun sequence => sequence.tokens[3]?.bind fun opening =>
          (tokenize {} (normalize (sequence.write 3 13).toList)).toOption.map fun body => (opening.matching,
            decide (body.tokens.toList.map Token.reading = (sequence.between 3 13).map Token.reading))) =
        some (some 13, true) := by
      decide +kernel
    cases read : tokenize {} (normalize "SELECT x FROM (SELECT `a b`, f('c') FROM t) s".toList) with
    | error error => rw [read] at seen; cases seen
    | ok sequence =>
      rw [read] at seen
      change (sequence.tokens[3]?.bind _) = _ at seen
      obtain ⟨opening, opens, seen⟩ := Option.bind_eq_some_iff.mp seen
      obtain ⟨body, again, seen⟩ := Option.map_eq_some_iff.mp seen
      obtain ⟨matching, same⟩ := Prod.mk.inj seen
      obtain ⟨lexemes, -, -, annotated⟩ := tokenize_ok_iff.mp read
      have pair : sequence.Pair 3 13 := pair_of_matching (annotate_wellNested annotated) opens matching (by decide)
      cases tokenized : tokenize {} (normalize (sequence.write 3 13).toList) with
      | error error => rw [tokenized] at again; cases again
      | ok found =>
        rw [tokenized] at again
        obtain rfl := Option.some.inj again
        have survives : sequence.Survives {} 3 13 := ⟨found, tokenized, of_decide_eq_true same⟩
        exact ⟨sequence, rfl, pair, survives, (body_survives_iff read pair).mp survives⟩
  · have seen : (tokenize {} (normalize "SELECT x FROM (SELECT `a``b` FROM t) s".toList)).toOption.bind (fun sequence =>
        sequence.tokens[3]?.map fun opening => (opening.matching,
          ((sequence.between 3 8).flatMap Token.items).contains (.lexical .name "a`b".toList (some Text.backtick)))) =
        some (some 8, true) := by
      decide +kernel
    cases read : tokenize {} (normalize "SELECT x FROM (SELECT `a``b` FROM t) s".toList) with
    | error error => rw [read] at seen; cases seen
    | ok sequence =>
      rw [read] at seen
      obtain ⟨opening, opens, seen⟩ := Option.map_eq_some_iff.mp seen
      obtain ⟨matching, member⟩ := Prod.mk.inj seen
      obtain ⟨lexemes, -, -, annotated⟩ := tokenize_ok_iff.mp read
      have pair : sequence.Pair 3 8 := pair_of_matching (annotate_wellNested annotated) opens matching (by decide)
      refine ⟨sequence, rfl, pair, ?_⟩
      intro survives
      have back := (body_survives_iff read pair).mp survives
      exact name_of_readBack back.items (List.contains_iff_mem.mp member) (by decide)

end QueryFacts.Proofs.WrittenBody
