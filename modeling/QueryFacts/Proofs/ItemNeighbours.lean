import QueryFacts.Proofs.LexemeItems

/-! What stands side by side in a text. The digits of an integer and an identifier right behind them are
one word, so that no word follows an integer without a gap, and none has to be joined to one. -/

namespace QueryFacts.Proofs.ItemNeighbours
open Text Lexer LexemeItems

/-- Neither a word nor a number goes on with this text. -/
def Ended (text : List Char) : Prop := ∀ c ∈ text.head?, isIdentifierPart c = false ∧ c ≠ '.'

/-- Side by side these two items are no integer with an unquoted word behind it. -/
def Apart (item next : Item) : Prop := ∀ digits, item = .lexical .integer digits none → ∀ other, next ≠ word other

/-- An unquoted word behind an integer has a gap before it. -/
def Spaced (lexeme next : Lexeme) : Prop :=
  lexeme.kind = .integer → next.quote = none → next.kind = .keyword ∨ next.kind = .name → next.spaceBefore = true

private theorem word_ne {kind : TokenKind} {value : List Char} {quote : Option Char}
    (other : kind ≠ .keyword ∧ kind ≠ .name ∨ quote ≠ none) (text : List Char) :
    .lexical kind value quote ≠ word text := by
  rintro same
  obtain ⟨told, -, bare⟩ := Item.lexical.inj same
  rcases other with ⟨noKeyword, noName⟩ | quoted
  · split at told
    · exact noKeyword told
    · exact noName told
  · exact quoted bare

private theorem mantissa_ended {text : List Char} (digits : (mantissa text).all (·.isDigit) = true) :
    (text.drop (mantissa text).length).head? ≠ some '.' := by
  cases after : text.drop (text.takeWhile (·.isDigit)).length with
  | nil =>
    have same : mantissa text = text.takeWhile (·.isDigit) := by simp [mantissa, after]
    rw [same, after]
    exact (Option.some_ne_none _).symm
  | cons c rest =>
    by_cases point : c = '.'
    · subst point
      simp [mantissa, after] at digits
    · have same : mantissa text = text.takeWhile (·.isDigit) := by simp [mantissa, after, point]
      rw [same, after]
      exact fun head => point (Option.some.inj head)

private theorem exponent_of_digits {text : List Char} (digits : (exponent text).all (·.isDigit) = true) :
    exponent text = [] := by
  cases text with
  | nil => rfl
  | cons e rest =>
    simp only [exponent] at digits ⊢
    split at digits
    next power => rcases power.1 with rfl | rfl <;> simp at digits
    next powerless => exact if_neg powerless

/-- What follows an integer is no identifier, since that would have made a word of its digits. -/
private theorem number_ended {text digits after : List Char}
    (read : number text = (.lexical .integer digits none, after)) : Ended after := by
  simp only [number] at read
  split at read
  next => cases read
  next =>
  split at read
  next => exact absurd (congrArg Prod.fst read).symm (word_ne (.inl (by decide)) _)
  next alone =>
    obtain ⟨item, rest⟩ := Prod.mk.inj read
    have whole : (mantissa text ++ exponent (text.drop (mantissa text).length)).all (·.isDigit) = true := by
      by_contra other
      rw [if_neg other] at item
      cases item
    rw [List.all_append, Bool.and_eq_true] at whole
    have powerless := exponent_of_digits whole.2
    have point := mantissa_ended whole.1
    rw [powerless, List.length_nil, List.drop_zero] at rest
    generalize text.drop (mantissa text).length = more at *
    intro c first
    cases more with
    | nil =>
      rw [List.head?_nil, if_neg (Option.some_ne_none _).symm] at rest
      rw [← rest] at first
      cases first
    | cons d more =>
      have free : isIdentifierPart d = false := by
        by_contra part
        exact alone ⟨powerless, by rw [List.takeWhile_cons_of_pos (by simpa using part)]; exact List.cons_ne_nil _ _⟩
      have short : (d :: more).head? ≠ some 'L' := by
        rintro long
        obtain rfl := Option.some.inj long
        exact absurd free (by decide)
      rw [if_neg short] at rest
      rw [← rest] at first
      obtain rfl := Option.some.inj first
      exact ⟨free, fun same => point (congrArg some same)⟩

/-- Strings are neither integers nor words. -/
private theorem string?_other {c : Char} {rest after : List Char} {item : Item}
    (read : string? c rest = some (.ok (item, after))) :
    (∀ digits, item ≠ .lexical .integer digits none) ∧ ∀ text, item ≠ word text := by
  have literal (text : List Char) : (∀ digits, literal text ≠ .lexical .integer digits none) ∧
      ∀ other, literal text ≠ word other :=
    ⟨nofun, word_ne (.inl (by decide))⟩
  have operator (text : List Char) : (∀ digits, operator text ≠ .lexical .integer digits none) ∧
      ∀ other, operator text ≠ word other :=
    ⟨nofun, word_ne (.inl (by decide))⟩
  unfold string? at read
  repeat' split at read
  all_goals first
    | cases read
    | obtain ⟨inner, -, rfl⟩ := quotedItem_eq_ok.mp (Option.some.inj read)
  all_goals first
    | exact literal _
    | exact operator _
    | exact ⟨nofun, word_ne (.inr (Option.some_ne_none _))⟩

private theorem numeric_ended {text digits after : List Char}
    (read : numeric text = (.lexical .integer digits none, after)) : Ended after := by
  unfold numeric at read
  split at read
  next => cases read
  next => exact number_ended read

private theorem atSign_other (rest digits : List Char) : (atSign rest).1 ≠ .lexical .integer digits none := by
  have operator (text : List Char) : operator text ≠ .lexical .integer digits none := nofun
  have word (text : List Char) : word text ≠ .lexical .integer digits none := (word_ne (.inl (by decide)) text).symm
  unfold atSign
  split
  next => exact operator _
  next => exact operator _
  next => exact operator _
  next => exact operator _
  next =>
    split
    next => exact operator _
    next => exact word _
  next =>
    split
    next => exact operator _
    next => exact word _

private theorem symbol_other (c : Char) (rest : List Char) :
    (∀ digits, (symbol c rest).1 ≠ .lexical .integer digits none) ∧ ∀ text, (symbol c rest).1 ≠ word text := by
  unfold symbol
  split
  next => exact ⟨nofun, word_ne (.inl (by decide))⟩
  next =>
    refine ⟨fun digits => ?_, word_ne (.inl ?_)⟩
    · intro same
      have kind := (Item.lexical.inj same).1
      revert kind
      repeat' split
      all_goals decide
    · repeat' split
      all_goals decide

/-- Nothing that a word can start with follows an integer. -/
theorem scan_ended {c : Char} {rest digits after : List Char}
    (read : scan c rest = .ok (.lexical .integer digits none, after)) : Ended after := by
  unfold scan at read
  split at read
  next => cases read
  next =>
  split at read
  next found string =>
    rw [read] at string
    exact absurd rfl ((string?_other string).1 digits)
  next =>
  split at read
  next => exact numeric_ended (Except.ok.inj read)
  next =>
  split at read
  next => split at read <;> cases read
  next =>
  split at read
  next => cases read
  next =>
  split at read
  next => exact absurd (congrArg Prod.fst (Except.ok.inj read)) (atSign_other rest digits)
  next =>
  split at read
  next => cases read
  next =>
  split at read
  next => exact absurd (congrArg Prod.fst (Except.ok.inj read)).symm (word_ne (.inl (by decide)) _)
  next => exact absurd (congrArg Prod.fst (Except.ok.inj read)) ((symbol_other c rest).1 digits)

/-- A word starts with a character of identifiers, or with a number. -/
theorem scan_word {c : Char} {rest text after : List Char} (read : scan c rest = .ok (word text, after)) :
    isIdentifierPart c = true ∨ c = '.' := by
  by_contra! other
  obtain ⟨part, point⟩ := other
  have free : isIdentifierStart c = false ∧ c.isDigit = false := by
    have none := Bool.eq_false_iff.mpr part
    rwa [isIdentifierPart, Bool.or_eq_false_iff] at none
  have noSign : c ≠ '@' := by
    rintro rfl
    exact absurd free.1 (by decide)
  unfold scan at read
  split at read
  next => cases read
  next =>
  split at read
  next found string =>
    rw [read] at string
    exact absurd rfl ((string?_other string).2 text)
  next =>
  rw [if_neg (by simp [free.2, point])] at read
  split at read
  next => split at read <;> cases read
  next =>
  split at read
  next => cases read
  next =>
  split at read
  next => exact absurd (congrArg Prod.fst (Except.ok.inj read)) (word_ne (.inl (by decide)) _)
  next =>
  rw [if_neg (by rw [free.1]; exact Bool.false_ne_true)] at read
  exact absurd (congrArg Prod.fst (Except.ok.inj read)) ((symbol_other c rest).2 text)

/-- No unquoted word follows an integer without a gap: it would be a part of the word that the digits begin. -/
theorem items_apart {text : List Char} {found : List Item} (read : items text = .ok found) :
    found.IsChain Apart := by
  induction size : text.length using Nat.strongRecOn generalizing text found with
  | ind size ih =>
    cases text with
    | nil =>
      rw [items] at read
      obtain rfl := Except.ok.inj read
      exact .nil
    | cons c rest =>
      obtain ⟨first, after, others, scanned, remaining, rfl⟩ := items_cons.mp read
      have shorter : after.length < (c :: rest).length := Nat.lt_succ_of_le (scan_length scanned)
      refine List.IsChain.cons (ih after.length (size ▸ shorter) remaining rfl) fun next follows => ?_
      rintro digits rfl other rfl
      cases after with
      | nil =>
        rw [items] at remaining
        obtain rfl := Except.ok.inj remaining
        cases follows
      | cons d more =>
        obtain ⟨second, _, _, later, _, rfl⟩ := items_cons.mp remaining
        obtain rfl := Option.some.inj follows
        obtain ⟨part, point⟩ := scan_ended scanned d rfl
        rcases scan_word later with same | same
        · exact absurd (same.symm.trans part) (by decide)
        · exact point same

private theorem word_of_lexed {kind : TokenKind} {value : List Char} (lexed : Lexed (.lexical kind value none))
    (worded : kind = .keyword ∨ kind = .name) : .lexical kind value none = word value := by
  generalize found : Item.lexical kind value none = item at lexed
  cases lexed with
  | gap => cases found
  | word text =>
    obtain rfl : value = text := (Item.lexical.inj found).2.1
    rfl
  | quoted name => cases found
  | star => cases found; rcases worded with same | same <;> cases same
  | other plain =>
    cases found
    rcases worded with same | same
    · exact absurd same plain.1
    · exact absurd same plain.2.1

private theorem quote_of_integer {value : List Char} {quote : Option Char}
    (lexed : Lexed (.lexical .integer value quote)) : quote = none := by
  generalize found : Item.lexical .integer value quote = item at lexed
  cases lexed with
  | gap => cases found
  | word text => exact absurd found (word_ne (.inl (by decide)) text)
  | quoted name => cases found
  | star => cases found
  | other => cases found; rfl

private theorem spaced_head (items : List Item) :
    ∀ lexeme ∈ (Lexeme.ofItemsFrom false items).head?, lexeme.spaceBefore = true := by
  induction items with
  | nil => nofun
  | cons item rest ih =>
    cases item with
    | gap => exact ih
    | lexical kind value quote =>
      rintro lexeme first
      obtain rfl := Option.some.inj first
      rfl

/-- The gaps between the items are the spaces before the lexemes. -/
private theorem spaced_ofItems {items : List Item} (lexed : ∀ item ∈ items, Lexed item) (apart : items.IsChain Apart)
    (glued : Bool) : (Lexeme.ofItemsFrom glued items).IsChain Spaced := by
  induction items generalizing glued with
  | nil => exact .nil
  | cons item rest ih =>
    have others := ih (fun other member => lexed other (List.mem_cons_of_mem _ member)) apart.tail
    cases item with
    | gap => exact others false
    | lexical kind value quote =>
      refine .cons (others true) fun next follows => ?_
      rintro rfl bare worded
      obtain rfl := quote_of_integer (lexed _ List.mem_cons_self)
      cases rest with
      | nil => cases follows
      | cons second more =>
        cases second with
        | gap => exact spaced_head more next follows
        | lexical kind' value' quote' =>
          obtain rfl := Option.some.inj follows
          obtain rfl : quote' = none := bare
          have isWord := word_of_lexed (lexed _ (List.mem_cons_of_mem _ List.mem_cons_self)) worded
          exact absurd isWord (apart.rel value rfl value')

/-- Between an integer and a word that is not quoted there is a gap. -/
theorem lexemes_apart {text : List Char} {found : List Item} (read : items text = .ok found) :
    (Lexeme.ofItems found).IsChain Spaced :=
  spaced_ofItems (items_lexed read) (items_apart read) false

end QueryFacts.Proofs.ItemNeighbours
