import QueryFacts.Proofs.QuotedSelects

/-! Texts in which some names stand in backticks. Between backticks every character but the backtick itself
stands for itself, so that such a name is read as it is spelled, whatever word or sign it spells. A text is
read from its end: in front of what is known to be read comes one more lexeme or gap. -/

namespace QueryFacts
open Text Lexer

namespace Lexeme

/-- A name in backticks. -/
def ofTicked (name : String) (apart : Bool) : Lexeme := ⟨.name, name, some backtick, apart⟩

/-- A lexeme that its own text tells, wherever it stands. -/
inductive Told : Lexeme → Prop where
  | plain {lexeme : Lexeme} (plain : lexeme.Plain) (noStar : lexeme.value ≠ "*") : Told lexeme
  | ticked {name : String} {apart : Bool} (single : backtick ∉ name.toList) : Told (ofTicked name apart)

/-- What the lexeme is written as. -/
def ink (lexeme : Lexeme) : List Char :=
  if lexeme.quote = none then lexeme.source else enclose backtick lexeme.value.toList

/-- Items with commas between them. -/
def listed (item : String → Bool → List Lexeme) (apart : Bool) (first : String) (more : List String) : List Lexeme :=
  item first apart ++ more.flatMap fun name => comma :: item name true

end Lexeme

/-- The text is in normal form and read as these lexemes, directly behind another lexeme if it is `glued` to one. -/
structure ReadsAs (glued : Bool) (text : List Char) (lexemes : List Lexeme) : Prop where
  normal : normalize text = text
  items : (Lexer.items text).map (Lexeme.ofItemsFrom glued) = .ok lexemes

/-- An item ends before it, be it a name or a number. -/
def IsEnd (text : List Char) : Prop := text.head?.all endsNumber = true

end QueryFacts

namespace QueryFacts.Proofs.TickedText
open Text Lexer Lexeme PlainText WrittenIdentifier NormalizedText

variable {glued : Bool} {lexeme : Lexeme} {after : List Char} {lexemes : List Lexeme}

theorem isBoundary_of_isEnd (ends : IsEnd after) : after.head?.all isBoundary = true := by
  cases first : after.head? with
  | none => rfl
  | some c =>
    have border : endsNumber c = true := by
      rw [IsEnd, first] at ends
      exact ends
    simp only [endsNumber, Bool.or_eq_true, beq_iff_eq] at border
    rcases border with ((rfl | rfl) | rfl) | rfl <;> rfl

/-- The lexeme is normal and read alone. -/
theorem scan_told (told : lexeme.Told) (follows : Follows lexeme after) :
    normalize (lexeme.ink ++ after) = lexeme.ink ++ normalize after ∧
      Arrives (lexeme.ink ++ after) [.lexical lexeme.kind lexeme.value.toList lexeme.quote] after := by
  cases told with
  | plain plain noStar =>
    have bare : lexeme.quote = none := by cases plain <;> rfl
    have kind : lexeme.raw.kind = lexeme.kind := by rw [raw, if_neg noStar]
    obtain ⟨c, part, spelled, read⟩ := scan_plain plain follows
    rw [kind, ← bare] at read
    rw [ink, if_pos bare]
    refine ⟨normalize_source plain follows, ?_⟩
    rw [spelled]
    exact arrives_one.mpr read
  | @ticked name apart single =>
    have apart : after.head? ≠ some backtick := by
      intro same
      have bounded : after.head?.all isBoundary = true := follows
      rw [same] at bounded
      exact absurd bounded (by decide)
    have doubled : double backtick name.toList = name.toList :=
      Reread.double_of_backticks_eq_zero (List.count_eq_zero.mpr single)
    have arrives := (@arrives_ticked_iff name.toList after .name (some backtick)).mpr ⟨⟨rfl, rfl⟩, apart⟩
    rw [doubled] at arrives
    refine ⟨?_, arrives⟩
    exact QuotedSelects.normalize_name (show SegmentKind.backticked.quote? = some backtick from rfl)
      (fun c member => ⟨fun same => single (same ▸ member), fun _ => rfl⟩) apart

theorem readsAs_nil : ReadsAs glued [] [] := ⟨normalize_nil, by rw [Lexer.items]; rfl⟩

theorem readsAs_gap (rest : ReadsAs false after lexemes) : ReadsAs true (' ' :: after) lexemes := by
  obtain ⟨normal, items⟩ := rest
  have read : Arrives (' ' :: after) [.gap] after := .next rfl .here
  refine ⟨by rw [normalize_isCode (by decide), normal], ?_⟩
  rw [items_of_arrives read]
  cases found : Lexer.items after with
  | error stop => rw [found] at items; cases items
  | ok others => rw [found] at items; exact items

theorem readsAs_cons (told : lexeme.Told) (follows : Follows lexeme after) (rest : ReadsAs true after lexemes) :
    ReadsAs (!lexeme.spaceBefore) (lexeme.ink ++ after) (lexeme :: lexemes) := by
  obtain ⟨normal, items⟩ := rest
  obtain ⟨same, read⟩ := scan_told told follows
  refine ⟨by rw [same, normal], ?_⟩
  rw [items_of_arrives read]
  cases found : Lexer.items after with
  | error stop => rw [found] at items; cases items
  | ok others =>
    rw [found] at items
    have others : ofItemsFrom true others = lexemes := Except.ok.inj items
    have whole :
        (⟨lexeme.kind, String.ofList lexeme.value.toList, lexeme.quote, !(!lexeme.spaceBefore)⟩ : Lexeme) = lexeme := by
      rw [String.ofList_toList, Bool.not_not]
    exact congrArg Except.ok (congrArg₂ List.cons whole others)

theorem readsAs_word {kind : TokenKind} {word : String} (spelled : isIdentifier word.toList = true)
    (known : kind = if Keyword.isReserved (upper word) then .keyword else .name)
    (bounded : after.head?.all isBoundary = true)
    (rest : ReadsAs true after lexemes) (apart : Bool) :
    ReadsAs (!apart) (word.toList ++ after) (⟨kind, word, none, apart⟩ :: lexemes) := by
  have noStar : word ≠ "*" := by
    rintro rfl
    exact absurd spelled (by decide)
  have kinds : kind = .keyword ∨ kind = .name := by split at known <;> simp [known]
  have follows : Follows ⟨kind, word, none, apart⟩ after := by rcases kinds with rfl | rfl <;> exact bounded
  have ink : Lexeme.ink ⟨kind, word, none, apart⟩ = word.toList := source_mk (by rcases kinds with rfl | rfl <;> nofun)
  have told : Told ⟨kind, word, none, apart⟩ := .plain (.word spelled known) noStar
  rw [← ink]
  exact readsAs_cons told follows rest

theorem readsAs_mark {text : String} (known : text = "(" ∨ text = ")" ∨ text = ",") (apart : Bool)
    (rest : ReadsAs true after lexemes) :
    ReadsAs (!apart) (text.toList ++ after) (⟨.punctuation, text, none, apart⟩ :: lexemes) := by
  have noStar : text ≠ "*" := by rcases known with rfl | rfl | rfl <;> decide
  have told : Told ⟨.punctuation, text, none, apart⟩ := .plain (.mark known) noStar
  exact readsAs_cons told trivial rest

theorem readsAs_ticked {name : String} (single : backtick ∉ name.toList)
    (bounded : after.head?.all isBoundary = true) (apart : Bool)
    (rest : ReadsAs true after lexemes) :
    ReadsAs (!apart) (enclose backtick name.toList ++ after) (ofTicked name apart :: lexemes) :=
  readsAs_cons (.ticked single) bounded rest

theorem listed_single (item : String → Bool → List Lexeme) (apart : Bool) (first : String) :
    listed item apart first [] = item first apart :=
  List.append_nil _

theorem listed_cons (item : String → Bool → List Lexeme) (apart : Bool) (first next : String) (more : List String) :
    listed item apart first (next :: more) = item first apart ++ comma :: listed item true next more := by
  simp [listed]

theorem length_listed {item : String → Bool → List Lexeme} {size : Nat}
    (each : ∀ name apart, (item name apart).length = size)
    (apart : Bool) (first : String) (more : List String) :
    (listed item apart first more).length = size + more.length * (size + 1) := by
  induction more generalizing first apart with
  | nil => simp [listed_single, each]
  | cons next more ih =>
    rw [listed_cons, List.length_append, List.length_cons, ih, each, List.length_cons]
    grind

/-- A list is read item by item. -/
theorem readsAs_listed {write : String → List Char} {item : String → Bool → List Lexeme} {first : String}
    {more : List String}
    (each : ∀ name ∈ first :: more, ∀ (apart : Bool) (after : List Char) (lexemes : List Lexeme), IsEnd after →
      ReadsAs true after lexemes →
      ReadsAs (!apart) (write name ++ after) (item name apart ++ lexemes))
    (ends : IsEnd after) (rest : ReadsAs true after lexemes) (apart : Bool) :
    ReadsAs (!apart) (", ".toList.intercalate ((first :: more).map write) ++ after)
        (listed item apart first more ++ lexemes) := by
  induction more generalizing first apart with
  | nil =>
    have here := each first List.mem_cons_self apart after lexemes ends rest
    simpa [listed_single] using here
  | cons next more ih =>
    obtain ⟨here, others⟩ := List.forall_mem_cons.mp each
    have later := ih others true
    have border := readsAs_mark (show "," = "(" ∨ "," = ")" ∨ "," = "," by simp) false (readsAs_gap later)
    have whole := here apart _ _ (show IsEnd (',' :: _) from rfl) border
    have text : ", ".toList.intercalate ((first :: next :: more).map write) ++ after =
        write first ++ (",".toList ++ ' ' :: (", ".toList.intercalate ((next :: more).map write) ++ after)) := by
      rw [List.map_cons, List.map_cons, List.intercalate_cons_cons, ← List.map_cons]
      simp
    have parts : listed item apart first (next :: more) ++ lexemes =
        item first apart ++ comma :: (listed item true next more ++ lexemes) := by
      rw [listed_cons, List.append_assoc, List.cons_append]
    rw [text, parts]
    exact whole

end QueryFacts.Proofs.TickedText
