import QueryFacts.Lexer

/-! Items written again, against the text that they were read from. An item may be
written otherwise than it was read, but then it has become lighter: escapes, prefixes and
suffixes that the lexer drops all weigh something. Only a quoted name is written without
the backticks that the lexer read double, so backticks weigh nothing. -/

namespace QueryFacts.Lexer
open Text

/-- The text of an item as it is written again. A gap has none. -/
def Item.text : Item → List Char
  | .gap => []
  | .lexical _ value none => value
  | .lexical _ value (some quote) => quote :: value ++ [if quote = '[' then ']' else quote]

/-- The items of a text without its gaps. -/
def solid (items : List Item) : List Item := items.filter (· ≠ .gap)

def weight (c : Char) : Nat :=
  if c = ' ' ∨ c = backtick then 0 else if c = '\\' then 3
  else if c.isLower ∨ c.isDigit ∨ c = '!' then 2 else 1

def weightOf : List Char → Nat
  | [] => 0
  | c :: rest => weight c + weightOf rest

/-- An item that was read from a text that it is written as, but for doubled backticks. -/
inductive Item.Kept : Item → List Char → Prop where
  | space : Kept .gap [' ']
  | plain {kind : TokenKind} {c : Char} {rest : List Char} (solid : c ≠ ' ') (unquoted : c ≠ backtick) :
      Kept (.lexical kind (c :: rest) none) (c :: rest)
  | quoted (name : List Char) : Kept (.lexical .name name (some backtick)) (enclose backtick (double backtick name))

/-- The text in front of `after` was read as an item. -/
def Item.ReadFrom (item : Item) (text after : List Char) : Prop :=
  ∃ consumed, text = consumed ++ after ∧ (item.Kept consumed ∨ weightOf item.text < weightOf consumed)

@[simp] theorem weightOf_nil : weightOf [] = 0 := rfl

@[simp] theorem weightOf_cons (c : Char) (text : List Char) : weightOf (c :: text) = weight c + weightOf text := rfl

@[simp] theorem weightOf_append (first rest : List Char) :
    weightOf (first ++ rest) = weightOf first + weightOf rest := by
  induction first with
  | nil => exact (Nat.zero_add _).symm
  | cons c first ih => rw [List.cons_append, weightOf_cons, weightOf_cons, ih, Nat.add_assoc]

theorem weight_le (c : Char) : weight c ≤ 3 := by
  unfold weight
  repeat' split
  all_goals omega

theorem weight_escape (c : Char) : weight (unescape c) ≤ weight c + 1 := by
  unfold unescape
  split
  all_goals first | omega | exact Nat.le_add_left _ _

private theorem weightOf_double_cons (quote c : Char) (text : List Char) :
    weightOf (double quote (c :: text)) =
        (if c = quote then weight c + weight c else weight c) + weightOf (double quote text) := by
  unfold double
  rw [List.flatMap_cons, weightOf_append]
  split <;> simp

theorem weightOf_le_double (quote : Char) (text : List Char) : weightOf text ≤ weightOf (double quote text) := by
  induction text with
  | nil => exact Nat.le_refl _
  | cons c rest ih =>
    rw [weightOf_double_cons, weightOf_cons]
    split <;> omega

theorem double_eq_or_lt {quote : Char} (heavy : 0 < weight quote) (text : List Char) :
    double quote text = text ∨ weightOf text < weightOf (double quote text) := by
  induction text with
  | nil => exact .inl rfl
  | cons c rest ih =>
    have below := weightOf_le_double quote rest
    by_cases same : c = quote
    · right
      rw [weightOf_double_cons, weightOf_cons, if_pos same]
      subst same
      omega
    · rcases ih with plain | lighter
      · left
        change (if c = quote then [c, c] else [c]) ++ double quote rest = c :: rest
        rw [if_neg same, plain]
        rfl
      · right
        rw [weightOf_double_cons, weightOf_cons, if_neg same]
        omega

/-- A body was read from the text that it is written as, or it becomes lighter. It does so
with every escape in it. -/
theorem quotedBody_consumes {quote : Char} {escapes : Bool} (light : weight quote ≤ 1) {text inner after : List Char}
    (read : quotedBody quote escapes text = some (inner, after)) :
    ∃ consumed, text = consumed ++ after ∧
      (consumed = double quote inner ++ [quote] ∧ (escapes = true → '\\' ∉ inner) ∨
        escapes = true ∧ weightOf (double quote inner ++ [quote]) < weightOf consumed) := by
  have heavy : weight '\\' = 3 := by decide
  fun_induction quotedBody quote escapes text generalizing inner after with
  | case1 => cases read
  | case2 =>
    obtain ⟨rfl, rfl⟩ := Prod.mk.inj (Option.some.inj read)
    exact ⟨[quote], rfl, .inl ⟨rfl, fun _ => List.not_mem_nil⟩⟩
  | case3 => cases read
  | case4 rest ih =>
    obtain ⟨⟨body, later⟩, found, same⟩ := Option.map_eq_some_iff.mp read
    obtain ⟨rfl, rfl⟩ := Prod.mk.inj same
    obtain ⟨consumed, rfl, shape⟩ := ih found
    refine ⟨quote :: quote :: consumed, rfl, ?_⟩
    rcases shape with ⟨rfl, plain⟩ | ⟨escaped, lighter⟩
    · left
      refine ⟨by simp [double], fun escaped => ?_⟩
      have other : '\\' ≠ quote := by
        rintro rfl
        omega
      exact List.not_mem_cons_of_ne_of_not_mem other (plain escaped)
    · right
      refine ⟨escaped, ?_⟩
      simp only [weightOf_append, weightOf_double_cons, weightOf_cons, if_true] at lighter ⊢
      omega
  | case5 d rest different =>
    obtain ⟨rfl, rfl⟩ := Prod.mk.inj (Option.some.inj read)
    exact ⟨[quote], rfl, .inl ⟨rfl, fun _ => List.not_mem_nil⟩⟩
  | case6 c d rest different escaped ih =>
    obtain ⟨⟨body, later⟩, found, same⟩ := Option.map_eq_some_iff.mp read
    obtain ⟨rfl, rfl⟩ := Prod.mk.inj same
    obtain ⟨consumed, rfl, shape⟩ := ih found
    obtain ⟨on, rfl⟩ : escapes = true ∧ c = '\\' := by simpa using escaped
    refine ⟨'\\' :: d :: consumed, rfl, .inr ⟨on, ?_⟩⟩
    have below : weightOf (double quote body ++ [quote]) ≤ weightOf consumed := by
      rcases shape with ⟨rfl, -⟩ | ⟨-, lighter⟩
      · exact Nat.le_refl _
      · exact Nat.le_of_lt lighter
    have escape := weight_escape d
    simp only [weightOf_append, weightOf_double_cons, weightOf_cons, heavy] at below ⊢
    split
    next same => rw [same]; omega
    next => omega
  | case7 c d rest different plain ih =>
    obtain ⟨⟨body, later⟩, found, same⟩ := Option.map_eq_some_iff.mp read
    obtain ⟨rfl, rfl⟩ := Prod.mk.inj same
    obtain ⟨consumed, text, shape⟩ := ih found
    refine ⟨c :: consumed, congrArg (c :: ·) text, ?_⟩
    rcases shape with ⟨rfl, bare⟩ | ⟨escaped, lighter⟩
    · left
      refine ⟨by simp [double, different], fun escaped => ?_⟩
      have other : '\\' ≠ c := by
        rintro rfl
        simp [escaped] at plain
      exact List.not_mem_cons_of_ne_of_not_mem other (bare escaped)
    · right
      refine ⟨escaped, ?_⟩
      simp only [weightOf_append, weightOf_double_cons, weightOf_cons, if_neg different] at lighter ⊢
      omega

theorem weight_pos {c : Char} (solid : c ≠ ' ') (unquoted : c ≠ backtick) : 0 < weight c := by
  unfold weight
  rw [if_neg (not_or.mpr ⟨solid, unquoted⟩)]
  repeat' split
  all_goals omega

/-- An escape weighs more with its backslash than the character that it stands for. -/
private theorem weight_escape? {c found : Char} {rest : List Char} {taken : Nat}
    (read : escape? c rest = some (found, taken)) : weight found < weight '\\' + weight c := by
  have heavy : weight '\\' = 3 := by decide
  have bound := weight_le found
  by_cases light : c = ' ' ∨ c = backtick
  · have same : found = c := by
      rcases light with rfl | rfl
      · exact (congrArg Prod.fst (Option.some.inj read)).symm
      · exact (congrArg Prod.fst (Option.some.inj read)).symm
    rw [same]
    omega
  · obtain ⟨solid, unquoted⟩ := not_or.mp light
    have positive := weight_pos solid unquoted
    omega

theorem escapedBody_consumes {text inner after : List Char} (read : escapedBody text = some (inner, after)) :
    ∃ consumed, text = consumed ++ after ∧
      (consumed = inner ++ [singleQuote] ∨ weightOf (inner ++ [singleQuote]) < weightOf consumed) := by
  fun_induction escapedBody text generalizing inner after with
  | case1 => cases read
  | case2 =>
    obtain ⟨rfl, rfl⟩ := Prod.mk.inj (Option.some.inj read)
    exact ⟨[singleQuote], rfl, .inl rfl⟩
  | case3 more ih =>
    obtain ⟨⟨body, later⟩, found, same⟩ := Option.map_eq_some_iff.mp read
    obtain ⟨rfl, rfl⟩ := Prod.mk.inj same
    obtain ⟨consumed, rfl, shape⟩ := ih found
    refine ⟨singleQuote :: singleQuote :: consumed, rfl, .inr ?_⟩
    have below : weightOf (body ++ [singleQuote]) ≤ weightOf consumed := by
      rcases shape with rfl | lighter
      · exact Nat.le_refl _
      · exact Nat.le_of_lt lighter
    have heavy : weight singleQuote = 1 := by decide
    simp only [List.cons_append, weightOf_cons, heavy] at below ⊢
    omega
  | case4 d more different =>
    obtain ⟨rfl, rfl⟩ := Prod.mk.inj (Option.some.inj read)
    exact ⟨[singleQuote], rfl, .inl rfl⟩
  | case5 => cases read
  | case6 => cases read
  | case7 d more found taken escaped different ih =>
    obtain ⟨⟨body, later⟩, rest, same⟩ := Option.map_eq_some_iff.mp read
    obtain ⟨rfl, rfl⟩ := Prod.mk.inj same
    obtain ⟨consumed, text, shape⟩ := ih rest
    refine ⟨'\\' :: d :: more.take taken ++ consumed, ?_, .inr ?_⟩
    · rw [List.append_assoc, ← text]
      simp
    · have below : weightOf (body ++ [singleQuote]) ≤ weightOf consumed := by
        rcases shape with rfl | lighter
        · exact Nat.le_refl _
        · exact Nat.le_of_lt lighter
      have escape := weight_escape? escaped
      simp only [List.cons_append, weightOf_cons, weightOf_append] at below ⊢
      omega
  | case8 c rest different plain ih =>
    obtain ⟨⟨body, later⟩, found, same⟩ := Option.map_eq_some_iff.mp read
    obtain ⟨rfl, rfl⟩ := Prod.mk.inj same
    obtain ⟨consumed, rfl, shape⟩ := ih found
    refine ⟨c :: consumed, rfl, ?_⟩
    rcases shape with rfl | lighter
    · exact .inl rfl
    · right
      simp only [List.cons_append, weightOf_cons] at lighter ⊢
      omega

theorem quotedBody_consumes_bare {quote : Char} {escapes : Bool} (light : weight quote = 1)
    {text inner after : List Char}
    (read : quotedBody quote escapes text = some (inner, after)) :
    ∃ consumed, text = consumed ++ after ∧
      (consumed = inner ++ [quote] ∨ weightOf (inner ++ [quote]) < weightOf consumed) := by
  obtain ⟨consumed, whole, shape⟩ := quotedBody_consumes (Nat.le_of_eq light) read
  refine ⟨consumed, whole, ?_⟩
  have below : weightOf (double quote inner ++ [quote]) ≤ weightOf consumed := by
    rcases shape with ⟨rfl, -⟩ | ⟨-, lighter⟩
    · exact Nat.le_refl _
    · exact Nat.le_of_lt lighter
  rcases double_eq_or_lt (light ▸ Nat.one_pos) inner with plain | lighter
  · rw [plain] at shape
    exact shape.imp And.left And.right
  · right
    rw [weightOf_append] at below ⊢
    omega

namespace Item.ReadFrom
variable {text after : List Char}

theorem of_plain {kind : TokenKind} {c : Char} {rest : List Char} (whole : text = c :: rest ++ after) (solid : c ≠ ' ')
    (unquoted : c ≠ backtick) : Item.ReadFrom (.lexical kind (c :: rest) none) text after :=
  ⟨c :: rest, whole, .inl (.plain solid unquoted)⟩

theorem of_heavier {item : Item} (consumed : List Char) (whole : text = consumed ++ after)
    (lighter : weightOf item.text < weightOf consumed) : item.ReadFrom text after :=
  ⟨consumed, whole, .inr lighter⟩

end Item.ReadFrom

theorem quotedItem_eq_ok {fault : Fault} {whole : List Char} {body : Option Body} {item : List Char → Item}
    {found : Item} {after : List Char} :
    quotedItem fault whole body item = .ok (found, after) ↔ ∃ inner, body = some (inner, after) ∧
        item inner = found := by
  cases body with
  | none => simp [quotedItem]
  | some parts =>
    obtain ⟨inner, rest⟩ := parts
    simp only [quotedItem, Except.ok.injEq, Prod.mk.injEq, Option.some.injEq]
    constructor
    · rintro ⟨same, rfl⟩
      exact ⟨inner, ⟨rfl, rfl⟩, same⟩
    · rintro ⟨other, ⟨rfl, rfl⟩, same⟩
      exact ⟨same, rfl⟩

private theorem enclosed_readFrom {kind : TokenKind} {quote : Char} {inner consumed rest after : List Char}
    (text : rest = consumed ++ after) (solid : quote ≠ ' ') (unquoted : quote ≠ backtick)
    (body : consumed = inner ++ [quote] ∨ weightOf (inner ++ [quote]) < weightOf consumed) :
    Item.ReadFrom (.lexical kind (enclose quote inner) none) (quote :: rest) after := by
  subst text
  rcases body with rfl | lighter
  · exact .of_plain rfl solid unquoted
  · apply Item.ReadFrom.of_heavier (quote :: consumed) rfl
    change weightOf (quote :: (inner ++ [quote])) < _
    rw [weightOf_cons, weightOf_cons]
    omega

private theorem prefixed_readFrom {kind : TokenKind} {letter upper quote : Char} {inner consumed rest after : List Char}
    (text : rest = quote :: consumed ++ after) (solid : upper ≠ ' ') (unquoted : upper ≠ backtick)
    (letterCase : letter = upper ∨ weight upper < weight letter)
    (body : consumed = inner ++ [quote] ∨ weightOf (inner ++ [quote]) < weightOf consumed) :
    Item.ReadFrom (.lexical kind (upper :: enclose quote inner) none) (letter :: rest) after := by
  subst text
  rcases letterCase with rfl | smaller
  · rcases body with rfl | lighter
    · exact .of_plain (by simp [enclose]) solid unquoted
    · apply Item.ReadFrom.of_heavier (letter :: quote :: consumed) (by simp)
      simp only [Item.text, enclose, List.cons_append, weightOf_cons] at lighter ⊢
      omega
  · apply Item.ReadFrom.of_heavier (letter :: quote :: consumed) (by simp)
    have below : weightOf (inner ++ [quote]) ≤ weightOf consumed := by
      rcases body with rfl | lighter
      · exact Nat.le_refl _
      · exact Nat.le_of_lt lighter
    simp only [Item.text, enclose, List.cons_append, weightOf_cons] at below ⊢
    omega

theorem string?_readFrom {c : Char} {rest : List Char} {item : Item} {after : List Char}
    (read : string? c rest = some (.ok (item, after))) : item.ReadFrom (c :: rest) after := by
  unfold string? at read
  split at read
  next single =>
    obtain ⟨inner, body, rfl⟩ := quotedItem_eq_ok.mp (Option.some.inj read)
    obtain ⟨consumed, whole, shape⟩ := quotedBody_consumes (single ▸ by decide) body
    exact enclosed_readFrom whole (single ▸ by decide) (single ▸ by decide) (shape.imp And.left And.right)
  next =>
  split at read
  next doubled =>
    obtain ⟨inner, body, rfl⟩ := quotedItem_eq_ok.mp (Option.some.inj read)
    obtain ⟨consumed, whole, shape⟩ := quotedBody_consumes_bare (doubled ▸ by decide) body
    exact enclosed_readFrom whole (doubled ▸ by decide) (doubled ▸ by decide) shape
  next =>
  split at read
  next tick =>
    obtain ⟨inner, body, rfl⟩ := quotedItem_eq_ok.mp (Option.some.inj read)
    subst tick
    obtain ⟨consumed, rfl, shape⟩ := quotedBody_consumes (by decide) body
    rcases shape with ⟨rfl, -⟩ | ⟨escaped, -⟩
    · exact ⟨enclose backtick (double backtick inner), rfl, .inl (.quoted inner)⟩
    · cases escaped
  next =>
  cases rest with
  | nil => cases read
  | cons quote rest =>
    simp only [List.head?_cons, List.drop_one, List.tail_cons] at read
    split at read
    next byte =>
      obtain ⟨inner, body, rfl⟩ := quotedItem_eq_ok.mp (Option.some.inj read)
      have light : weight quote = 1 := by rcases byte.2 with rfl | rfl <;> decide
      obtain ⟨consumed, rfl, shape⟩ := quotedBody_consumes_bare light body
      exact prefixed_readFrom rfl (by decide) (by decide) (by rcases byte.1 with rfl | rfl <;> decide) shape
    next =>
    split at read
    next national =>
      obtain ⟨inner, body, rfl⟩ := quotedItem_eq_ok.mp (Option.some.inj read)
      obtain ⟨letter, rfl⟩ := national
      obtain ⟨consumed, rfl, shape⟩ := quotedBody_consumes_bare (by decide) body
      apply prefixed_readFrom rfl ?_ ?_ ?_ shape
      all_goals rcases letter with rfl | rfl | rfl | rfl <;> decide
    next =>
    split at read
    next escaped =>
      obtain ⟨inner, body, rfl⟩ := quotedItem_eq_ok.mp (Option.some.inj read)
      obtain ⟨letter, rfl⟩ := escaped
      obtain ⟨consumed, rfl, shape⟩ := escapedBody_consumes body
      exact prefixed_readFrom rfl (by decide) (by decide) (by rcases letter with rfl | rfl <;> decide) shape
    next => cases read

theorem wordFrom_readFrom {c : Char} (tail rest : List Char) (solid : c ≠ ' ') (unquoted : c ≠ backtick) :
    (wordFrom (c :: tail) rest).1.ReadFrom (c :: tail ++ rest) (wordFrom (c :: tail) rest).2 := by
  apply Item.ReadFrom.of_plain ?_ solid unquoted
  change c :: tail ++ rest = c :: (tail ++ rest.takeWhile isIdentifierPart) ++ rest.dropWhile isIdentifierPart
  simp

theorem mantissa_begins (text : List Char) : mantissa text <+: text := by
  have digits := List.takeWhile_prefix (l := text) Char.isDigit
  simp only [mantissa]
  split
  next rest point =>
    obtain ⟨after, whole⟩ := List.takeWhile_prefix (l := rest) Char.isDigit
    refine ⟨after, ?_⟩
    rw [List.append_assoc, List.cons_append, whole, ← point]
    exact List.prefix_iff_eq_append.mp digits
  next => exact digits

theorem exponent_begins (text : List Char) : exponent text <+: text := by
  unfold exponent
  split
  next => exact List.prefix_refl _
  next e rest =>
    simp only
    split
    next =>
      have sign : ((rest.take 1).takeWhile fun c => c = '+' ∨ c = '-') <+: rest :=
        (List.takeWhile_prefix _).trans (List.take_prefix 1 rest)
      have whole := List.prefix_iff_eq_append.mp sign
      rw [List.cons_append, List.cons_prefix_cons]
      refine ⟨rfl, ?_⟩
      obtain ⟨after, digits⟩ := List.takeWhile_prefix (l := rest.drop
        ((rest.take 1).takeWhile fun c => c = '+' ∨ c = '-').length) Char.isDigit
      exact ⟨after, by rw [List.append_assoc, digits, whole]⟩
    next => exact List.nil_prefix

theorem mantissa_cons {c : Char} (rest : List Char) (starts : c.isDigit ∨ c = '.') :
    ∃ tail, mantissa (c :: rest) = c :: tail := by
  have nonempty : mantissa (c :: rest) ≠ [] := by
    rcases starts with digit | rfl
    · simp only [mantissa, List.takeWhile_cons, digit, if_true]
      split <;> simp
    · simp [mantissa]
  obtain ⟨after, whole⟩ := mantissa_begins (c :: rest)
  cases start : mantissa (c :: rest) with
  | nil => exact absurd start nonempty
  | cons first tail =>
    rw [start] at whole
    obtain rfl : first = c := (List.cons.inj whole).1
    exact ⟨tail, rfl⟩

theorem number_readFrom {c : Char} {rest : List Char} (starts : c.isDigit ∨ c = '.') :
    (number (c :: rest)).1.ReadFrom (c :: rest) (number (c :: rest)).2 := by
  have solid : c ≠ ' ' := by rintro rfl; simp at starts
  have unquoted : c ≠ backtick := by rintro rfl; simp [backtick] at starts
  obtain ⟨tail, start⟩ := mantissa_cons rest starts
  have whole := List.prefix_iff_eq_append.mp (mantissa_begins (c :: rest))
  have power := List.prefix_iff_eq_append.mp (exponent_begins ((c :: rest).drop (mantissa (c :: rest)).length))
  simp only [number]
  split
  next point =>
    rw [start] at point whole ⊢
    exact .of_plain whole.symm solid unquoted
  next =>
  split
  next =>
    have read := wordFrom_readFrom tail ((c :: rest).drop (mantissa (c :: rest)).length) solid unquoted
    rwa [← start, whole] at read
  next =>
    rw [start] at whole power ⊢
    generalize (c :: rest).drop (c :: tail).length = more at whole power ⊢
    have text : c :: rest = c :: (tail ++ exponent more) ++ more.drop (exponent more).length := by
      rw [← List.cons_append, List.append_assoc, power, whole]
    by_cases long : (more.drop (exponent more).length).head? = some 'L'
    · refine .of_heavier (c :: (tail ++ exponent more) ++ ['L']) ?_ ?_
      · simp only [if_pos long]
        cases last : more.drop (exponent more).length with
        | nil => simp [last] at long
        | cons first after =>
          obtain rfl : first = 'L' := by simpa [last] using long
          rw [text, last]
          simp
      · have heavy : weight 'L' = 1 := by decide
        simp [Item.text, heavy]
    · simp only [if_neg long]
      exact .of_plain text solid unquoted

theorem numeric_readFrom {c : Char} (rest : List Char) (starts : c.isDigit ∨ c = '.') :
    (numeric (c :: rest)).1.ReadFrom (c :: rest) (numeric (c :: rest)).2 := by
  unfold numeric
  split
  next digits same =>
    obtain ⟨rfl, rfl⟩ := List.cons.inj same
    apply Item.ReadFrom.of_heavier ('0' :: 'x' :: digits.takeWhile isHexDigit) (by simp)
    have zero : weight '0' = 2 := by decide
    have lower : weight 'x' = 2 := by decide
    have upper : weight 'X' = 1 := by decide
    have quote : weight singleQuote = 1 := by decide
    simp only [literal, Item.text, enclose, List.cons_append, weightOf_cons, weightOf_append, weightOf_nil, zero, lower,
      upper, quote]
    omega
  next => exact number_readFrom starts

theorem atSign_readFrom (rest : List Char) : (atSign rest).1.ReadFrom ('@' :: rest) (atSign rest).2 := by
  have solid : '@' ≠ ' ' := by decide
  have unquoted : '@' ≠ backtick := by decide
  unfold atSign
  split
  next => exact .of_plain rfl solid unquoted
  next => exact .of_plain rfl solid unquoted
  next => exact .of_plain rfl solid unquoted
  next => exact .of_plain rfl solid unquoted
  next c more =>
    split
    next => exact .of_plain rfl solid unquoted
    next => exact wordFrom_readFrom ['@', c] more solid unquoted
  next c more _ _ _ _ =>
    split
    next => exact .of_plain rfl solid unquoted
    next => exact wordFrom_readFrom [c] more solid unquoted

theorem longOperators_ne_nil : ∀ text ∈ longOperators, text ≠ [] := by decide

theorem symbol_readFrom {c : Char} (rest : List Char) (solid : c ≠ ' ') (unquoted : c ≠ backtick) :
    (symbol c rest).1.ReadFrom (c :: rest) (symbol c rest).2 := by
  unfold symbol
  split
  next text found =>
    have begins : text <+: c :: rest := by simpa using List.find?_some found
    have nonempty := longOperators_ne_nil text (List.mem_of_find?_eq_some found)
    have whole := List.prefix_iff_eq_append.mp begins
    cases text with
    | nil => exact absurd rfl nonempty
    | cons first tail =>
      obtain rfl : first = c := (List.cons.inj whole).1
      rw [List.length_cons, List.drop_succ_cons] at whole
      change Item.ReadFrom _ _ (rest.drop (tail.length + 1 - 1))
      rw [Nat.add_sub_cancel]
      split
      next unequal =>
        rw [unequal] at whole
        apply Item.ReadFrom.of_heavier ['!', '='] whole.symm
        change weightOf ['<', '>'] < weightOf ['!', '=']
        decide
      next => exact .of_plain whole.symm solid unquoted
  next => exact .of_plain rfl solid unquoted

private theorem afterBlockComment_suffix {text after : List Char} (found : afterBlockComment text = some after) :
    ∃ comment, text = comment ++ after := by
  fun_induction afterBlockComment text with
  | case1 => cases found
  | case2 => cases found
  | case3 c d rest ends =>
    obtain rfl := Option.some.inj found
    exact ⟨[c, d], rfl⟩
  | case4 c d rest goes ih =>
    obtain ⟨comment, whole⟩ := ih found
    exact ⟨c :: comment, congrArg (c :: ·) whole⟩

private theorem comment_readFrom {c : Char} (comment : List Char) {after : List Char} (heavy : 0 < weight c) :
    Item.gap.ReadFrom (c :: comment ++ after) after := by
  apply Item.ReadFrom.of_heavier (c :: comment) rfl
  rw [Item.text, weightOf_nil, weightOf_cons]
  omega

/-- A scan takes a text off its input that the item is written as, or one that is heavier. -/
theorem scan_readFrom {c : Char} {rest : List Char} {item : Item} {after : List Char}
    (read : scan c rest = .ok (item, after)) : item.ReadFrom (c :: rest) after := by
  unfold scan at read
  split at read
  next blank =>
    cases read
    by_cases space : c = ' '
    · exact ⟨[c], rfl, .inl (space ▸ .space)⟩
    · have heavy : 0 < weight c := by
        simp only [isGap, Bool.or_eq_true, beq_iff_eq] at blank
        rcases blank with ((((rfl | rfl) | rfl) | rfl) | rfl) | rfl <;> first | exact absurd rfl space | decide
      exact comment_readFrom [] heavy
  next space =>
  have solid : c ≠ ' ' := by
    rintro rfl
    exact space rfl
  split at read
  next found string =>
    rw [read] at string
    exact string?_readFrom string
  next nothing =>
  have unquoted : c ≠ backtick := by
    rintro rfl
    cases nothing
  split at read
  next starts =>
    have read := Except.ok.inj read
    have number := numeric_readFrom rest starts
    rwa [read] at number
  next =>
  split at read
  next block =>
    obtain ⟨rfl, star⟩ := block
    cases rest with
    | nil => cases star
    | cons second rest =>
      split at read
      next => cases read
      next ended =>
        cases read
        obtain ⟨comment, whole⟩ := afterBlockComment_suffix ended
        rw [List.drop_one, List.tail_cons] at whole
        rw [whole]
        exact comment_readFrom (second :: comment) (by decide)
  next =>
  split at read
  next line =>
    cases read
    have heavy : 0 < weight c := by
      rcases line with rfl | ⟨rfl, -⟩ <;> decide
    have whole := List.takeWhile_append_dropWhile (p := fun d : Char => decide (d ≠ '\n')) (l := rest)
    cases ended : rest.dropWhile (fun d : Char => decide (d ≠ '\n')) with
    | nil =>
      rw [ended] at whole
      rw [← whole]
      exact comment_readFrom _ heavy
    | cons newline after =>
      rw [ended] at whole
      rw [← whole, List.append_cons]
      exact comment_readFrom _ heavy
  next =>
  split at read
  next starts =>
    have read := Except.ok.inj read
    have sign := atSign_readFrom rest
    rw [read] at sign
    exact starts ▸ sign
  next =>
  split at read
  next =>
    cases read
    exact .of_plain (by simp) solid unquoted
  next =>
  split at read
  next =>
    have read := Except.ok.inj read
    have word := wordFrom_readFrom [] rest solid unquoted
    rwa [read] at word
  next =>
    have read := Except.ok.inj read
    have sign := symbol_readFrom rest solid unquoted
    rwa [read] at sign

/-- A text is read as items that are kept as they are written. -/
inductive AllKept : List Item → List Char → Prop where
  | nil : AllKept [] []
  | cons {c : Char} {rest consumed after : List Char} {item : Item} {items : List Item}
      (read : scan c rest = .ok (item, after)) (whole : c :: rest = consumed ++ after) (kept : item.Kept consumed)
      (others : AllKept items after) : AllKept (item :: items) (c :: rest)

theorem items_cons {c : Char} {rest : List Char} {found : List Item} :
    items (c :: rest) = .ok found ↔ ∃ item after others, scan c rest = .ok (item, after) ∧ items after = .ok others ∧
      found = item :: others := by
  rw [items]
  split
  next stop read => simp [read]
  next item after read =>
    constructor
    · intro mapped
      cases others : items after with
      | error stop => rw [others] at mapped; cases mapped
      | ok later =>
        rw [others] at mapped
        exact ⟨item, after, later, read, others, (Except.ok.inj mapped).symm⟩
    · rintro ⟨other, later, others, again, remaining, rfl⟩
      obtain ⟨rfl, rfl⟩ := Prod.mk.inj (Except.ok.inj (read.symm.trans again))
      rw [remaining]
      rfl

theorem weightOf_double_backtick (text : List Char) : weightOf (double backtick text) = weightOf text := by
  induction text with
  | nil => rfl
  | cons c rest ih =>
    rw [weightOf_double_cons, weightOf_cons, ih]
    split
    next same => rw [same]; rfl
    next => rfl

theorem Item.Kept.weight {item : Item} {consumed : List Char} (kept : item.Kept consumed) :
    weightOf item.text = weightOf consumed := by
  cases kept with
  | space => rfl
  | plain => rfl
  | quoted name =>
    change weightOf (backtick :: name ++ [backtick]) = weightOf (backtick :: double backtick name ++ [backtick])
    simp only [List.cons_append, weightOf_cons, weightOf_append, weightOf_double_backtick]

theorem AllKept.weight {found : List Item} {text : List Char} (kept : AllKept found text) :
    weightOf (found.flatMap Item.text) = weightOf text := by
  induction kept with
  | nil => rfl
  | cons read whole same others ih => rw [List.flatMap_cons, weightOf_append, ih, same.weight, whole, weightOf_append]

/-- Written again, the items of a text are lighter than it, or all of them are kept. -/
theorem items_lighter_or_kept {text : List Char} {found : List Item} (read : items text = .ok found) :
    weightOf (found.flatMap Item.text) < weightOf text ∨ AllKept found text := by
  -- A scan may take any number of characters, so the induction is on the length of the text.
  induction size : text.length using Nat.strongRecOn generalizing text found with
  | ind size ih =>
    cases text with
    | nil =>
      rw [items] at read
      obtain rfl := Except.ok.inj read
      exact .inr .nil
    | cons c rest =>
      obtain ⟨item, after, others, scanned, remaining, rfl⟩ := items_cons.mp read
      obtain ⟨consumed, whole, shape⟩ := scan_readFrom scanned
      have shorter := scan_length scanned
      have later := ih after.length (by rw [← size, List.length_cons]; exact Nat.lt_succ_of_le shorter) remaining rfl
      have total : weightOf (c :: rest) = weightOf consumed + weightOf after := by rw [whole, weightOf_append]
      rw [List.flatMap_cons, weightOf_append, total]
      rcases later with lighter | kept
      · left
        rcases shape with same | less
        · rw [same.weight]
          omega
        · omega
      · have equal := kept.weight
        rcases shape with same | less
        · exact .inr (.cons scanned whole same kept)
        · left
          omega

end QueryFacts.Lexer
