import QueryFacts.Proofs.NormalizedText

/-! When items are read from a text that they were written to. If the items come back,
each of them was read from its own text: nothing may have become lighter on the way, and
no doubled backtick of one name can make up for another. -/

namespace QueryFacts.Lexer

/-- Items written one after the other, some with a space before them, where each is read
from what it is written as. -/
inductive ReadBack : List Item → List Char → Prop where
  | done : ReadBack [] []
  | space {items : List Item} {text : List Char} (others : ReadBack items text) : ReadBack items (' ' :: text)
  | item {item : Item} {items : List Item} {c : Char} {part text : List Char} (written : item.text = c :: part)
      (read : scan c (part ++ text) = .ok (item, text)) (others : ReadBack items text) :
      ReadBack (item :: items) (c :: part ++ text)

end QueryFacts.Lexer

namespace QueryFacts.Proofs.Reread
open Text Lexer NormalizedText

/-- What was written as names and other items, and what was read as them: in what was
read, the backticks in a name are double. -/
inductive Blocks : List Char → List Char → Prop where
  | nil : Blocks [] []
  | plain {c : Char} {part written read : List Char} (unquoted : c ≠ backtick) (others : Blocks written read) :
      Blocks (c :: part ++ written) (c :: part ++ read)
  | name (name : List Char) {written read : List Char} (others : Blocks written read) :
      Blocks (enclose backtick name ++ written) (enclose backtick (double backtick name) ++ read)

def backticks (text : List Char) : Nat := text.count backtick

@[simp] theorem backticks_nil : backticks [] = 0 := rfl

@[simp] theorem backticks_append (first rest : List Char) :
    backticks (first ++ rest) = backticks first + backticks rest :=
  List.count_append

@[simp] theorem backticks_cons_self (rest : List Char) : backticks (backtick :: rest) = backticks rest + 1 :=
  List.count_cons_self

theorem backticks_cons_ne {c : Char} (unquoted : c ≠ backtick) (rest : List Char) :
    backticks (c :: rest) = backticks rest :=
  List.count_cons_of_ne unquoted

theorem double_cons_self (rest : List Char) :
    double backtick (backtick :: rest) = backtick :: backtick :: double backtick rest := rfl

theorem double_cons_ne {c : Char} (unquoted : c ≠ backtick) (rest : List Char) :
    double backtick (c :: rest) = c :: double backtick rest := by
  simp [double, unquoted]

theorem double_of_backticks_eq_zero {text : List Char} (bare : backticks text = 0) : double backtick text = text := by
  induction text with
  | nil => rfl
  | cons c rest ih =>
    have unquoted : c ≠ backtick := by
      rintro rfl
      simp at bare
    rw [backticks_cons_ne unquoted] at bare
    rw [double_cons_ne unquoted, ih bare]

@[simp] theorem backticks_double (text : List Char) : backticks (double backtick text) = 2 * backticks text := by
  induction text with
  | nil => rfl
  | cons c rest ih =>
    by_cases tick : c = backtick
    · subst tick
      rw [double_cons_self, backticks_cons_self, backticks_cons_self, backticks_cons_self, ih]
      omega
    · rw [double_cons_ne tick, backticks_cons_ne tick, backticks_cons_ne tick, ih]

theorem Blocks.backticks_le {written read : List Char} (blocks : Blocks written read) :
    backticks read ≤ 2 * backticks written := by
  induction blocks with
  | nil => exact Nat.le_refl _
  | plain unquoted others ih =>
    rw [backticks_append, backticks_append]
    omega
  | name name others ih =>
    simp only [enclose, List.cons_append, backticks_append, backticks_cons_self, backticks_double]
    omega

/-- With `extra` more backticks in front, what was read is what was written up to a double
quote, and from there on it is a quoted name. -/
def Shifted (extra : Nat) (written read : List Char) : Prop :=
  ∃ front rest, written = front ++ doubleQuote :: rest ∧
    List.replicate extra backtick ++ read = front ++ enclose backtick (double backtick (doubleQuote :: rest))

private theorem Shifted.tail {c : Char} {written read : List Char} (shifted : Shifted 0 (c :: written) (c :: read)) :
    Shifted 0 written read := by
  obtain ⟨front, rest, whole, result⟩ := shifted
  cases front with
  | nil =>
    obtain ⟨rfl, -⟩ := List.cons.inj whole
    exact absurd (List.cons.inj result).1 (by decide)
  | cons first front =>
    obtain ⟨rfl, begins⟩ := List.cons.inj whole
    exact ⟨front, rest, begins, (List.cons.inj result).2⟩

private theorem Shifted.drop {part written read : List Char} (shifted : Shifted 0 (part ++ written) (part ++ read)) :
    Shifted 0 written read := by
  induction part with
  | nil => exact shifted
  | cons c part ih => exact ih shifted.tail

private theorem Shifted.push {extra : Nat} {written read : List Char}
    (shifted : Shifted extra written (backtick :: read)) :
    Shifted (extra + 1) written read := by
  obtain ⟨front, rest, whole, result⟩ := shifted
  refine ⟨front, rest, whole, ?_⟩
  rw [← result, List.replicate_succ', List.append_assoc]
  rfl

/-- Where backticks were read too often, the next thing written is a backtick as well. -/
private theorem Shifted.begins {extra : Nat} {written read : List Char} (shifted : Shifted (extra + 1) written read) :
    read = double backtick written ++ [backtick] ∨ ∃ rest, written = backtick :: rest ∧ Shifted extra rest read := by
  obtain ⟨front, rest, rfl, result⟩ := shifted
  rw [List.replicate_succ, List.cons_append] at result
  cases front with
  | nil =>
    obtain ⟨-, same⟩ := List.cons.inj result
    left
    cases extra with
    | zero => exact same
    | succ extra => exact absurd (List.cons.inj same).1 (by decide)
  | cons first front =>
    obtain ⟨rfl, same⟩ := List.cons.inj result
    exact .inr ⟨_, rfl, front, rest, rfl, same⟩

/-- The backticks of what was read are too few for a name around all that was written. -/
private theorem uneven {written read : List Char} (fewer : backticks read ≤ 2 * backticks written) :
    read ≠ double backtick written ++ [backtick] := by
  intro same
  have count := congrArg backticks same
  simp only [backticks_append, backticks_double, backticks_cons_self] at count
  omega

private theorem not_shifted_name {written read : List Char} (blocks : Blocks written read)
    (later : ∀ extra, ¬Shifted (extra + 1) written read) (name : List Char) :
    ∀ extra, ¬Shifted (extra + 1) (name ++ backtick :: written) (double backtick name ++ backtick :: read) := by
  have bound := blocks.backticks_le
  have fewer (name : List Char) : backticks (double backtick name ++ backtick :: read) ≤
      2 * backticks (name ++ backtick :: written) := by
    simp only [backticks_append, backticks_double, backticks_cons_self]
    omega
  -- Each backtick that was written in the name was read twice, so that the surplus grows.
  induction name with
  | nil =>
    intro extra shifted
    rcases shifted.begins with same | ⟨rest, whole, shorter⟩
    · exact uneven (fewer []) same
    · obtain rfl := (List.cons.inj whole).2
      exact later extra shorter.push
  | cons c name ih =>
    intro extra shifted
    rcases shifted.begins with same | ⟨rest, whole, shorter⟩
    · exact uneven (fewer (c :: name)) same
    · obtain ⟨rfl, rfl⟩ := List.cons.inj whole
      exact ih (extra + 1) shorter.push.push

private theorem enclose_append (name rest : List Char) :
    enclose backtick name ++ rest = backtick :: (name ++ backtick :: rest) := by
  simp [enclose]

/-- The same with any items to come. -/
private theorem not_shifted_succ {written read : List Char} (blocks : Blocks written read) :
    ∀ extra, ¬Shifted (extra + 1) written read := by
  induction blocks with
  | nil =>
    intro extra shifted
    rcases shifted.begins with same | ⟨rest, whole, -⟩
    · exact uneven Blocks.nil.backticks_le same
    · cases whole
  | plain unquoted others ih =>
    intro extra shifted
    rcases shifted.begins with same | ⟨rest, whole, -⟩
    · exact uneven (Blocks.plain unquoted others).backticks_le same
    · exact unquoted (List.cons.inj whole).1
  | name name others ih =>
    intro extra shifted
    rcases shifted.begins with same | ⟨rest, whole, fewer⟩
    · exact uneven (Blocks.name name others).backticks_le same
    · rw [enclose_append] at whole fewer
      obtain rfl := (List.cons.inj whole).2
      exact not_shifted_name others ih name extra fewer.push

private theorem not_shifted_enclosed {written read : List Char} (blocks : Blocks written read)
    (later : ¬Shifted 0 written read) (name : List Char) :
    ¬Shifted 0 (name ++ backtick :: written) (double backtick name ++ backtick :: read) := by
  induction name with
  | nil => exact fun shifted => later shifted.tail
  | cons c name ih =>
    intro shifted
    by_cases tick : c = backtick
    · subst tick
      rw [double_cons_self] at shifted
      exact not_shifted_name blocks (not_shifted_succ blocks) name 0 shifted.tail.push
    · rw [double_cons_ne tick] at shifted
      exact ih shifted.tail

/-- What was written up to a double quote is not read as a name from there on. -/
theorem Blocks.not_shifted {written read : List Char} (blocks : Blocks written read) : ¬Shifted 0 written read := by
  induction blocks with
  | nil =>
    rintro ⟨front, rest, whole, -⟩
    cases front <;> cases whole
  | plain unquoted others ih => exact fun shifted => ih shifted.drop
  | name name others ih =>
    intro shifted
    rw [enclose_append, enclose_append] at shifted
    exact not_shifted_enclosed others ih name shifted.tail

/-- A text without its spaces. -/
def dense (text : List Char) : List Char := text.filter (· ≠ ' ')

@[simp] theorem dense_append (first rest : List Char) : dense (first ++ rest) = dense first ++ dense rest :=
  List.filter_append ..

theorem dense_cons {c : Char} (solid : c ≠ ' ') (rest : List Char) : dense (c :: rest) = c :: dense rest :=
  List.filter_cons_of_pos (by simpa using solid)

@[simp] theorem dense_space (rest : List Char) : dense (' ' :: rest) = dense rest := rfl

theorem dense_double (text : List Char) : dense (double backtick text) = double backtick (dense text) := by
  induction text with
  | nil => rfl
  | cons c rest ih =>
    by_cases space : c = ' '
    · subst space
      exact ih
    · by_cases tick : c = backtick
      · subst tick
        rw [double_cons_self, dense_cons space, dense_cons space, dense_cons space, double_cons_self, ih]
      · rw [double_cons_ne tick, dense_cons space, dense_cons space, double_cons_ne tick, ih]

theorem dense_enclose (text : List Char) : dense (enclose backtick text) = enclose backtick (dense text) := by
  rw [enclose, List.cons_append, dense_cons (by decide), dense_append]
  rfl

theorem weightOf_dense (text : List Char) : weightOf (dense text) = weightOf text := by
  have light : weight ' ' = 0 := by decide
  induction text with
  | nil => rfl
  | cons c rest ih =>
    by_cases space : c = ' '
    · subst space
      rw [dense_space, weightOf_cons, ih, light, Nat.zero_add]
    · rw [dense_cons space, weightOf_cons, weightOf_cons, ih]

theorem backticks_dense (text : List Char) : backticks (dense text) = backticks text := by
  induction text with
  | nil => rfl
  | cons c rest ih =>
    by_cases space : c = ' '
    · subst space
      rw [dense_space, ih, backticks_cons_ne (by decide)]
    · rw [dense_cons space]
      by_cases tick : c = backtick
      · subst tick
        rw [backticks_cons_self, backticks_cons_self, ih]
      · rw [backticks_cons_ne tick, backticks_cons_ne tick, ih]

theorem blocks_of_allKept {items : List Item} {text : List Char} (kept : AllKept items text) :
    Blocks (dense (items.flatMap Item.text)) (dense text) := by
  induction kept with
  | nil => exact .nil
  | cons read whole same others ih =>
    rw [whole, List.flatMap_cons, dense_append, dense_append]
    cases same with
    | space => exact ih
    | plain solid unquoted =>
      rw [Item.text, dense_cons solid]
      exact .plain unquoted ih
    | quoted name =>
      change Blocks (dense (enclose backtick name) ++ _) _
      rw [dense_enclose, dense_enclose, dense_double]
      exact .name _ ih

private theorem kept_exact {item : Item} {consumed : List Char} (kept : item.Kept consumed) :
    backticks item.text ≤ backticks consumed ∧
      (backticks consumed ≤ backticks item.text → item = .gap ∧ consumed = [' '] ∨
          item ≠ .gap ∧ consumed = item.text) := by
  cases kept with
  | space => exact ⟨Nat.le_refl _, fun _ => .inl ⟨rfl, rfl⟩⟩
  | plain => exact ⟨Nat.le_refl _, fun _ => .inr ⟨by simp, rfl⟩⟩
  | quoted name =>
    change backticks (enclose backtick name) ≤ _ ∧
        (_ ≤ backticks (enclose backtick name) → _ ∨ _ ∧ _ = enclose backtick name)
    have written : backticks (enclose backtick name) = backticks name + 2 := by simp [enclose]
    have read : backticks (enclose backtick (double backtick name)) = 2 * backticks name + 2 := by simp [enclose]
    rw [written, read]
    refine ⟨by omega, ?_⟩
    intro few
    refine .inr ⟨by simp, ?_⟩
    rw [double_of_backticks_eq_zero (by omega)]

theorem backticks_le_of_allKept {items : List Item} {text : List Char} (kept : AllKept items text) :
    backticks (items.flatMap Item.text) ≤ backticks text := by
  induction kept with
  | nil => exact Nat.le_refl _
  | cons read whole same others ih =>
    have first := (kept_exact same).1
    rw [whole, List.flatMap_cons, backticks_append, backticks_append]
    omega

/-- When no backtick is lost, kept items are read from their own texts. -/
theorem readBack_of_allKept {items : List Item} {text : List Char} (kept : AllKept items text)
    (all : backticks text ≤ backticks (items.flatMap Item.text)) : ReadBack (solid items) text := by
  induction kept with
  | nil => exact .done
  | @cons c rest consumed after item items read whole same others ih =>
    obtain ⟨fewer, exactly⟩ := kept_exact same
    have later := backticks_le_of_allKept others
    rw [whole, List.flatMap_cons, backticks_append, backticks_append] at all
    have back := ih (by omega)
    rcases exactly (by omega) with ⟨rfl, rfl⟩ | ⟨lexical, rfl⟩
    · rw [whole]
      exact .space back
    · rw [solid, List.filter_cons_of_pos (by simpa using lexical)]
      cases written : item.text with
      | nil =>
        have shorter := scan_length read
        rw [written, List.nil_append] at whole
        simp only [← whole, List.length_cons] at shorter
        omega
      | cons first part =>
        rw [written, List.cons_append] at whole
        obtain ⟨rfl, rfl⟩ := List.cons.inj whole
        exact .item written read back

/-- Items that a text was written as are read from its normal form only where the normal
form is the text itself, and each of them only from its own text. -/
theorem reread {text : List Char} {items : List Item} (written : dense text = dense (items.flatMap Item.text))
    (read : Lexer.items (normalize text) = .ok items) : normalize text = text ∧ ReadBack (solid items) text := by
  have weights := congrArg weightOf written
  rw [weightOf_dense, weightOf_dense] at weights
  have normal := normalize_lighter_or_kept text
  rcases items_lighter_or_kept read with lighter | kept
  · have below := normal.weight_le
    omega
  · have equal := kept.weight
    have same : normalize text = text := by
      rcases normal with lighter | same | ⟨front, rest, whole, result⟩
      · omega
      · exact same
      · have blocks := blocks_of_allKept kept
        rw [← written] at blocks
        -- The quoted name at the end of what was read is no name among the items written.
        refine absurd ⟨dense front, dense rest, ?_, ?_⟩ blocks.not_shifted
        · rw [whole, dense_append, dense_cons (by decide)]
        · rw [result, dense_append, dense_enclose, dense_double, dense_cons (by decide)]
          rfl
    rw [same] at kept
    refine ⟨same, readBack_of_allKept kept ?_⟩
    have counts := congrArg backticks written
    rw [backticks_dense, backticks_dense] at counts
    omega

theorem items_of_readBack {items : List Item} {text : List Char} (back : ReadBack items text)
    (lexical : .gap ∉ items) : ∃ found, Lexer.items text = .ok found ∧ solid found = items := by
  induction back with
  | done => exact ⟨[], by rw [Lexer.items], rfl⟩
  | space others ih =>
    obtain ⟨found, read, same⟩ := ih lexical
    exact ⟨.gap :: found, items_cons.mpr ⟨.gap, _, found, rfl, read, rfl⟩, same⟩
  | item written read others ih =>
    obtain ⟨found, remaining, rfl⟩ := ih (fun member => lexical (List.mem_cons_of_mem _ member))
    refine ⟨_ :: found, items_cons.mpr ⟨_, _, found, read, remaining, rfl⟩, ?_⟩
    apply List.filter_cons_of_pos
    simp only [decide_eq_true_eq]
    rintro rfl
    exact lexical List.mem_cons_self

private theorem quotedBody_append {quote : Char} {escapes : Bool} {inner : List Char}
    (plain : escapes = true → '\\' ∉ inner) (rest : List Char) :
    quotedBody quote escapes (double quote inner ++ quote :: rest) =
      (quotedBody quote escapes (quote :: rest)).map fun body => (inner ++ body.1, body.2) := by
  induction inner with
  | nil => exact Option.map_id_apply.symm
  | cons c inner ih =>
    have more := ih fun escaped => List.not_mem_of_not_mem_cons (plain escaped)
    by_cases same : c = quote
    · have begins : double quote (c :: inner) = quote :: quote :: double quote inner := by simp [double, same]
      rw [begins, List.cons_append, List.cons_append, quotedBody, if_pos rfl, if_pos rfl, more, Option.map_map, same]
      rfl
    · have begins : double quote (c :: inner) = c :: double quote inner := by simp [double, same]
      have literal : ¬(escapes && c == '\\') = true := by
        simp only [Bool.and_eq_true, beq_iff_eq]
        rintro ⟨escaped, rfl⟩
        exact plain escaped List.mem_cons_self
      cases following : double quote inner ++ quote :: rest with
      | nil => simp at following
      | cons d others =>
        rw [following] at more
        rw [begins, List.cons_append, following, quotedBody, if_neg same, if_neg literal, more, Option.map_map]
        rfl

/-- A body is read from its own text exactly when nothing in it is read as an escape and no
quote follows the closing one. -/
theorem quotedBody_double_iff {quote : Char} {escapes : Bool} (light : weight quote ≤ 1) (inner rest : List Char) :
    quotedBody quote escapes (double quote inner ++ quote :: rest) = some (inner, rest) ↔
      (escapes = true → '\\' ∉ inner) ∧ rest.head? ≠ some quote := by
  constructor
  · intro read
    have plain : escapes = true → '\\' ∉ inner := by
      obtain ⟨consumed, whole, shape⟩ := quotedBody_consumes light read
      have same : double quote inner ++ [quote] = consumed := by
        apply (List.append_left_inj rest).mp
        rw [List.append_assoc]
        exact whole
      rcases shape with ⟨-, plain⟩ | ⟨-, lighter⟩
      · exact plain
      · rw [same] at lighter
        exact absurd lighter (Nat.lt_irrefl _)
    refine ⟨plain, ?_⟩
    intro doubled
    obtain ⟨more, rfl⟩ := List.head?_eq_some_iff.mp doubled
    rw [quotedBody_append plain, quotedBody, if_pos rfl, if_pos rfl, Option.map_map] at read
    obtain ⟨body, -, same⟩ := Option.map_eq_some_iff.mp read
    have grown : inner ++ quote :: body.1 = inner := congrArg Prod.fst same
    simp at grown
  · rintro ⟨plain, single⟩
    rw [quotedBody_append plain]
    cases rest with
    | nil =>
      rw [quotedBody, if_pos rfl]
      simp
    | cons d more =>
      have different : d ≠ quote := fun same => single (congrArg some same)
      rw [quotedBody, if_pos rfl, if_neg different]
      simp

/-- A name in backticks is read from its own text exactly when no backtick is in it or after it. -/
theorem scan_name_iff (name rest : List Char) :
    scan backtick (name ++ backtick :: rest) = .ok (.lexical .name name (some backtick), rest) ↔
      backtick ∉ name ∧ rest.head? ≠ some backtick := by
  have light : weight backtick ≤ 1 := by decide
  have plain : false = true → '\\' ∉ name := fun escaped => (nomatch escaped)
  change quotedItem _ _ (quotedBody backtick false (name ++ backtick :: rest))
    (fun inner => .lexical .name inner (some backtick)) = _ ↔ _
  rw [quotedItem_eq_ok]
  constructor
  · rintro ⟨inner, read, same⟩
    obtain rfl : inner = name := by simpa using same
    obtain ⟨consumed, whole, ⟨rfl, -⟩ | ⟨escapes, -⟩⟩ := quotedBody_consumes light read
    · have counts := congrArg backticks whole
      simp only [backticks_append, backticks_cons_self, backticks_double, backticks_nil] at counts
      have bare : backticks inner = 0 := by omega
      have again : quotedBody backtick false (double backtick inner ++ backtick :: rest) = some (inner, rest) := by
        rw [double_of_backticks_eq_zero bare]
        exact read
      exact ⟨List.count_eq_zero.mp bare, ((quotedBody_double_iff light inner rest).mp again).2⟩
    · cases escapes
  · rintro ⟨bare, single⟩
    have same := double_of_backticks_eq_zero (List.count_eq_zero.mpr bare)
    have read := (quotedBody_double_iff light name rest).mpr ⟨plain, single⟩
    rw [same] at read
    exact ⟨name, read, rfl⟩

theorem read_of_readBack {items : List Item} {text : List Char} (back : ReadBack items text) {item : Item}
    (member : item ∈ items) : ∃ c part rest, item.text = c :: part ∧ scan c (part ++ rest) = .ok (item, rest) := by
  induction back with
  | done => cases member
  | space others ih => exact ih member
  | @item first items c part text written read others ih =>
    rcases List.mem_cons.mp member with rfl | later
    · exact ⟨c, part, text, written, read⟩
    · exact ih later

theorem name_of_readBack {items : List Item} {text : List Char} (back : ReadBack items text) {name : List Char}
    (member : .lexical .name name (some backtick) ∈ items) : backtick ∉ name := by
  obtain ⟨c, part, rest, written, read⟩ := read_of_readBack back member
  obtain ⟨rfl, rfl⟩ : backtick = c ∧ name ++ [backtick] = part := List.cons.inj written
  rw [List.append_assoc] at read
  exact ((scan_name_iff name rest).mp read).1

end QueryFacts.Proofs.Reread
