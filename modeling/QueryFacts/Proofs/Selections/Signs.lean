import QueryFacts.Proofs.Acceptance
import QueryFacts.Proofs.Places
import QueryFacts.Proofs.Selections

/-! What the annotation says of statements that select columns, wherever they stand in a
larger statement: their parentheses balance, and their signs depend only on the clause and the
parentheses that they stand in. -/

namespace QueryFacts.Proofs.Selections
open Text Lexeme PlainText SelectList ColumnListStatement

section Parentheses
open Parenthesis NestingRun Acceptance

/-- Parentheses that balance, with no more than `bound` of them open at one time. -/
structure Shallow (sides : Sides) (bound : Nat) : Prop where
  inside : ∀ count, 0 ≤ height (sides.take count) ∧ height (sides.take count) ≤ bound
  whole : height sides = 0

theorem shallow_flat {sides : Sides} (flat : ∀ side ∈ sides, side = none) (bound : Nat) : Shallow sides bound := by
  have level (part : Sides) (inside : ∀ side ∈ part, side ∈ sides) : height part = 0 := by
    have none (side : ParenSide) : part.count (some side) = 0 :=
      List.count_eq_zero.mpr fun member => nomatch flat _ (inside _ member)
    rw [height, none, none]
    rfl
  refine ⟨fun count => ?_, level sides fun _ member => member⟩
  rw [level _ fun _ member => List.mem_of_mem_take member]
  exact ⟨Int.le_refl _, Int.natCast_nonneg bound⟩

theorem Shallow.append {first rest : Sides} {bound : Nat} (left : Shallow first bound) (right : Shallow rest bound) :
    Shallow (first ++ rest) bound := by
  refine ⟨fun count => ?_, by rw [height_append, left.whole, right.whole]; rfl⟩
  rw [List.take_append, height_append]
  rcases Nat.le_total count first.length with early | late
  · rw [Nat.sub_eq_zero_of_le early, List.take_zero, height_nil, Int.add_zero]
    exact left.inside count
  · rw [List.take_of_length_le late, left.whole, Int.zero_add]
    exact right.inside (count - first.length)

theorem Shallow.wrap {sides : Sides} {bound : Nat} (inner : Shallow sides bound) :
    Shallow (some .opening :: (sides ++ [some .closing])) (bound + 1) := by
  have up (part : Sides) : height (some .opening :: part) = 1 + height part := by
    rw [← List.singleton_append, height_append, height_singleton]
    rfl
  have down : height [some ParenSide.closing] = -1 := height_singleton _
  refine ⟨fun count => ?_, by rw [up, height_append, inner.whole, down]; rfl⟩
  cases count with
  | zero => exact ⟨Int.le_refl _, Int.natCast_nonneg _⟩
  | succ count =>
    rw [List.take_succ_cons, up, List.take_append, height_append]
    have bounds := inner.inside count
    rcases Nat.le_total count sides.length with early | late
    · rw [Nat.sub_eq_zero_of_le early, List.take_zero, height_nil]
      omega
    · rw [List.take_of_length_le late, inner.whole]
      have last : height ([some ParenSide.closing].take (count - sides.length)) = 0 ∨
          height ([some ParenSide.closing].take (count - sides.length)) = -1 := by
        cases count - sides.length with
        | zero => exact .inl rfl
        | succ more => exact .inr (by rw [List.take_of_length_le (by simp)]; exact down)
      omega

theorem Shallow.mono {sides : Sides} {bound more : Nat} (shallow : Shallow sides bound) (le : bound ≤ more) :
    Shallow sides more :=
  ⟨fun count => ⟨(shallow.inside count).1, Int.le_trans (shallow.inside count).2 (Int.ofNat_le.mpr le)⟩, shallow.whole⟩

theorem Shallow.balanced {sides : Sides} {bound : Nat} (shallow : Shallow sides bound) : Balanced sides :=
  ⟨fun count => (shallow.inside count).1, shallow.whole⟩

theorem shallow_of_balanced {sides : Sides} (balanced : Balanced sides) : Shallow sides sides.length :=
  ⟨fun count => ⟨balanced.before count, heightAt_le_length sides count⟩, balanced.whole⟩

theorem balanced_append {first rest : Sides} (left : Balanced first) (right : Balanced rest) :
    Balanced (first ++ rest) :=
  (((shallow_of_balanced left).mono (Nat.le_max_left _ _)).append
    ((shallow_of_balanced right).mono (Nat.le_max_right _ _))).balanced

theorem balanced_wrap {sides : Sides} (inner : Balanced sides) :
    Balanced (some .opening :: (sides ++ [some .closing])) :=
  (shallow_of_balanced inner).wrap.balanced

theorem annotate_of_shallow {limits : Limits} {lexemes : List Lexeme} {bound : Nat}
    (shallow : Shallow (sides lexemes) bound)
    (fits : bound ≤ limits.maxNestingDepth) : ∃ sequence, annotate limits lexemes = .ok sequence :=
  annotate_accepts_iff.mpr ⟨shallow.balanced, fun place =>
    Int.le_trans (shallow.inside place).2 (Int.ofNat_le.mpr fits)⟩

/-- Neither a parenthesis nor the start of a clause. -/
def Level (lexeme : Lexeme) : Prop := lexeme.side? = none ∧ (lexeme.isKeyword = true → lexeme.normalized = "AS")

theorem level_other {lexeme : Lexeme} (side : lexeme.side? = none)
    (noKeyword : lexeme.isKeyword = false) : Level lexeme :=
  ⟨side, fun keyword => absurd (noKeyword.symm.trans keyword) Bool.false_ne_true⟩

theorem level_list (item : Projection) (more : List Projection) : ∀ lexeme ∈ listLexemes item more, Level lexeme := by
  have name (text : String) (apart : Bool) : Level (ofName text apart) := level_other rfl rfl
  have column (qualifier : Option String) (text : String) : ∀ lexeme ∈ columnLexemes qualifier text, Level lexeme := by
    cases qualifier with
    | none => simp [columnLexemes, name]
    | some qualifier => simp [columnLexemes, name, show Level dot from level_other rfl rfl]
  have label (found : Option Label) : ∀ lexeme ∈ labelLexemes found, Level lexeme := by
    have as : Level (ofKeyword "AS" true) := ⟨rfl, fun _ => normalForm_as⟩
    rcases found with _ | ⟨text, _ | _⟩ <;> simp [labelLexemes, name, as]
  have projection (item : Projection) : ∀ lexeme ∈ projectionLexemes item, Level lexeme := fun lexeme member =>
    (List.mem_append.mp member).elim (column _ _ lexeme) (label _ lexeme)
  intro lexeme member
  rcases List.mem_append.mp member with first | later
  · exact projection item lexeme first
  · obtain ⟨other, -, here⟩ := List.mem_flatMap.mp later
    rcases List.mem_cons.mp here with rfl | here
    · exact level_other rfl rfl
    · exact projection other lexeme here

theorem sides_append (first rest : List Lexeme) : sides (first ++ rest) = sides first ++ sides rest := List.map_append

theorem shallow_level {lexemes : List Lexeme} (level : ∀ lexeme ∈ lexemes, lexeme.side? = none) (bound : Nat) :
    Shallow (sides lexemes) bound := by
  refine shallow_flat (fun side member => ?_) bound
  obtain ⟨lexeme, inside, rfl⟩ := List.mem_map.mp member
  exact level lexeme inside

theorem shallow_lexemes (selection : Selection) (apart : Bool) :
    Shallow (sides (lexemes apart selection)) selection.depth := by
  have start (item : Projection) (more : List Projection) (apart : Bool) (bound : Nat) :
      Shallow (sides (ofKeyword "SELECT" apart :: (listLexemes item more ++ [ofKeyword "FROM" true]))) bound := by
    refine shallow_level (fun lexeme member => ?_) bound
    simp only [List.mem_cons, List.mem_append, List.not_mem_nil, or_false] at member
    rcases member with rfl | listed | rfl
    · rfl
    · exact (level_list item more lexeme listed).1
    · rfl
  induction selection generalizing apart with
  | table item more name =>
    have rest : Shallow (sides [ofName name true]) 0 :=
      shallow_level (by simp [show (ofName name true).side? = none from rfl]) 0
    have whole := (start item more apart 0).append rest
    rwa [← sides_append, List.cons_append, List.append_assoc] at whole
  | join item more first second key =>
    have rest :
        Shallow (sides (ofName first true :: ofKeyword "JOIN" true :: ofName second true :: ofKeyword "ON" true ::
        conditionLexemes first second key)) 0 := by
      refine shallow_level (fun lexeme member => ?_) 0
      simp only [conditionLexemes, List.mem_cons, List.not_mem_nil, or_false] at member
      rcases member with rfl | rfl | rfl | rfl | rfl | rfl | rfl | rfl | rfl | rfl | rfl <;> rfl
    have whole := (start item more apart 0).append rest
    rwa [← sides_append, List.cons_append, List.append_assoc] at whole
  | nested item more inner name ih =>
    have group : Shallow (sides (opening :: (lexemes false inner ++ [closing]))) (inner.depth + 1) := by
      rw [show sides (opening :: (lexemes false inner ++ [closing])) =
        some .opening :: (sides (lexemes false inner) ++ [some .closing]) by
          rw [sides, List.map_cons, List.map_append]; rfl]
      exact (ih false).wrap
    have rest : Shallow (sides [ofName name true]) (inner.depth + 1) :=
      shallow_level (by simp [show (ofName name true).side? = none from rfl]) _
    have whole := (start item more apart (inner.depth + 1)).append (group.append rest)
    rw [← sides_append, ← sides_append] at whole
    simpa [lexemes, Selection.depth] using whole

end Parentheses

section Signs
open NestingRun

def flatSign (clause : String) (around : Option ParenRole) (lexeme : Lexeme) : Sign :=
  ⟨lexeme, lexeme.normalized, some clause, none, around, false⟩

/-- The clause with which a statement ends. -/
def lastClause : Selection → String
  | .join .. => "ON"
  | _ => "FROM"

/-- The sign of a parenthesis that opens in a clause. -/
def openSign (kind : ParenKind) (clause : String) (around : Option ParenRole) : Sign :=
  ⟨opening, opening.normalized, some clause, some ⟨kind, .opening⟩, around, false⟩

/-- The sign of one that closes a statement, with its last clause. -/
def closeSign (kind : ParenKind) (clause : String) (around : Option ParenRole) : Sign :=
  ⟨closing, closing.normalized, some clause, some ⟨kind, .closing⟩, around, false⟩

def headSign (outer : Option String) (around : Option ParenRole) (outside apart : Bool) : Sign :=
  ⟨ofKeyword "SELECT" apart, (ofKeyword "SELECT" apart).normalized, outer, none, around, outside⟩

/-- The signs of a statement that begins in a clause and among parentheses. -/
def signs (outer : Option String) (around : Option ParenRole) (outside apart : Bool) : Selection → List Sign
  | .table item more name =>
    headSign outer around outside apart :: ((listLexemes item more).map (flatSign "SELECT" around) ++
      [flatSign "SELECT" around (ofKeyword "FROM" true), flatSign "FROM" around (ofName name true)])
  | .join item more first second key =>
    headSign outer around outside apart :: ((listLexemes item more).map (flatSign "SELECT" around) ++
      flatSign "SELECT" around (ofKeyword "FROM" true) :: flatSign "FROM" around (ofName first true) ::
      flatSign "FROM" around (ofKeyword "JOIN" true) :: flatSign "JOIN" around (ofName second true) ::
      flatSign "JOIN" around (ofKeyword "ON" true) :: (conditionLexemes first second key).map (flatSign "ON" around))
  | .nested item more inner name =>
    headSign outer around outside apart :: ((listLexemes item more).map (flatSign "SELECT" around) ++
      flatSign "SELECT" around (ofKeyword "FROM" true) ::
      openSign .subquery "FROM" around :: (signs (some "FROM") (some ⟨.subquery, .opening⟩) true false inner ++
        [closeSign .subquery (lastClause inner) around, flatSign "FROM" around (ofName name true)]))

variable {context : Context}

theorem step_level {lexeme : Lexeme} (level : Level lexeme) (context : Context) :
    context.step lexeme = { context with last := some lexeme } := by
  have insignificant : Keyword.isInsignificant "AS" = true := by decide
  have noStatement : Keyword.startsStatement "AS" = false := by decide
  obtain ⟨side, word⟩ := level
  cases keyword : lexeme.isKeyword with
  | false => simp [Context.step, side, keyword]
  | true => simp [Context.step, side, keyword, word keyword, insignificant, Context.headersAfter, noStatement]

theorem sign_plain {lexeme : Lexeme} (side : lexeme.side? = none) (context : Context) : context.sign lexeme =
    ⟨lexeme, lexeme.normalized, context.clause, none, context.opened.head?.map Context.role, context.outside⟩ := by
  simp only [Context.sign, side]

theorem signs_level {lexemes : List Lexeme} (level : ∀ lexeme ∈ lexemes, Level lexeme) (context : Context) :
    context.signs lexemes = lexemes.map (fun lexeme => ⟨lexeme, lexeme.normalized, context.clause, none,
      context.opened.head?.map Context.role, context.outside⟩) ∧ ∃ last, context.after lexemes =
          { context with last } := by
  induction lexemes generalizing context with
  | nil => exact ⟨rfl, context.last, rfl⟩
  | cons lexeme rest ih =>
    have here := level lexeme List.mem_cons_self
    have step := step_level here context
    obtain ⟨later, last, after⟩ := ih (fun other member => level other (List.mem_cons_of_mem _ member))
      { context with last := some lexeme }
    refine ⟨?_, last, ?_⟩
    · rw [Context.signs, step, sign_plain here.1, later]
      rfl
    · rw [Context.after, List.foldl_cons, step]
      exact after

theorem step_keyword {word : String} (normal : Keyword.normalForm word = word)
    (significant : Keyword.isInsignificant word = false) (apart : Bool) (context : Context) :
    context.step (ofKeyword word apart) = { context with
      last := some (ofKeyword word apart)
      clause := some word
      outside := false
      headers := context.headersAfter word } := by
  have same : (ofKeyword word apart).normalized = word := normal
  have keyword : (ofKeyword word apart).isKeyword = true := rfl
  have side : (ofKeyword word apart).side? = none := rfl
  simp [Context.step, same, keyword, side, significant]

theorem headersAfter_other {word : String} (noWith : word ≠ "WITH") (noStatement : Keyword.startsStatement word = false)
    (context : Context) : context.headersAfter word = context.headers := by
  simp [Context.headersAfter, noWith, noStatement]

theorem normalForm_join : Keyword.normalForm "JOIN" = "JOIN" := by decide

theorem normalForm_on : Keyword.normalForm "ON" = "ON" := by decide

theorem step_from (apart : Bool) (context : Context) : context.step (ofKeyword "FROM" apart) = { context with
    last := some (ofKeyword "FROM" apart), clause := some "FROM", outside := false } := by
  rw [step_keyword normalForm_from (by decide), headersAfter_other (by decide) (by decide)]

theorem step_name (name : String) (apart : Bool) (context : Context) :
    context.step (ofName name apart) = { context with last := some (ofName name apart) } := rfl

/-- Up to the source, every statement begins alike. -/
theorem signs_head (item : Projection) (more : List Projection) (apart : Bool) (rest : List Lexeme)
    (context : Context) :
    let sourced : Context := { context with
      last := some (ofKeyword "FROM" true), clause := some "FROM", outside := false,
        headers := context.headersAfter "SELECT" }
    let around := context.opened.head?.map Context.role
    context.signs (ofKeyword "SELECT" apart :: (listLexemes item more ++ ofKeyword "FROM" true :: rest)) =
        headSign context.clause around context.outside apart ::
          ((listLexemes item more).map (flatSign "SELECT" around) ++
          flatSign "SELECT" around (ofKeyword "FROM" true) :: sourced.signs rest) ∧
      context.after (ofKeyword "SELECT" apart :: (listLexemes item more ++ ofKeyword "FROM" true :: rest)) =
        sourced.after rest := by
  intro sourced around
  have selected :=
    step_keyword normalForm_select (show Keyword.isInsignificant "SELECT" = false by decide) apart context
  obtain ⟨listed, last, after⟩ := signs_level (level_list item more) (context.step (ofKeyword "SELECT" apart))
  have step :
      ((context.step (ofKeyword "SELECT" apart)).after (listLexemes item more)).step
          (ofKeyword "FROM" true) = sourced := by
    rw [after, step_from, selected]
  have sign : ((context.step (ofKeyword "SELECT" apart)).after (listLexemes item more)).sign (ofKeyword "FROM" true) =
      flatSign "SELECT" around (ofKeyword "FROM" true) := by
    rw [after, sign_plain rfl, selected]
    rfl
  constructor
  · rw [Context.signs, Context.signs_append, Context.signs, step, sign, listed, sign_plain rfl, selected]
    rfl
  · rw [Context.after, List.foldl_cons, List.foldl_append, List.foldl_cons]
    exact congrArg (·.after rest) step

/-- The signs of a statement, and the context after it, depend on no more of the context. -/
def Signing (selection : Selection) : Prop :=
  ∀ (context : Context) (apart : Bool), (∀ height ∈ context.headersAfter "SELECT", height ≤ context.opened.length) →
    context.signs (lexemes apart selection) =
        signs context.clause (context.opened.head?.map Context.role) context.outside apart selection ∧
      ∃ last, context.after (lexemes apart selection) = { context with
        last := some last
        clause := some (lastClause selection)
        outside := false
        headers := context.headersAfter "SELECT" }

/-- After parentheses around a statement, nothing of it is left in the context. -/
theorem signs_group {inner : Selection} (signing : Signing inner) {context : Context}
    {kind : ParenKind} {clause : String}
    (isKind : context.parenKind = kind) (noTable : kind ≠ .createTableColumns) (word : context.clause = some clause)
    (settled : ∀ height ∈ context.headers, height ≤ context.opened.length) (rest : List Lexeme) :
    let around := context.opened.head?.map Context.role
    context.signs (opening :: (lexemes false inner ++ closing :: rest)) =
        openSign kind clause around :: (signs (some clause) (some ⟨kind, .opening⟩) true false inner ++
          closeSign kind (lastClause inner) around :: Context.signs { context with last := some closing } rest) ∧
      context.after (opening :: (lexemes false inner ++ closing :: rest)) =
        Context.after { context with last := some closing } rest := by
  intro around
  have opens : opening.side? = some .opening := rfl
  have closes : closing.side? = some .closing := rfl
  let entered : Context := { context with
    last := some opening, outside := true, opened := ⟨kind, context.clause, context.outside⟩ :: context.opened }
  have enters : context.step opening = entered := by
    simp [Context.step, opens, isKind, noTable, word, entered]
  -- A WITH clause that is open outside the parentheses stays open inside.
  have unheaded : entered.headersAfter "SELECT" = context.headers := by
    have notHead : context.headers.head? ≠ some (context.opened.length + 1) := by
      intro same
      have bound := settled _ (List.mem_of_mem_head? same)
      omega
    simp [Context.headersAfter, notHead, entered]
  obtain ⟨inside, last, left⟩ := signing entered false (by
    rw [unheaded]
    exact fun height member => Nat.le_succ_of_le (settled height member))
  have kept : context.headers.dropWhile (context.opened.length < ·) = context.headers := by
    cases headers : context.headers with
    | nil => rfl
    | cons height others =>
      exact List.dropWhile_cons_of_neg (by simpa using settled height (headers ▸ List.mem_cons_self))
  have leaves : (entered.after (lexemes false inner)).step closing = { context with last := some closing } := by
    rw [left, unheaded]
    simp only [Context.step, closes, entered, kept]
  have first : context.sign opening = openSign kind clause around := by
    simp only [Context.sign, opens, isKind, word, openSign, around]
  have final : (entered.after (lexemes false inner)).sign closing = closeSign kind (lastClause inner) around := by
    simp only [left, Context.sign, closes, entered, closeSign, around]
  constructor
  · rw [Context.signs, enters, first, Context.signs_append, inside, Context.signs, leaves, final, ← word]
    rfl
  · rw [Context.after, List.foldl_cons, enters, List.foldl_append, List.foldl_cons]
    exact congrArg (Context.after · rest) leaves

theorem signing (selection : Selection) : Signing selection := by
  induction selection with
  | table item more name =>
    intro context apart settled
    obtain ⟨told, after⟩ := signs_head item more apart [ofName name true] context
    exact ⟨told, ofName name true, after⟩
  | join item more first second key =>
    intro context apart settled
    obtain ⟨told, after⟩ :=
      signs_head item more apart (ofName first true :: ofKeyword "JOIN" true :: ofName second true ::
      ofKeyword "ON" true :: conditionLexemes first second key) context
    have join (context : Context) : context.step (ofKeyword "JOIN" true) = { context with
        last := some (ofKeyword "JOIN" true), clause := some "JOIN", outside := false } := by
      rw [step_keyword normalForm_join (by decide), headersAfter_other (by decide) (by decide)]
    have on (context : Context) : context.step (ofKeyword "ON" true) = { context with
        last := some (ofKeyword "ON" true), clause := some "ON", outside := false } := by
      rw [step_keyword normalForm_on (by decide), headersAfter_other (by decide) (by decide)]
    have level : ∀ lexeme ∈ conditionLexemes first second key, Level lexeme := by
      intro lexeme member
      simp only [conditionLexemes, List.mem_cons, List.not_mem_nil, or_false] at member
      rcases member with rfl | rfl | rfl | rfl | rfl | rfl | rfl <;> exact level_other rfl rfl
    let joined : Context := { context with
      last := some (ofKeyword "ON" true), clause := some "ON", outside := false,
        headers := context.headersAfter "SELECT" }
    obtain ⟨condition, -⟩ := signs_level level joined
    refine ⟨told.trans ?_, ofName key false, after.trans ?_⟩
    · simp only [Context.signs, sign_plain (show (ofName first true).side? = none from rfl), step_name, join, on,
        sign_plain (show (ofKeyword "JOIN" true).side? = none from rfl),
        sign_plain (show (ofName second true).side? = none from rfl),
        sign_plain (show (ofKeyword "ON" true).side? = none from rfl)]
      rw [condition]
      rfl
    · simp only [Context.after, List.foldl_cons, step_name, join, on]
      rfl
  | nested item more inner name ih =>
    intro context apart settled
    obtain ⟨told, after⟩ :=
      signs_head item more apart (opening :: (lexemes false inner ++ [closing, ofName name true])) context
    let sourced : Context := { context with
      last := some (ofKeyword "FROM" true), clause := some "FROM", outside := false,
        headers := context.headersAfter "SELECT" }
    have kind : sourced.parenKind = .subquery := by
      have word : Keyword.precedesSubquery (ofKeyword "FROM" true).normalized = true := by
        rw [show (ofKeyword "FROM" true).normalized = "FROM" from normalForm_from]
        decide
      have keyword : (ofKeyword "FROM" true).isKeyword = true := rfl
      simp only [Context.parenKind, sourced, keyword, word, Bool.and_self, if_true]
    obtain ⟨group, left⟩ := signs_group ih kind (by decide) rfl settled [ofName name true]
    exact ⟨told.trans (congrArg (fun rest => _ :: (_ ++ _ :: rest)) group), ofName name true, after.trans left⟩

theorem lexemes_signs (selection : Selection) (outer : Option String) (around : Option ParenRole)
    (outside apart : Bool) :
    (signs outer around outside apart selection).map (·.lexeme) = lexemes apart selection := by
  have flat (clause : String) (around : Option ParenRole) (lexemes : List Lexeme) :
      (lexemes.map (flatSign clause around)).map (·.lexeme) = lexemes := by
    rw [List.map_map]
    exact List.map_id _
  induction selection generalizing outer around outside apart with
  | table item more name => simp [signs, lexemes, headSign, flat, flatSign]
  | join item more first second key => simp [signs, lexemes, headSign, flat, flatSign]
  | nested item more inner name ih => simp [signs, lexemes, headSign, openSign, closeSign, flat, flatSign, ih]

/-- No statement of these has common table expressions. -/
theorem noWith_signs (selection : Selection) (outer : Option String) (around : Option ParenRole)
    (outside apart : Bool) :
    ∀ sign ∈ signs outer around outside apart selection, sign.isWord "WITH" = false := by
  have other {sign : Sign} {word : String} (normal : sign.normalized = word) (known : word ≠ "WITH") :
      sign.isWord "WITH" = false := by
    rw [Sign.isWord, normal, beq_eq_false_iff_ne.mpr known, Bool.and_false]
  have list {clause : String} {around : Option ParenRole} {item : Projection} {more : List Projection} :
      ∀ sign ∈ (listLexemes item more).map (flatSign clause around), sign.isWord "WITH" = false := by
    intro sign member
    obtain ⟨lexeme, inside, rfl⟩ := List.mem_map.mp member
    obtain ⟨-, level⟩ := level_list item more lexeme inside
    by_cases keyword : lexeme.isKeyword = true
    · exact other (level keyword) (by decide)
    · exact Bool.and_eq_false_iff.mpr (.inl (Bool.eq_false_iff.mpr keyword))
  induction selection generalizing outer around outside apart with
  | table item more name =>
    intro sign member
    simp only [signs, List.mem_cons, List.mem_append, List.not_mem_nil, or_false] at member
    rcases member with rfl | listed | rfl | rfl
    · exact other normalForm_select (by decide)
    · exact list sign listed
    · exact other normalForm_from (by decide)
    · rfl
  | join item more first second key =>
    intro sign member
    simp only [signs, conditionLexemes, List.map_cons, List.map_nil, List.mem_cons, List.mem_append, List.not_mem_nil,
      or_false] at member
    rcases member with rfl | listed | rfl | rfl | rfl | rfl | rfl | rfl | rfl | rfl | rfl | rfl | rfl | rfl
    · exact other normalForm_select (by decide)
    · exact list sign listed
    · exact other normalForm_from (by decide)
    · rfl
    · exact other normalForm_join (by decide)
    · rfl
    · exact other normalForm_on (by decide)
    all_goals rfl
  | nested item more inner name ih =>
    intro sign member
    simp only [signs, List.mem_cons, List.mem_append, List.not_mem_nil, or_false] at member
    rcases member with rfl | listed | rfl | rfl | inside | rfl | rfl
    · exact other normalForm_select (by decide)
    · exact list sign listed
    · exact other normalForm_from (by decide)
    · rfl
    · exact ih _ _ _ _ sign inside
    · rfl
    · rfl

/-- Parentheses in the place of a table or of a common table expression. -/
def Holds (role : ParenRole) : Prop := role.kind = .subquery ∨ role.kind = .withQuery

theorem simple_of_usual {sign : Sign} (usual : Usual sign.lexeme)
    (normalized : sign.normalized = sign.lexeme.normalized)
    (bare : sign.isName = true → sign.paren = none) (paren : ∀ role ∈ sign.paren, Holds role)
    (around : ∀ role ∈ sign.around, Holds role) (clause : sign.clause ≠ some "INTO" ∧ sign.clause ≠ some "USING") :
    sign.Simple where
  kind := by
    generalize sign.lexeme = lexeme at usual
    cases usual with
    | keyword known apart => exact .inl rfl
    | name known apart => exact .inr (.inl rfl)
    | comma | opening | closing => exact .inr (.inr (.inl rfl))
    | dot => exact .inr (.inr (.inr (.inl rfl)))
    | equals => exact .inr (.inr (.inr (.inr rfl)))
  keyword keyword := by
    have normal : ∀ word ∈ ["SELECT", "FROM", "WITH", "AS", "JOIN", "ON"], Keyword.normalForm word = word := by decide
    rw [normalized]
    generalize sign.lexeme = lexeme at usual keyword
    cases usual with
    | keyword known apart =>
      rw [show (ofKeyword _ apart).normalized = _ from normal _ known]
      exact known
    | name | dot | comma | equals | opening | closing => cases keyword
  name name := by
    refine ⟨?_, bare name⟩
    rw [normalized]
    rw [Sign.isName] at name
    generalize sign.lexeme = lexeme at usual name
    cases usual with
    | name known apart => exact known.column
    | keyword | dot | comma | equals | opening | closing => cases name
  value := by
    generalize sign.lexeme = lexeme at usual
    cases usual with
    | name known apart => exact (value_of_name known).2.2.2.1
    | keyword known apart =>
      rintro rfl
      exact absurd known (by decide)
    | dot | comma | equals | opening | closing => decide
  paren := paren
  around := around
  clause := clause

section Marks

variable {kind : ParenKind} {around : Option ParenRole} (held : kind = .subquery ∨ kind = .withQuery)
include held

theorem simple_openSign {clause : String} (other : clause ≠ "INTO" ∧ clause ≠ "USING")
    (roles : ∀ role ∈ around, Holds role) :
    (openSign kind clause around).Simple :=
  simple_of_usual .opening rfl nofun (fun role same => by cases same; exact held) roles
    ⟨fun same => other.1 (Option.some.inj same), fun same => other.2 (Option.some.inj same)⟩

theorem simple_closeSign (inner : Selection) (roles : ∀ role ∈ around, Holds role) :
    (closeSign kind (lastClause inner) around).Simple := by
  refine simple_of_usual .closing rfl nofun (fun role same => by cases same; exact held) roles ?_
  cases inner <;> exact ⟨of_decide_eq_true rfl, of_decide_eq_true rfl⟩

end Marks

/-- What may stand around a statement. -/
structure Surrounds (outer : Option String) (around : Option ParenRole) : Prop where
  clause : outer ≠ some "INTO" ∧ outer ≠ some "USING"
  around : ∀ role ∈ around, Holds role

theorem simple_signs {selection : Selection} (known : selection.Known) {outer : Option String}
    {around : Option ParenRole}
    (surrounds : Surrounds outer around) (outside apart : Bool) :
    ∀ sign ∈ signs outer around outside apart selection, sign.Simple := by
  have plain {clause : Option String} {around : Option ParenRole}
      (surrounds : Surrounds clause around) {lexeme : Lexeme}
      (usual : Usual lexeme) (outside : Bool) :
      Sign.Simple ⟨lexeme, lexeme.normalized, clause, none, around, outside⟩ :=
    simple_of_usual usual rfl (fun _ => rfl) nofun surrounds.around surrounds.clause
  have flat {clause : String} {around : Option ParenRole} (roles : ∀ role ∈ around, Holds role)
      (other : clause ≠ "INTO" ∧ clause ≠ "USING") {lexeme : Lexeme} (usual : Usual lexeme) :
      (flatSign clause around lexeme).Simple :=
    plain ⟨⟨fun same => other.1 (Option.some.inj same), fun same => other.2 (Option.some.inj same)⟩, roles⟩ usual false
  have listed {item : Projection} {more : List Projection} (knownItems : ∀ other ∈ item :: more, other.Known)
      {around : Option ParenRole} (roles : ∀ role ∈ around, Holds role) :
      ∀ sign ∈ (listLexemes item more).map (flatSign "SELECT" around), sign.Simple := by
    intro sign member
    obtain ⟨lexeme, inside, rfl⟩ := List.mem_map.mp member
    exact flat roles (by decide) (usual_list knownItems lexeme inside)
  induction selection generalizing outer around outside apart with
  | table item more name =>
    obtain ⟨knownItems, knownName⟩ := known
    intro sign member
    simp only [signs, List.mem_cons, List.mem_append, List.not_mem_nil, or_false] at member
    rcases member with rfl | list | rfl | rfl
    · exact plain surrounds (.keyword (by decide) apart) outside
    · exact listed knownItems surrounds.around sign list
    · exact flat surrounds.around (by decide) (.keyword (by decide) true)
    · exact flat surrounds.around (by decide) (.name knownName true)
  | join item more first second key =>
    obtain ⟨knownItems, knownFirst, knownSecond, knownKey⟩ := known
    intro sign member
    simp only [signs, List.mem_cons, List.mem_append, List.mem_map] at member
    rcases member with rfl | ⟨lexeme, inside, rfl⟩ | rfl | rfl | rfl | rfl | rfl | ⟨lexeme, inside, rfl⟩
    · exact plain surrounds (.keyword (by decide) apart) outside
    · exact flat surrounds.around (by decide) (usual_list knownItems lexeme inside)
    · exact flat surrounds.around (by decide) (.keyword (by decide) true)
    · exact flat surrounds.around (by decide) (.name knownFirst true)
    · exact flat surrounds.around (by decide) (.keyword (by decide) true)
    · exact flat surrounds.around (by decide) (.name knownSecond true)
    · exact flat surrounds.around (by decide) (.keyword (by decide) true)
    · exact flat surrounds.around (by decide) (usual_condition knownFirst knownSecond knownKey lexeme inside)
  | nested item more inner name ih =>
    obtain ⟨knownItems, knownInner, knownName⟩ := known
    have within : Surrounds (some "FROM") (some ⟨.subquery, .opening⟩) :=
      ⟨by decide, fun role same => by cases same; exact .inl rfl⟩
    intro sign member
    simp only [signs, List.mem_cons, List.mem_append, List.not_mem_nil, or_false] at member
    rcases member with rfl | list | rfl | rfl | inside | rfl | rfl
    · exact plain surrounds (.keyword (by decide) apart) outside
    · exact listed knownItems surrounds.around sign list
    · exact flat surrounds.around (by decide) (.keyword (by decide) true)
    · exact simple_openSign (.inl rfl) (by decide) surrounds.around
    · exact ih knownInner within true false sign inside
    · exact simple_closeSign (.inl rfl) inner surrounds.around
    · exact flat surrounds.around (by decide) (.name knownName true)

end Signs

end QueryFacts.Proofs.Selections
