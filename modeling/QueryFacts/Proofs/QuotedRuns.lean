import QueryFacts.Proofs.Layout

/-! Quoted runs, as the lexer reads them and as the text is segmented. Both end a run at the
same quote, except where a string has a backslash that only one of them takes for an escape. -/

namespace QueryFacts.Proofs.QuotedRuns
open Text Lexer Segment Layout

/-- `part` is the rest of a run from behind its opening quote to its end, and both ways to
read it agree on that, whatever comes after it that is not the quote again. -/
structure Ends (quote : Char) (body : List Char → Option Body) (part inner : List Char) : Prop where
  some : part ≠ []
  read : ∀ after, after.head? ≠ Option.some quote → body (part ++ after) = Option.some (inner, after)
  split : ∀ after, after.head? ≠ Option.some quote → throughQuote quote (part ++ after) = (part, after)

/-- A backslash in a run is an escape for the lexer where it is one for the segments. -/
inductive Agrees : Char → Bool → List Char → Prop where
  | string {quote : Char} (string : quote ≠ backtick) (inner : List Char) : Agrees quote true inner
  | name (inner : List Char) : Agrees backtick false inner
  | bytes (quote : Char) {inner : List Char} (plain : '\\' ∉ inner) : Agrees quote false inner

theorem Agrees.tail {quote c : Char} {escapes : Bool} {inner : List Char} (agrees : Agrees quote escapes (c :: inner)) :
    Agrees quote escapes inner := by
  cases agrees with
  | string string => exact .string string inner
  | name => exact .name inner
  | bytes _ plain => exact .bytes quote (List.not_mem_of_not_mem_cons plain)

/-- The next character is an escape for neither. -/
theorem Agrees.straight {quote c : Char} {escapes : Bool} {inner : List Char}
    (agrees : Agrees quote escapes (c :: inner))
    (single : ¬(escapes && c == '\\') = true) : ¬(c = '\\' ∧ quote ≠ backtick) := by
  rintro ⟨rfl, string⟩
  cases agrees with
  | string => exact single rfl
  | name => exact string rfl
  | bytes _ plain => exact plain List.mem_cons_self

namespace Ends
variable {quote : Char} {body : List Char → Option Body} {part inner : List Char}

/-- Reading a part in front of one that is read to the end of the run. -/
theorem cons (ends : Ends quote body part inner) {front inner' : List Char} (some : front ≠ [])
    (read : ∀ after, part ++ after ≠ [] → body (part ++ after) = Option.some (inner, after) →
      body (front ++ (part ++ after)) = Option.some (inner', after))
    (split : ∀ after, part ++ after ≠ [] → throughQuote quote (part ++ after) = (part, after) →
      throughQuote quote (front ++ (part ++ after)) = (front ++ part, after)) :
    Ends quote body (front ++ part) inner' where
  some := fun none => some (List.append_eq_nil_iff.mp none).1
  read := fun after other => by
    rw [List.append_assoc]
    exact read after (fun none => ends.some (List.append_eq_nil_iff.mp none).1) (ends.read after other)
  split := fun after other => by
    rw [List.append_assoc]
    exact split after (fun none => ends.some (List.append_eq_nil_iff.mp none).1) (ends.split after other)

end Ends

/-- The closing quote ends a run. -/
private theorem throughQuote_close {quote : Char} (plain : quote ≠ '\\') {after : List Char}
    (other : after.head? ≠ some quote) :
    throughQuote quote (quote :: after) = ([quote], after) := by
  cases after with
  | nil => rfl
  | cons d after =>
    have apart : d ≠ quote := fun same => other (congrArg some same)
    rw [throughQuote_step, if_neg fun found => plain found.1, if_pos rfl, if_neg apart]

private theorem quotedBody_close {quote : Char} {escapes : Bool} {after : List Char}
    (other : after.head? ≠ some quote) :
    quotedBody quote escapes (quote :: after) = some ([], after) := by
  cases after with
  | nil => rw [quotedBody, if_pos rfl]
  | cons d after =>
    have apart : d ≠ quote := fun same => other (congrArg some same)
    rw [quotedBody, if_pos rfl, if_neg apart]

/-- A body that the lexer reads ends its run. -/
theorem quotedBody_run {quote : Char} {escapes : Bool} (plain : quote ≠ '\\') {text inner after : List Char}
    (read : quotedBody quote escapes text = some (inner, after)) (agrees : Agrees quote escapes inner) :
    ∃ part, text = part ++ after ∧ after.head? ≠ some quote ∧ Ends quote (quotedBody quote escapes) part inner := by
  have close : Ends quote (quotedBody quote escapes) [quote] [] :=
    ⟨List.cons_ne_nil _ _, fun after other => quotedBody_close other, fun after other => throughQuote_close plain other⟩
  have straight : ¬(quote = '\\' ∧ quote ≠ backtick) := fun found => plain found.1
  fun_induction quotedBody quote escapes text generalizing inner after with
  | case1 => cases read
  | case2 =>
    obtain ⟨rfl, rfl⟩ := Prod.mk.inj (Option.some.inj read)
    exact ⟨[quote], rfl, by simp, close⟩
  | case3 => cases read
  | case4 rest ih =>
    obtain ⟨⟨body, later⟩, found, same⟩ := Option.map_eq_some_iff.mp read
    obtain ⟨rfl, rfl⟩ := Prod.mk.inj same
    obtain ⟨part, rfl, next, ends⟩ := ih found agrees.tail
    refine ⟨[quote, quote] ++ part, rfl, next, ends.cons (List.cons_ne_nil _ _) ?_ ?_⟩
    · intro after _ read
      change quotedBody quote escapes (quote :: quote :: (part ++ after)) = _
      rw [quotedBody, if_pos rfl, if_pos rfl, read]
      rfl
    · intro after _ split
      change throughQuote quote (quote :: quote :: (part ++ after)) = _
      rw [throughQuote_step, if_neg straight, if_pos rfl, if_pos rfl, split]
      rfl
  | case5 d rest different =>
    obtain ⟨rfl, rfl⟩ := Prod.mk.inj (Option.some.inj read)
    exact ⟨[quote], rfl, by simpa using different, close⟩
  | case6 c d rest different escaped ih =>
    obtain ⟨⟨body, later⟩, found, same⟩ := Option.map_eq_some_iff.mp read
    obtain ⟨rfl, rfl⟩ := Prod.mk.inj same
    obtain ⟨rfl, rfl⟩ : escapes = true ∧ c = '\\' := by simpa using escaped
    obtain ⟨part, rfl, next, ends⟩ := ih found agrees.tail
    have string : quote ≠ backtick := by
      cases agrees with
      | string string => exact string
    refine ⟨['\\', d] ++ part, rfl, next, ends.cons (List.cons_ne_nil _ _) ?_ ?_⟩
    · intro after _ read
      change quotedBody quote true ('\\' :: d :: (part ++ after)) = _
      rw [quotedBody, if_neg different, if_pos escaped, read]
      rfl
    · intro after _ split
      change throughQuote quote ('\\' :: d :: (part ++ after)) = _
      rw [throughQuote_step, if_pos ⟨rfl, string⟩, split]
      rfl
  | case7 c d rest different single ih =>
    obtain ⟨⟨body, later⟩, found, same⟩ := Option.map_eq_some_iff.mp read
    obtain ⟨rfl, rfl⟩ := Prod.mk.inj same
    have unescaped := agrees.straight single
    obtain ⟨part, text, next, ends⟩ := ih found agrees.tail
    refine ⟨[c] ++ part, congrArg (c :: ·) text, next, ends.cons (List.cons_ne_nil _ _) ?_ ?_⟩
    · intro after some read
      obtain ⟨e, more, begins⟩ := List.exists_cons_of_ne_nil some
      change quotedBody quote escapes (c :: (part ++ after)) = _
      rw [begins] at read ⊢
      rw [quotedBody, if_neg different, if_neg single, read]
      rfl
    · intro after some split
      obtain ⟨e, more, begins⟩ := List.exists_cons_of_ne_nil some
      change throughQuote quote (c :: (part ++ after)) = _
      rw [begins] at split ⊢
      rw [throughQuote_step, if_neg unescaped, if_neg different, split]
      rfl

section Escaped

/-- Leading characters are told by the one that comes behind them. -/
private theorem leading_run {accepts : Char → Bool} {most : Nat} {rest : List Char}
    (more : (leading accepts most rest).length < rest.length) :
    ∃ next later, rest = leading accepts most rest ++ next :: later ∧
      ∀ other, leading accepts most (leading accepts most rest ++ next :: other) = leading accepts most rest := by
  induction most generalizing rest with
  | zero =>
    obtain ⟨next, later, rfl⟩ := List.exists_cons_of_length_pos more
    exact ⟨next, later, rfl, fun other => rfl⟩
  | succ most ih =>
    cases rest with
    | nil => cases more
    | cons c rest =>
      by_cases accepted : accepts c = true
      · have begins (text : List Char) : leading accepts (most + 1) (c :: text) = c :: leading accepts most text := by
          simp [leading, accepted]
        rw [begins] at more ⊢
        obtain ⟨next, later, whole, stays⟩ := ih (Nat.lt_of_succ_lt_succ more)
        refine ⟨next, later, congrArg (c :: ·) whole, fun other => ?_⟩
        rw [List.cons_append, begins, stays]
      · have ends (text : List Char) : leading accepts (most + 1) (c :: text) = [] := by
          simp [leading, accepted]
        rw [ends]
        exact ⟨c, rest, rfl, fun other => ends other⟩

/-- A character that an escape takes with it. -/
private def isTaken (c : Char) : Bool := isHexDigit c || c == '+'

private theorem isTaken_of_codePoint {text : List Char} {found : Char} (read : codePoint? text = some found) :
    ∀ d ∈ text, isTaken d = true := by
  have digits {text : List Char} (all : text.all isHexDigit = true) : ∀ d ∈ text, isTaken d = true := by
    intro d member
    rw [isTaken, List.all_eq_true.mp all d member, Bool.true_or]
  cases text with
  | nil => exact List.forall_mem_nil _
  | cons c rest =>
    by_cases plus : c = '+'
    · subst plus
      change (if rest ≠ [] ∧ rest.all isHexDigit = true ∧ (ofDigits 16 rest).isValidChar then
        some (Char.ofNat (ofDigits 16 rest)) else none) = some found at read
      split at read
      next valid => exact List.forall_mem_cons.mpr ⟨by decide, digits valid.2.1⟩
      next => cases read
    · simp only [codePoint?] at read
      split at read
      next rest same => exact absurd (List.cons.inj same).1 plus
      next =>
        split at read
        next valid => exact digits valid.2.1
        next => cases read

private theorem isTaken_of_octal {c : Char} (octal : isOctalDigit c = true) : isTaken c = true := by
  have range : '0' ≤ c ∧ c ≤ '7' := by simpa [isOctalDigit] using octal
  have digit : c.isDigit = true := by
    simp only [Char.isDigit, Bool.and_eq_true, decide_eq_true_eq]
    exact ⟨range.1, Nat.le_trans range.2 (by decide)⟩
  rw [isTaken, isHexDigit, digit, Bool.true_or, Bool.true_or, Bool.true_or]

/-- The forms of an escape, by what it takes of the text behind its letter. -/
private inductive Form (c : Char) : Prop where
  | letter (found : Option (Char × Nat)) (none : ∀ pair ∈ found, pair.2 = 0) (read : ∀ rest, escape? c rest = found)
  | wide (width : Nat) (read : ∀ rest, escape? c rest =
      (if width ≤ rest.length then (codePoint? (rest.take width)).map (·, width) else none).filter (·.1 ≠ '\x00'))
  | digits (accepts : Char → Bool) (value : List Char → Option Char) (taken : ∀ d, accepts d = true → isTaken d = true)
      (read : ∀ rest, escape? c rest =
        ((value (leading accepts 2 rest)).map (·, (leading accepts 2 rest).length)).filter (·.1 ≠ '\x00'))

private theorem form (c : Char) : Form c := by
  by_cases known : c ∈ ['b', 'f', 'n', 'r', 't', 'u', 'U', 'x']
  · simp only [List.mem_cons, List.not_mem_nil, or_false] at known
    rcases known with rfl | rfl | rfl | rfl | rfl | rfl | rfl | rfl
    · exact .letter _ (by simp) fun rest => rfl
    · exact .letter _ (by simp) fun rest => rfl
    · exact .letter _ (by simp) fun rest => rfl
    · exact .letter _ (by simp) fun rest => rfl
    · exact .letter _ (by simp) fun rest => rfl
    · exact .wide 4 fun rest => rfl
    · exact .wide 8 fun rest => rfl
    · refine .digits isHexDigit (fun digits => if digits = [] then some 'x' else byteChar? (ofDigits 16 digits)) ?_ ?_
      · intro d digit
        rw [isTaken, digit, Bool.true_or]
      · intro rest
        change Option.filter _ (if leading isHexDigit 2 rest = [] then some ('x', 0) else Option.map _ _) = _
        split
        next none => rw [none]; rfl
        next => rfl
  · have other (rest : List Char) : escape? c rest = (if isOctalDigit c then
        (byteChar? (ofDigits 8 (c :: leading isOctalDigit 2 rest))).map (·, (leading isOctalDigit 2 rest).length)
      else some (c, 0)).filter (·.1 ≠ '\x00') := by
      unfold escape?
      dsimp only
      split
      all_goals first | rfl | exact absurd (by decide) known
    by_cases octal : isOctalDigit c = true
    · exact .digits isOctalDigit (fun digits => byteChar? (ofDigits 8 (c :: digits))) (fun d => isTaken_of_octal)
        fun rest => by rw [other, if_pos octal]
    · refine .letter ((some (c, 0)).filter (·.1 ≠ '\x00')) ?_ fun rest => by rw [other, if_neg octal]
      intro pair found
      rw [(Option.some.inj (Option.filter_eq_some_iff.mp found).1).symm]

/-- An escape is told by the character behind it, and no character of it opens or closes anything. -/
private theorem escape?_run {c found : Char} {rest : List Char} {taken : Nat}
    (read : escape? c rest = some (found, taken))
    (more : taken < rest.length) : ∃ run next later, rest = run ++ next :: later ∧ run.length = taken ∧
      (∀ d ∈ run, isTaken d = true) ∧ ∀ other, escape? c (run ++ next :: other) = some (found, taken) := by
  cases form c with
  | letter pair none known =>
    rw [known] at read
    obtain ⟨next, later, rfl⟩ := List.exists_cons_of_length_pos (Nat.zero_lt_of_lt more)
    exact ⟨[], next, later, rfl, (none _ read).symm, List.forall_mem_nil _, fun other => (known _).trans read⟩
  | wide width known =>
    have taking := read
    rw [known] at taking
    obtain ⟨point, -⟩ := Option.filter_eq_some_iff.mp taking
    split at point
    next within =>
      obtain ⟨value, decoded, same⟩ := Option.map_eq_some_iff.mp point
      obtain ⟨rfl, rfl⟩ := Prod.mk.inj same
      obtain ⟨next, later, behind⟩ := List.exists_cons_of_length_pos (List.length_drop ▸ Nat.sub_pos_of_lt more)
      have length : (rest.take width).length = width := List.length_take_of_le within
      refine ⟨rest.take width, next, later, ?_, length, isTaken_of_codePoint decoded, fun other => ?_⟩
      · rw [← behind, List.take_append_drop]
      · have same : (rest.take width ++ next :: other).take width = rest.take width := List.take_left' length
        rw [known, same, if_pos (by simp [length])]
        rwa [known, if_pos within] at read
    next => cases point
  | digits accepts value all known =>
    have taking := read
    rw [known] at taking
    obtain ⟨figures, -⟩ := Option.filter_eq_some_iff.mp taking
    obtain ⟨result, decoded, same⟩ := Option.map_eq_some_iff.mp figures
    obtain ⟨rfl, rfl⟩ := Prod.mk.inj same
    obtain ⟨next, later, whole, stays⟩ := leading_run more
    refine ⟨_, next, later, whole, rfl, ?_, fun other => ?_⟩
    · intro d member
      exact all d (List.all_eq_true.mp List.all_takeWhile d member)
    · rw [known, stays, ← known, read]

private theorem throughQuote_run {run : List Char} (plain : ∀ d ∈ run, isTaken d = true) {text part after : List Char}
    (some : text ≠ []) (split : throughQuote singleQuote text = (part, after)) :
    throughQuote singleQuote (run ++ text) = (run ++ part, after) := by
  induction run with
  | nil => exact split
  | cons c run ih =>
    obtain ⟨first, others⟩ := List.forall_mem_cons.mp plain
    have later := ih others
    cases begins : run ++ text with
    | nil => exact absurd (List.append_eq_nil_iff.mp begins).2 some
    | cons d more =>
      rw [begins] at later
      have noBackslash : c ≠ '\\' := by rintro rfl; exact absurd first (by decide)
      have noQuote : c ≠ singleQuote := by rintro rfl; exact absurd first (by decide)
      rw [List.cons_append, begins, throughQuote_step, if_neg fun found => noBackslash found.1, if_neg noQuote, later]
      rfl

private theorem escapedBody_close {after : List Char} (other : after.head? ≠ some singleQuote) :
    escapedBody (singleQuote :: after) = some ([], after) := by
  cases after with
  | nil => simp [escapedBody]
  | cons d after =>
    have apart : d ≠ singleQuote := fun same => other (congrArg some same)
    rw [escapedBody.eq_def]
    simp only [if_true, if_neg apart]

/-- The body of an escaped string ends its run. -/
theorem escapedBody_run {text inner after : List Char} (read : escapedBody text = some (inner, after)) :
    ∃ part, text = part ++ after ∧ after.head? ≠ some singleQuote ∧ Ends singleQuote escapedBody part inner := by
  have close : Ends singleQuote escapedBody [singleQuote] [] :=
    ⟨List.cons_ne_nil _ _, fun after other => escapedBody_close other, fun after other =>
      throughQuote_close (by decide) other⟩
  fun_induction escapedBody text generalizing inner after with
  | case1 => cases read
  | case2 =>
    obtain ⟨rfl, rfl⟩ := Prod.mk.inj (Option.some.inj read)
    exact ⟨[singleQuote], rfl, by simp, close⟩
  | case3 more ih =>
    obtain ⟨⟨body, later⟩, found, same⟩ := Option.map_eq_some_iff.mp read
    obtain ⟨rfl, rfl⟩ := Prod.mk.inj same
    obtain ⟨part, rfl, next, ends⟩ := ih found
    refine ⟨[singleQuote, singleQuote] ++ part, rfl, next, ends.cons (List.cons_ne_nil _ _) ?_ ?_⟩
    · intro after _ read
      change escapedBody (singleQuote :: singleQuote :: (part ++ after)) = _
      rw [escapedBody, if_pos rfl]
      simp only [if_pos, read]
      rfl
    · intro after _ split
      change throughQuote singleQuote (singleQuote :: singleQuote :: (part ++ after)) = _
      rw [throughQuote_step, if_neg (by decide), if_pos rfl, if_pos rfl, split]
      rfl
  | case4 d more different =>
    obtain ⟨rfl, rfl⟩ := Prod.mk.inj (Option.some.inj read)
    exact ⟨[singleQuote], rfl, by simpa using different, close⟩
  | case5 => cases read
  | case6 => cases read
  | case7 d more found taken escaped different ih =>
    obtain ⟨⟨body, later⟩, rest, same⟩ := Option.map_eq_some_iff.mp read
    obtain ⟨rfl, rfl⟩ := Prod.mk.inj same
    have shorter := escapedBody_length rest
    rw [List.length_drop] at shorter
    obtain ⟨run, next, others, rfl, rfl, plain, stays⟩ := escape?_run escaped (by omega)
    rw [List.drop_left] at rest ih
    obtain ⟨part, whole, behind, ends⟩ := ih rest
    cases part with
    | nil => exact absurd rfl ends.some
    | cons first part =>
    obtain ⟨rfl, -⟩ := List.cons.inj whole
    refine ⟨'\\' :: d :: run ++ (next :: part), ?_, behind, ends.cons (List.cons_ne_nil _ _) ?_ ?_⟩
    · rw [whole]
      simp
    · intro after _ read
      change escapedBody ('\\' :: d :: (run ++ (next :: part ++ after))) = _
      rw [escapedBody.eq_def]
      have again : escape? d (run ++ (next :: part ++ after)) = some (found, run.length) := stays (part ++ after)
      simp only [if_neg different, if_true, again, List.drop_left, read]
      rfl
    · intro after some split
      have through := throughQuote_run plain some split
      change throughQuote singleQuote ('\\' :: d :: (run ++ (next :: part ++ after))) = _
      rw [throughQuote_step, if_pos ⟨rfl, by decide⟩, through]
      rfl
  | case8 c rest different plain ih =>
    obtain ⟨⟨body, later⟩, found, same⟩ := Option.map_eq_some_iff.mp read
    obtain ⟨rfl, rfl⟩ := Prod.mk.inj same
    obtain ⟨part, rfl, next, ends⟩ := ih found
    refine ⟨[c] ++ part, rfl, next, ends.cons (List.cons_ne_nil _ _) ?_ ?_⟩
    · intro after _ read
      change escapedBody (c :: (part ++ after)) = _
      rw [escapedBody.eq_def]
      simp only [if_neg different, if_neg plain, read]
      rfl
    · intro after some split
      obtain ⟨e, more, begins⟩ := List.exists_cons_of_ne_nil some
      change throughQuote singleQuote (c :: (part ++ after)) = _
      rw [begins] at split ⊢
      rw [throughQuote_step, if_neg fun found => plain found.1, if_neg different, split]
      rfl

end Escaped

end QueryFacts.Proofs.QuotedRuns
