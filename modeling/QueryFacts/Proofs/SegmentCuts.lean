import QueryFacts.Proofs.Layout

/-! Where a text can be cut. Each character of a text is labelled with the kind of the segment it stands
in. What comes after a text that ends in code is labelled as if nothing were before it, and the labels
of a text do not change when a semicolon of code or a blank is cut off behind it. -/

namespace QueryFacts
open Text

def Segment.labels (segment : Segment) : List (Char × SegmentKind) := segment.text.map (·, segment.kind)

/-- The characters of a text, each with the kind of its segment. -/
def labelled (text : List Char) : List (Char × SegmentKind) := (Segment.ofText text).flatMap Segment.labels

/-- Reads a quoted text from behind its first quote: it ends in a quote of its own, which is neither
doubled nor, except between backticks, behind a backslash. -/
def closesQuote (quote : Char) : List Char → Bool
  | [] => false
  | [c] => c == quote
  | c :: d :: rest =>
    if c = '\\' ∧ quote ≠ backtick then closesQuote quote rest
    else if c = quote then d == quote && closesQuote quote rest
    else closesQuote quote (d :: rest)

/-- The segment is code, or it ends as its kind demands and not just with the text. -/
def Segment.isClosed (segment : Segment) : Bool :=
  match segment.kind with
  | .code => true
  | .stringLiteral => closesQuote singleQuote segment.text.tail
  | .doubleQuoted => closesQuote doubleQuote segment.text.tail
  | .backticked => closesQuote backtick segment.text.tail
  | .blockComment => ['*', '/'].isSuffixOf (segment.text.drop 2)
  | .lineComment => segment.text.getLast? == some '\n'

/-- The text does not end within a quoted run or a comment. -/
def EndsInCode (text : List Char) : Prop := ∀ segment ∈ Segment.ofText text, segment.isClosed = true

end QueryFacts

namespace QueryFacts.Proofs.SegmentCuts
open Text Layout Segment SegmentKind

section Closed

variable {quote c : Char} {text rest after : List Char} {kind : SegmentKind}

private theorem quote_ne_backslash (quoted : kind.quote? = some quote) : quote ≠ '\\' := by
  cases kind <;> cases quoted <;> decide

theorem throughQuote_closed (quoted : kind.quote? = some quote) (closed : closesQuote quote text = true)
    (other : after.head? ≠ some quote) : throughQuote quote (text ++ after) = (text, after) := by
  have plain : ¬(quote = '\\' ∧ quote ≠ backtick) := fun found => quote_ne_backslash quoted found.1
  fun_induction closesQuote quote text with
  | case1 => cases closed
  | case2 c =>
    obtain rfl := beq_iff_eq.mp closed
    cases after with
    | nil => rfl
    | cons e after =>
      have apart : e ≠ c := fun same => other (congrArg some same)
      change throughQuote c (c :: e :: after) = _
      rw [throughQuote_step, if_neg plain, if_pos rfl, if_neg apart]
  | case3 c d rest escaped ih =>
    change throughQuote quote (c :: d :: (rest ++ after)) = _
    rw [throughQuote_step, if_pos escaped, ih closed]
  | case4 d rest plain ih =>
    rw [Bool.and_eq_true, beq_iff_eq] at closed
    change throughQuote quote (quote :: d :: (rest ++ after)) = _
    rw [throughQuote_step, if_neg plain, if_pos rfl, if_pos closed.1, ih closed.2]
  | case5 c d rest plain different ih =>
    change throughQuote quote (c :: d :: (rest ++ after)) = _
    rw [throughQuote_step, if_neg plain, if_neg different, ← List.cons_append, ih closed]

theorem closesQuote_throughQuote {text : List Char} (more : (throughQuote quote text).2 ≠ []) :
    closesQuote quote (throughQuote quote text).1 = true := by
  fun_induction throughQuote quote text with
  | case1 => exact absurd rfl more
  | case2 => exact absurd rfl more
  | case3 c d rest escaped ih =>
    change closesQuote quote (c :: d :: (throughQuote quote rest).1) = true
    rw [closesQuote, if_pos escaped, ih more]
  | case4 rest plain ih =>
    change closesQuote quote (quote :: quote :: (throughQuote quote rest).1) = true
    rw [closesQuote, if_neg plain, if_pos rfl, ih more, beq_self_eq_true, Bool.and_self]
  | case5 d rest plain different => exact beq_self_eq_true quote
  | case6 c d rest plain different ih =>
    obtain ⟨others, begins⟩ := throughQuote_cons quote d rest
    have later := ih more
    change closesQuote quote (c :: (throughQuote quote (d :: rest)).1) = true
    rw [begins] at later ⊢
    rw [closesQuote, if_neg plain, if_neg different, later]

private theorem getLast?_of_cons (plain : c ≠ '\n') (closed : (c :: text).getLast? = some '\n') :
    text.getLast? = some '\n' := by
  rw [List.getLast?_cons] at closed
  cases last : text.getLast? with
  | none =>
    rw [last] at closed
    exact absurd (Option.some.inj closed) plain
  | some d =>
    rw [last] at closed
    exact closed

private theorem throughBlockEnd_closed (closed : ['*', '/'] <:+ text) (whole : (throughBlockEnd text).2 = []) :
    throughBlockEnd (text ++ after) = (text, after) := by
  fun_induction throughBlockEnd text with
  | case1 => cases List.suffix_nil.mp closed
  | case2 c => exact absurd closed.length_le (by simp)
  | case3 c d rest found =>
    obtain rfl : rest = [] := whole
    change throughBlockEnd (c :: d :: after) = _
    rw [throughBlockEnd_step, if_pos found]
  | case4 c d rest plain ih =>
    have inner : ['*', '/'] <:+ d :: rest := by
      rcases List.suffix_cons_iff.mp closed with same | inner
      · obtain ⟨rfl, rfl, -⟩ : '*' = c ∧ '/' = d ∧ [] = rest := by simpa using same
        exact absurd ⟨rfl, rfl⟩ plain
      · exact inner
    change throughBlockEnd (c :: d :: (rest ++ after)) = _
    rw [throughBlockEnd_step, if_neg plain, ← List.cons_append, ih inner whole]

private theorem suffix_throughBlockEnd {text : List Char} (more : (throughBlockEnd text).2 ≠ []) :
    ['*', '/'] <:+ (throughBlockEnd text).1 := by
  fun_induction throughBlockEnd text with
  | case1 => exact absurd rfl more
  | case2 => exact absurd rfl more
  | case3 c d rest found =>
    obtain ⟨rfl, rfl⟩ := found
    exact List.suffix_rfl
  | case4 c d rest plain ih => exact (ih more).trans (List.suffix_cons c _)

private theorem throughNewline_closed (closed : text.getLast? = some '\n') (whole : (throughNewline text).2 = []) :
    throughNewline (text ++ after) = (text, after) := by
  fun_induction throughNewline text with
  | case1 => cases closed
  | case2 rest =>
    obtain rfl : rest = [] := whole
    rfl
  | case3 c rest plain ih =>
    have inner : rest.getLast? = some '\n' := getLast?_of_cons plain closed
    change throughNewline (c :: (rest ++ after)) = _
    rw [throughNewline, if_neg plain, ih inner whole]
    rfl

private theorem getLast?_throughNewline {text : List Char} (more : (throughNewline text).2 ≠ []) :
    (throughNewline text).1.getLast? = some '\n' := by
  fun_induction throughNewline text with
  | case1 => exact absurd rfl more
  | case2 rest => rfl
  | case3 c rest plain ih =>
    change (c :: (throughNewline rest).1).getLast? = some '\n'
    rw [List.getLast?_cons, ih more]
    rfl

private theorem comment_cases (comment : kind.isComment = true) (opens : opening? c rest = some kind) :
    kind = .lineComment ∧ c ≠ '\n' ∨ kind = .blockComment ∧ ∃ more, c = '/' ∧ rest = '*' :: more := by
  unfold opening? at opens
  repeat' split at opens
  all_goals cases opens
  all_goals cases comment
  · rename_i hash
    refine .inl ⟨rfl, ?_⟩
    rw [hash]
    decide
  · rename_i block
    obtain ⟨more, begins⟩ := List.head?_eq_some_iff.mp block.2
    exact .inr ⟨rfl, more, block.1, begins⟩
  · rename_i line
    refine .inl ⟨rfl, ?_⟩
    rw [line.1]
    decide

/-- A comment that is closed where the text ends is closed there whatever comes after it. -/
private theorem split_comment (comment : kind.isComment = true) (opens : opening? c rest = some kind)
    (closed : isClosed ⟨kind, c :: rest⟩ = true) (whole : (split kind rest).2 = []) :
    split kind (rest ++ after) = (rest, after) := by
  rcases comment_cases comment opens with ⟨rfl, plain⟩ | ⟨rfl, more, rfl, rfl⟩
  · exact throughNewline_closed (getLast?_of_cons plain (beq_iff_eq.mp closed)) whole
  · have inner : throughBlockEnd (more ++ after) = (more, after) :=
      throughBlockEnd_closed (List.isSuffixOf_iff_suffix.mp closed) whole
    change ('*' :: (throughBlockEnd (more ++ after)).1, (throughBlockEnd (more ++ after)).2) = _
    rw [inner]

theorem opening?_append (opens : opening? c rest = some kind) (after : List Char) :
    opening? c (rest ++ after) = some kind := by
  cases rest with
  | cons d rest => exact opens
  | nil =>
    rcases kind_cases opens with quoted | comment
    · exact opening?_quote quoted _
    · unfold opening? at opens
      repeat' split at opens
      all_goals cases opens
      all_goals cases comment
      all_goals simp_all [opening?]

/-- A segment that is closed ends where it did whatever comes after it, as long as that is not its quote. -/
theorem split_closed (opens : opening? c rest = some kind) (closed : isClosed ⟨kind, c :: (split kind rest).1⟩ = true)
    (other : ∀ quote, kind.quote? = some quote → after.head? ≠ some quote) :
    opening? c ((split kind rest).1 ++ after) = some kind ∧
      split kind ((split kind rest).1 ++ after) = ((split kind rest).1, after) := by
  rcases kind_cases opens with quoted | comment
  · refine ⟨opening?_quote quoted _, ?_⟩
    rw [split_quote quoted, split_quote quoted]
    have ends : closesQuote c (throughQuote c rest).1 = true := by
      rw [← split_quote quoted]
      cases kind <;> cases quoted <;> exact closed
    exact throughQuote_closed quoted ends (other c quoted)
  · by_cases whole : (split kind rest).2 = []
    · have same := split_append kind rest
      rw [whole, List.append_nil] at same
      rw [same] at closed ⊢
      exact ⟨opening?_append opens after, split_comment comment opens closed whole⟩
    · exact comment_replace comment opens fun last => absurd last whole

/-- A segment that something comes after is closed. -/
theorem isClosed_of_more (opens : opening? c rest = some kind) (more : (split kind rest).2 ≠ []) :
    isClosed ⟨kind, c :: (split kind rest).1⟩ = true := by
  rcases kind_cases opens with quoted | comment
  · rw [split_quote quoted] at more ⊢
    have ends := closesQuote_throughQuote more
    cases kind <;> cases quoted <;> exact ends
  · rcases comment_cases comment opens with ⟨rfl, -⟩ | ⟨rfl, after, rfl, rfl⟩
    · change (c :: (throughNewline rest).1).getLast? == some '\n'
      rw [List.getLast?_cons, getLast?_throughNewline more]
      rfl
    · exact List.isSuffixOf_iff_suffix.mpr (suffix_throughBlockEnd more)

end Closed

section Cuts

variable {α : Type} {part : Segment → List α} {each : SegmentKind → Char → List α}
variable {c border : Char} {rest text : List Char} {kind : SegmentKind}

private theorem endsInCode_iff : EndsInCode text ↔
    (ofText text).flatMap (fun segment => if segment.isClosed = true then [] else [segment]) = [] := by
  rw [List.flatMap_eq_nil_iff]
  apply forall₂_congr
  intro segment _
  by_cases closed : segment.isClosed = true <;> simp [closed]

theorem endsInCode_code (code : opening? c rest = none) : EndsInCode (c :: rest) ↔ EndsInCode rest := by
  rw [endsInCode_iff, endsInCode_iff, flatMap_code (fun _ => []) (fun text => ?_) code, List.nil_append]
  exact (List.flatMap_eq_nil_iff.mpr fun _ _ => rfl).symm

theorem endsInCode_run (opens : opening? c rest = some kind) :
    EndsInCode (c :: rest) ↔ isClosed ⟨kind, c :: (split kind rest).1⟩ = true ∧ EndsInCode (split kind rest).2 := by
  rw [EndsInCode, ofText, opens, Option.getD_some, List.forall_mem_cons, EndsInCode]

/-- Behind a run comes no quote of its own, also when something is appended. -/
private theorem head?_split (apart : ∀ kind quote, SegmentKind.quote? kind = some quote → border ≠ quote)
    (kind : SegmentKind)
    (rest after : List Char) :
    ∀ quote, kind.quote? = some quote → ((split kind rest).2 ++ border :: after).head? ≠ some quote := by
  intro quote quoted head
  rw [split_quote quoted] at head
  cases left : (throughQuote quote rest).2 with
  | nil =>
    rw [left] at head
    exact apart kind quote quoted (Option.some.inj head)
  | cons d more =>
    have other := throughQuote_next quote rest
    rw [left] at head other
    exact other head

private theorem opening?_border (code : opening? c rest = none) (apart : border ≠ '*' ∧ border ≠ '-')
    (after : List Char) :
    opening? c (rest ++ border :: after) = none := by
  apply opening?_code code
  intro d head sign
  cases rest with
  | nil =>
    obtain rfl := Option.some.inj head
    exact absurd sign (not_or.mpr apart)
  | cons e rest => exact head

theorem semicolon_ne_quote (kind : SegmentKind) (quote : Char) (quoted : kind.quote? = some quote) : ';' ≠ quote := by
  cases kind <;> cases quoted <;> decide

/-- What comes after a text that ends in code, and a semicolon, stands for itself. -/
theorem flatMap_append (characters : ∀ kind text, part ⟨kind, text⟩ = text.flatMap (each kind)) (ends : EndsInCode text)
    (after : List Char) :
    (ofText (text ++ ';' :: after)).flatMap part =
      (ofText text).flatMap part ++ (each .code ';' ++ (ofText after).flatMap part) := by
  induction text using text_induction with
  | nil =>
    rw [List.nil_append, flatMap_code (each .code) (characters .code) rfl, ofText, List.flatMap_nil, List.nil_append]
  | code c rest code ih =>
    have stays := opening?_border code (by decide : ';' ≠ '*' ∧ ';' ≠ '-') after
    rw [List.cons_append, flatMap_code (each .code) (characters .code) stays, ih ((endsInCode_code code).mp ends),
      flatMap_code (each .code) (characters .code) code, List.append_assoc]
  | run c rest kind opens ih =>
    obtain ⟨closed, others⟩ := (endsInCode_run opens).mp ends
    obtain ⟨still, same⟩ := split_closed opens closed (head?_split semicolon_ne_quote kind rest after)
    have whole : rest ++ ';' :: after = (split kind rest).1 ++ ((split kind rest).2 ++ ';' :: after) := by
      rw [← List.append_assoc, split_append]
    rw [List.cons_append, whole, flatMap_run still, same, ih others, flatMap_run opens, List.append_assoc]

private theorem throughQuote_extend {quote : Char} {rest : List Char} (whole : (throughQuote quote rest).2 = [])
    (after : List Char) : rest <+: (throughQuote quote (rest ++ after)).1 := by
  fun_induction throughQuote quote rest with
  | case1 => exact List.nil_prefix
  | case2 c =>
    obtain ⟨more, begins⟩ := throughQuote_cons quote c after
    exact ⟨more, begins.symm⟩
  | case3 c d rest escaped ih =>
    change c :: d :: rest <+: (throughQuote quote (c :: d :: (rest ++ after))).1
    rw [throughQuote_step, if_pos escaped, List.prefix_cons_inj, List.prefix_cons_inj]
    exact ih whole
  | case4 rest plain ih =>
    change quote :: quote :: rest <+: (throughQuote quote (quote :: quote :: (rest ++ after))).1
    rw [throughQuote_step, if_neg plain, if_pos rfl, if_pos rfl, List.prefix_cons_inj, List.prefix_cons_inj]
    exact ih whole
  | case5 => cases whole
  | case6 c d rest plain different ih =>
    change c :: d :: rest <+: (throughQuote quote (c :: d :: (rest ++ after))).1
    rw [throughQuote_step, if_neg plain, if_neg different, List.prefix_cons_inj]
    exact ih whole

private theorem throughBlockEnd_extend (whole : (throughBlockEnd rest).2 = []) (after : List Char) :
    rest <+: (throughBlockEnd (rest ++ after)).1 := by
  fun_induction throughBlockEnd rest with
  | case1 => exact List.nil_prefix
  | case2 c =>
    obtain ⟨more, begins⟩ := throughBlockEnd_cons c after
    exact ⟨more, begins.symm⟩
  | case3 c d rest found =>
    obtain rfl : rest = [] := whole
    have ends : (throughBlockEnd (c :: d :: after)).1 = [c, d] := by rw [throughBlockEnd_step, if_pos found]
    exact ⟨[], ends.symm⟩
  | case4 c d rest plain ih =>
    change c :: d :: rest <+: (throughBlockEnd (c :: d :: (rest ++ after))).1
    rw [throughBlockEnd_step, if_neg plain, List.prefix_cons_inj]
    exact ih whole

private theorem throughNewline_extend (whole : (throughNewline rest).2 = []) (after : List Char) :
    rest <+: (throughNewline (rest ++ after)).1 := by
  fun_induction throughNewline rest with
  | case1 => exact List.nil_prefix
  | case2 rest =>
    obtain rfl : rest = [] := whole
    exact List.prefix_rfl
  | case3 c rest plain ih =>
    change c :: rest <+: (throughNewline (c :: (rest ++ after))).1
    rw [throughNewline, if_neg plain]
    exact (List.prefix_cons_inj c).mpr (ih whole)

/-- A run that the text ends in goes at least as far when the text goes on. -/
private theorem split_extend (opens : opening? c rest = some kind) (whole : (split kind rest).2 = [])
    (after : List Char) :
    rest <+: (split kind (rest ++ after)).1 := by
  rcases kind_cases opens with quoted | comment
  · rw [split_quote quoted] at whole ⊢
    exact throughQuote_extend whole after
  · rcases comment_cases comment opens with ⟨rfl, -⟩ | ⟨rfl, more, rfl, rfl⟩
    · exact throughNewline_extend whole after
    · exact (List.prefix_cons_inj '*').mpr (throughBlockEnd_extend whole after)

/-- One character behind a run that the text ends in is the end of that run, or stands behind it. -/
private theorem split_singleton (opens : opening? c rest = some kind) (whole : (split kind rest).2 = []) (last : Char) :
    split kind (rest ++ [last]) = (rest ++ [last], []) ∨ split kind (rest ++ [last]) = (rest, [last]) := by
  obtain ⟨more, begins⟩ := split_extend opens whole [last]
  have same := split_append kind (rest ++ [last])
  rw [← begins, List.append_assoc, List.append_cancel_left_eq] at same
  cases more with
  | nil =>
    rw [List.append_nil] at begins
    exact .inr (Prod.ext begins.symm same)
  | cons d more =>
    obtain ⟨rfl, none⟩ := List.cons.inj same
    obtain ⟨rfl, none⟩ := List.append_eq_nil_iff.mp none
    exact .inl (Prod.ext begins.symm none)

private theorem blank_ne {blank other : Char} (space : isBlank blank = true)
    (solid : isBlank other = false) : blank ≠ other := by
  rintro rfl
  rw [solid] at space
  cases space

theorem opening?_blank {blank : Char} (space : isBlank blank = true) (rest : List Char) : opening? blank rest = none :=
  opening?_eq_none.mpr ⟨⟨blank_ne space rfl, blank_ne space rfl, blank_ne space rfl, blank_ne space rfl⟩,
    fun found => blank_ne space rfl found.1, fun found => blank_ne space rfl found.1⟩

private theorem blank_ne_quote {blank : Char} (space : isBlank blank = true) (kind : SegmentKind) (quote : Char)
    (quoted : kind.quote? = some quote) : blank ≠ quote := by
  cases kind <;> cases quoted <;> exact blank_ne space rfl

/-- A blank behind a text changes nothing before it. -/
theorem flatMap_blank (characters : ∀ kind text, part ⟨kind, text⟩ = text.flatMap (each kind)) {blank : Char}
    (space : isBlank blank = true) (plain : ∀ kind, each kind blank = each .code blank) (text : List Char) :
    (ofText (text ++ [blank])).flatMap part = (ofText text).flatMap part ++ each .code blank := by
  have alone : (ofText [blank]).flatMap part = each .code blank := by
    rw [flatMap_code (each .code) (characters .code) (opening?_blank space []), ofText,
      List.flatMap_nil, List.append_nil]
  induction text using text_induction with
  | nil => rw [List.nil_append, alone, ofText, List.flatMap_nil, List.nil_append]
  | code c rest code ih =>
    have stays := opening?_border code ⟨blank_ne space rfl, blank_ne space rfl⟩ []
    rw [List.cons_append, flatMap_code (each .code) (characters .code) stays, ih,
      flatMap_code (each .code) (characters .code) code, List.append_assoc]
  | run c rest kind opens ih =>
    have still := opening?_append opens [blank]
    by_cases whole : (split kind rest).2 = []
    · have same := split_append kind rest
      rw [whole, List.append_nil] at same
      rw [List.cons_append, flatMap_run still, flatMap_run opens, whole, same]
      rcases split_singleton opens whole blank with goes | ends
      · rw [goes, characters, characters, ofText, List.flatMap_nil, List.append_nil,
          List.append_nil, ← List.cons_append, List.flatMap_append, List.flatMap_singleton, plain]
      · rw [ends, alone, ofText, List.flatMap_nil, List.append_nil]
    · obtain ⟨-, same⟩ :=
        split_closed opens (isClosed_of_more opens whole) (head?_split (blank_ne_quote space) kind rest [])
      have parts : rest ++ [blank] = (split kind rest).1 ++ ((split kind rest).2 ++ [blank]) := by
        rw [← List.append_assoc, split_append]
      rw [List.cons_append, flatMap_run still, parts, same, ih, flatMap_run opens, List.append_assoc]

end Cuts

end QueryFacts.Proofs.SegmentCuts
