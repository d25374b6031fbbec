import Mathlib.Data.List.Induction
import QueryFacts.Proofs.SegmentCuts
import QueryFacts.Statement

/-! The statements of a script are its pieces between the semicolons of its code. Each piece is
labelled alone as it is within the script, so that what is kept or dropped, and what a second split
does to a statement, shows in the labels of the script. -/

namespace QueryFacts
open Text

/-- A semicolon of code. -/
def endsStatement (label : Char × SegmentKind) : Bool := label.2 == .code && label.1 == ';'

/-- Neither a blank nor part of a comment. -/
def isContent (label : Char × SegmentKind) : Bool := !label.2.isComment && !isBlank label.1

end QueryFacts

namespace QueryFacts.Proofs.StatementSplit
open Text Layout SegmentCuts Segment SegmentKind

section Labels

variable {c : Char} {rest text : List Char} {kind : SegmentKind}

private theorem labels_eq (kind : SegmentKind) (text : List Char) :
    labels ⟨kind, text⟩ = text.flatMap fun c => [(c, kind)] :=
  List.map_eq_flatMap

theorem labelled_nil : labelled [] = [] := by
  rw [labelled, ofText, List.flatMap_nil]

theorem labelled_code (code : opening? c rest = none) : labelled (c :: rest) = (c, .code) :: labelled rest :=
  flatMap_code (fun c => [(c, SegmentKind.code)]) (labels_eq .code) code

theorem labelled_run (opens : opening? c rest = some kind) :
    labelled (c :: rest) = (c :: (split kind rest).1).map (·, kind) ++ labelled (split kind rest).2 :=
  flatMap_run opens

theorem labelled_append (ends : EndsInCode text) (after : List Char) :
    labelled (text ++ ';' :: after) = labelled text ++ (';', .code) :: labelled after :=
  flatMap_append labels_eq ends after

theorem map_labelled (text : List Char) : (labelled text).map Prod.fst = text := by
  conv_rhs => rw [← flatMap_text_ofText text]
  rw [labelled, List.map_flatMap]
  apply List.flatMap_congr
  intro segment _
  rw [labels, List.map_map]
  exact List.map_id segment.text

theorem mem_labelled {label : Char × SegmentKind} :
    label ∈ labelled text ↔ ∃ segment ∈ ofText text, segment.kind = label.2 ∧ label.1 ∈ segment.text := by
  obtain ⟨c, kind⟩ := label
  simp only [labelled, labels, List.mem_flatMap, List.mem_map, Prod.mk.injEq]
  constructor
  · rintro ⟨segment, member, d, inside, rfl, same⟩
    exact ⟨segment, member, same, inside⟩
  · rintro ⟨segment, member, same, inside⟩
    exact ⟨segment, member, c, inside, rfl, same⟩

theorem hasContent_eq (text : List Char) : hasContent text = (labelled text).any isContent := by
  have each (segment : Segment) :
      (!segment.kind.isComment && segment.text.any (!isBlank ·)) = segment.labels.any isContent := by
    rw [labels, List.any_map]
    cases comment : segment.kind.isComment <;> simp [Function.comp_def, isContent, comment]
  simp only [hasContent, labelled, List.any_flatMap, each]

private theorem filter_labels (keep : Char × SegmentKind → Bool) (kind : SegmentKind) (text : List Char) :
    (labels ⟨kind, text⟩).filter keep = text.flatMap fun c => [(c, kind)].filter keep := by
  rw [labels_eq, List.filter_flatMap]

private theorem filter_labelled (keep : Char × SegmentKind → Bool) (text : List Char) :
    (labelled text).filter keep = (ofText text).flatMap fun segment => segment.labels.filter keep := by
  rw [labelled, List.filter_flatMap]

private theorem filter_single {keep : Char × SegmentKind → Bool} {label : Char × SegmentKind}
    (silent : keep label = false) :
    [label].filter keep = [] := by
  rw [List.filter_cons, silent]
  rfl

/-- Labels that no blank has do not change when a text is trimmed. -/
theorem filter_trim {keep : Char × SegmentKind → Bool} (silent : ∀ c kind, isBlank c = true → keep (c, kind) = false)
    (text : List Char) : (labelled (trim text)).filter keep = (labelled text).filter keep := by
  have front (text : List Char) : (labelled (trimStart text)).filter keep = (labelled text).filter keep := by
    induction text with
    | nil => rfl
    | cons c rest ih =>
      rw [trimStart, List.dropWhile_cons]
      split
      next space =>
        rw [labelled_code (opening?_blank space rest), List.filter_cons, silent c .code space,
          if_neg Bool.false_ne_true, ← ih, trimStart]
      next => rfl
  have back (text : List Char) : (labelled (trimEnd text)).filter keep = (labelled text).filter keep := by
    induction text using List.reverseRecOn with
    | nil => rfl
    | append_singleton rest c ih =>
      rw [trimEnd, List.reverse_append, List.reverse_singleton, List.singleton_append, List.dropWhile_cons]
      split
      next space =>
        have kept (kind : SegmentKind) := filter_single (silent c kind space)
        have grows :=
          @flatMap_blank _ (fun segment => segment.labels.filter keep) (fun kind c => [(c, kind)].filter keep)
          (filter_labels keep) c space (fun kind => (kept kind).trans (kept .code).symm) rest
        rw [filter_labelled _ (rest ++ [c]), grows, kept, List.append_nil, ← filter_labelled, ← ih, trimEnd]
      next => rw [List.reverse_cons, List.reverse_reverse]
  rw [trim, back, front]

end Labels

section Pieces

variable {text : List Char}

/-- No semicolon of the text stands in code. -/
def Uncut (text : List Char) : Prop := ∀ label ∈ labelled text, endsStatement label = false

private theorem uncut_run {kind : SegmentKind} (other : kind ≠ .code) (text : List Char) :
    ∀ label ∈ text.map (·, kind), endsStatement label = false := by
  intro label member
  obtain ⟨c, -, rfl⟩ := List.mem_map.mp member
  rw [endsStatement, beq_eq_false_iff_ne.mpr other, Bool.false_and]

private theorem ne_code {c : Char} {rest : List Char} {kind : SegmentKind}
    (opens : opening? c rest = some kind) : kind ≠ .code := by
  rintro rfl
  rcases kind_cases opens with quoted | comment
  · cases quoted
  · cases comment

/-- A text is cut at the first semicolon of its code. -/
private theorem cut_cases (text : List Char) :
    Uncut text ∨ ∃ front rest, text = front ++ ';' :: rest ∧ EndsInCode front ∧ Uncut front := by
  induction text using text_induction with
  | nil =>
    left
    rw [Uncut, labelled_nil]
    exact fun _ member => absurd member List.not_mem_nil
  | code c rest code ih =>
    by_cases semicolon : c = ';'
    · subst semicolon
      refine .inr ⟨[], rest, rfl, ?_, ?_⟩
      · rw [EndsInCode, ofText]
        exact fun _ member => absurd member List.not_mem_nil
      · rw [Uncut, labelled_nil]
        exact fun _ member => absurd member List.not_mem_nil
    · have plain : endsStatement (c, .code) = false := beq_eq_false_iff_ne.mpr semicolon
      rcases ih with uncut | ⟨front, more, rfl, ends, uncut⟩
      · left
        rw [Uncut, labelled_code code]
        exact List.forall_mem_cons.mpr ⟨plain, uncut⟩
      · right
        have stays : opening? c front = none := by
          apply opening?_code code
          intro d head _
          rw [List.head?_append, head]
          rfl
        refine ⟨c :: front, more, rfl, (endsInCode_code stays).mpr ends, ?_⟩
        rw [Uncut, labelled_code stays]
        exact List.forall_mem_cons.mpr ⟨plain, uncut⟩
  | run c rest kind opens ih =>
    rcases ih with uncut | ⟨front, more, same, ends, uncut⟩
    · left
      rw [Uncut, labelled_run opens]
      exact List.forall_mem_append.mpr ⟨uncut_run (ne_code opens) _, uncut⟩
    · right
      have closed :=
        isClosed_of_more opens (same ▸ List.append_ne_nil_of_right_ne_nil front (List.cons_ne_nil ';' more))
      have other (quote : Char) (quoted : kind.quote? = some quote) : front.head? ≠ some quote := by
        intro head
        rw [split_quote quoted] at same
        apply throughQuote_next quote rest
        rw [same, List.head?_append, head]
        rfl
      obtain ⟨still, ended⟩ := split_closed opens closed other
      refine ⟨c :: ((split kind rest).1 ++ front), more, ?_, ?_, ?_⟩
      · rw [List.cons_append, List.append_assoc, ← same, split_append]
      · rw [endsInCode_run still, ended]
        exact ⟨closed, ends⟩
      · rw [Uncut, labelled_run still, ended]
        exact List.forall_mem_append.mpr ⟨uncut_run (ne_code opens) _, uncut⟩

/-- A script is one piece, or a piece and a semicolon before the others. -/
theorem script_induction {holds : List Char → Prop} (last : ∀ text, Uncut text → holds text)
    (piece : ∀ front rest, EndsInCode front → Uncut front → holds rest → holds (front ++ ';' :: rest))
    (text : List Char) :
    holds text := by
  induction size : text.length using Nat.strongRecOn generalizing text with
  | ind size ih =>
    rcases cut_cases text with uncut | ⟨front, rest, rfl, ends, uncut⟩
    · exact last text uncut
    · rw [List.length_append, List.length_cons] at size
      exact piece front rest ends uncut (ih rest.length (by omega) rest rfl)

/-- A piece is labelled alone as it is within the script. -/
theorem labelled_piece (text : List Char) :
    ∀ piece ∈ (labelled text).splitOnP endsStatement, labelled (piece.map Prod.fst) = piece ∧
        Uncut (piece.map Prod.fst) := by
  have single {text : List Char} (uncut : Uncut text) :
      ∀ piece ∈ (labelled text).splitOnP endsStatement, labelled (piece.map Prod.fst) = piece ∧
          Uncut (piece.map Prod.fst) := by
    rw [List.splitOnP_eq_singleton uncut, List.forall_mem_singleton, map_labelled]
    exact ⟨rfl, uncut⟩
  induction text using script_induction with
  | last text uncut => exact single uncut
  | piece front rest ends uncut ih =>
    rw [labelled_append ends, List.splitOnP_append_cons _ _ rfl, List.forall_mem_append]
    exact ⟨single uncut, ih⟩

private theorem splitAtMarks_eq (labels : List (Char × SegmentKind)) :
    splitAtMarks (labels.map fun label => (label.1, endsStatement label)) =
      (labels.splitOnP endsStatement).map (·.map Prod.fst) := by
  induction labels with
  | nil => rfl
  | cons label labels ih =>
    rw [List.map_cons, List.splitOnP_cons_eq_if_modifyHead]
    cases mark : endsStatement label with
    | true => rw [splitAtMarks, ih, if_pos rfl, List.map_cons, List.map_nil]
    | false =>
      obtain ⟨part, parts, begins⟩ := List.exists_cons_of_ne_nil (List.splitOnP_ne_nil endsStatement labels)
      rw [splitAtMarks, ih, if_neg Bool.false_ne_true, begins]
      rfl

private theorem markSemicolons_eq (text : List Char) :
    markSemicolons text = (labelled text).map fun label => (label.1, endsStatement label) := by
  rw [markSemicolons, labelled, List.map_flatMap]
  apply List.flatMap_congr
  intro segment _
  rw [labels, List.map_map]
  apply List.map_congr_left
  intro c _
  rw [Function.comp_apply, endsStatement, Bool.decide_and]
  rfl

/-- The statements of a script, from its labels. -/
theorem splitStatements_eq (text : List Char) : splitStatements text =
    (((labelled text).splitOnP endsStatement).filter (·.any isContent)).map fun piece => trim (piece.map Prod.fst) := by
  have content : ∀ piece ∈ (labelled text).splitOnP endsStatement,
      (hasContent ∘ List.map Prod.fst) piece = piece.any isContent := by
    intro piece member
    rw [Function.comp_apply, hasContent_eq, (labelled_piece text piece member).1]
  rw [splitStatements, markSemicolons_eq, splitAtMarks_eq, List.filter_map, List.map_map, List.filter_congr content]
  rfl

end Pieces

section Statements

variable {text : List Char}

private theorem trimEnd_prefix (text : List Char) : trimEnd text <+: text := by
  rw [trimEnd, ← List.reverse_suffix, List.reverse_reverse]
  exact List.dropWhile_suffix isBlank

private theorem trimStart_eq {text : List Char} (solid : ∀ c ∈ text.head?, isBlank c = false) :
    trimStart text = text := by
  cases text with
  | nil => rfl
  | cons c rest => rw [trimStart, List.dropWhile_cons, solid c rfl, if_neg Bool.false_ne_true]

private theorem head?_trimStart (text : List Char) : ∀ c ∈ (trimStart text).head?, isBlank c = false := by
  intro c first
  have solid := List.head?_dropWhile_not isBlank text
  rwa [show (text.dropWhile isBlank).head? = some c from first] at solid

theorem trim_trim (text : List Char) : trim (trim text) = trim text := by
  have front : trimStart (trim text) = trim text := by
    apply trimStart_eq
    intro c first
    obtain ⟨more, whole⟩ := trimEnd_prefix (trimStart text)
    apply head?_trimStart text
    rw [← whole, List.head?_append]
    exact congrArg (Option.or · more.head?) first
  have back : trimEnd (trim text) = trim text := by
    have again := trimStart_eq (head?_trimStart (trimStart text).reverse)
    rw [trim, trimEnd, trimEnd, List.reverse_reverse]
    exact congrArg List.reverse again
  conv_lhs => rw [trim, front, back]

private theorem endsStatement_blank (c : Char) (kind : SegmentKind) (space : isBlank c = true) :
    endsStatement (c, kind) = false := by
  have other : c ≠ ';' := by
    rintro rfl
    cases space
  rw [endsStatement, beq_eq_false_iff_ne.mpr other, Bool.and_false]

theorem uncut_trim (uncut : Uncut text) : Uncut (trim text) := by
  have same := filter_trim endsStatement_blank text
  rw [List.filter_eq_nil_iff.mpr fun label member =>
    ne_true_of_eq_false (uncut label member), List.filter_eq_nil_iff] at same
  exact fun label member => eq_false_of_ne_true (same label member)

theorem hasContent_trim (text : List Char) : hasContent (trim text) = hasContent text := by
  have silent (c : Char) (kind : SegmentKind) (space : isBlank c = true) : isContent (c, kind) = false := by
    rw [isContent, space, Bool.not_true, Bool.and_false]
  have same := congrArg (fun labels => labels.any fun _ => true) (filter_trim silent text)
  simpa only [List.any_filter, Bool.and_true, hasContent_eq] using same

/-- Text without a semicolon in its code that is neither blank nor only comments is one statement. -/
theorem splitStatements_uncut (uncut : Uncut text) (content : hasContent text = true) :
    splitStatements text = [trim text] := by
  rw [splitStatements_eq, List.splitOnP_eq_singleton uncut, List.filter_singleton, ← hasContent_eq, content, cond_true,
    List.map_singleton, map_labelled]

theorem splitStatements_append (ends : EndsInCode text) (after : List Char) :
    splitStatements (text ++ ';' :: after) = splitStatements text ++ splitStatements after := by
  rw [splitStatements_eq, labelled_append ends, List.splitOnP_append_cons _ _ rfl, List.filter_append, List.map_append,
    ← splitStatements_eq, ← splitStatements_eq]

/-- What is known of each statement of a script: it is trimmed, it says something, no semicolon of it
stands in code, and to split it again gives it back. -/
structure IsStatement (statement : List Char) : Prop where
  trimmed : trim statement = statement
  content : ∃ segment ∈ ofText statement, segment.kind.isComment = false ∧ ∃ c ∈ segment.text, isBlank c = false
  uncut : ∀ segment ∈ ofText statement, segment.kind = .code → ';' ∉ segment.text
  single : splitStatements statement = [statement]

theorem isStatement_trim (uncut : Uncut text) (content : hasContent text = true) : IsStatement (trim text) := by
  have trimmed := trim_trim text
  have still := uncut_trim uncut
  rw [← hasContent_trim] at content
  refine ⟨trimmed, ?_, ?_, ?_⟩
  · rw [hasContent, List.any_eq_true] at content
    obtain ⟨segment, member, solid⟩ := content
    rw [Bool.and_eq_true, Bool.not_eq_true', List.any_eq_true] at solid
    obtain ⟨noComment, c, inside, solid⟩ := solid
    rw [Bool.not_eq_true'] at solid
    exact ⟨segment, member, noComment, c, inside, solid⟩
  · intro segment member code inside
    cases still (';', .code) (mem_labelled.mpr ⟨segment, member, code, inside⟩)
  · rw [splitStatements_uncut still content, trimmed]

theorem isStatement_of_mem {statement : List Char} (member : statement ∈ splitStatements text) :
    IsStatement statement := by
  rw [splitStatements_eq] at member
  obtain ⟨piece, kept, rfl⟩ := List.mem_map.mp member
  obtain ⟨found, content⟩ := List.mem_filter.mp kept
  obtain ⟨same, uncut⟩ := labelled_piece text piece found
  apply isStatement_trim uncut
  rw [hasContent_eq, same, content]

/-- A script splits at every semicolon behind a text that ends in code, into statements that are
trimmed, say something and split no further; and these are, in order, the pieces between the
semicolons of its code that have more than blanks and comments. -/
theorem splitStatements_at_semicolons (text : List Char) :
    (EndsInCode text → ∀ after, splitStatements (text ++ ';' :: after) =
      splitStatements text ++ splitStatements after) ∧
      (∀ statement ∈ splitStatements text, IsStatement statement) ∧
      splitStatements text =
        (((labelled text).splitOnP endsStatement).filter (·.any isContent)).map fun piece =>
            trim (piece.map Prod.fst) :=
  ⟨fun ends after => splitStatements_append ends after, fun _ member => isStatement_of_mem member,
    splitStatements_eq text⟩

theorem splitStatements_after_literal :
    EndsInCode "SELECT 'a;b' -- c;\n".toList ∧
      splitStatements ("SELECT 'a;b' -- c;\n".toList ++ ';' :: "SELECT 1".toList) =
        splitStatements "SELECT 'a;b' -- c;\n".toList ++ splitStatements "SELECT 1".toList :=
  have ends : EndsInCode "SELECT 'a;b' -- c;\n".toList := by
    unfold EndsInCode
    decide +kernel
  ⟨ends, (splitStatements_at_semicolons "SELECT 'a;b' -- c;\n".toList).1 ends "SELECT 1".toList⟩

end Statements

end QueryFacts.Proofs.StatementSplit
