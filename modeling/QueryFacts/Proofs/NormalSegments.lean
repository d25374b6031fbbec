import QueryFacts.Proofs.Layout

/-! The segments of a normalized text. Its string literals and comments are those of the text,
its code is on one line and no identifier is in double quotes; so a normalized text is
its own normal form. -/

namespace QueryFacts
open Text

/-- Text that normalization must not touch: a string literal or a comment. -/
def Segment.isProtected (segment : Segment) : Bool := segment.kind == .stringLiteral || segment.kind.isComment

/-- No identifier in double quotes, and no code on more than one line. -/
def Segment.IsNormal (segment : Segment) : Prop :=
  segment.kind ≠ .doubleQuoted ∧ (segment.kind = .code → ∀ c ∈ segment.text, c ≠ '\n' ∧ c ≠ '\r')

end QueryFacts

namespace QueryFacts.Proofs.NormalSegments
open Text Layout NormalizedText Segment SegmentKind

section Survival

/-- `part` finds in a normalized text what `origin` finds in the text before. Neither finds anything in
the identifiers, since these are written anew and may come to touch each other. -/
structure Survives {α : Type} (origin part : Segment → List α) (each : Char → List α) : Prop where
  code : ∀ text, part ⟨.code, text⟩ = text.flatMap each
  broken : ∀ text, origin ⟨.code, text⟩ = text.flatMap fun c => each (if c = '\n' ∨ c = '\r' then ' ' else c)
  bare : ∀ c, isInert c = true → each c = []
  ticked : ∀ text, part ⟨.backticked, text⟩ = []
  named : ∀ kind text, kind = .doubleQuoted ∨ kind = .backticked → origin ⟨kind, text⟩ = []
  kept : ∀ segment, segment.isProtected = true → part segment = origin segment

variable {α : Type} {origin part : Segment → List α} {each : Char → List α}

private theorem flatMap_nil {β : Type} (parts : List β) : parts.flatMap (fun _ => ([] : List α)) = [] :=
  List.flatMap_eq_nil_iff.mpr fun _ _ => rfl

private theorem flatMap_ticked (survives : Survives origin part each) (text : List Char) :
    part ⟨.backticked, text⟩ = text.flatMap fun _ => [] := by
  rw [survives.ticked, flatMap_nil]

private theorem survives_code (survives : Survives origin part each) {c : Char} {rest : List Char}
    (code : opening? c rest = none)
    (ih : (ofText (normalize rest)).flatMap part = (ofText rest).flatMap origin) :
    (ofText (normalize (c :: rest))).flatMap part = (ofText (c :: rest)).flatMap origin := by
  have stays : opening? (if c = '\n' ∨ c = '\r' then ' ' else c) (normalize rest) = none := by
    split
    · rfl
    · exact opening?_normalize code
  rw [normalize_character code, flatMap_code each survives.code stays, ih, flatMap_code _ survives.broken code]

private theorem survives_literal (survives : Survives origin part each) {rest : List Char}
    (ih : (ofText (normalize (throughQuote singleQuote rest).2)).flatMap part =
      (ofText (throughQuote singleQuote rest).2).flatMap origin) :
    (ofText (normalize (singleQuote :: rest))).flatMap part = (ofText (singleQuote :: rest)).flatMap origin := by
  have quoted : SegmentKind.stringLiteral.quote? = some singleQuote := rfl
  have ends : (throughQuote singleQuote rest).2 = [] → normalize (throughQuote singleQuote rest).2 = [] := by
    intro none
    rw [none, normalize_nil]
  have other : (normalize (throughQuote singleQuote rest).2).head? ≠ some singleQuote := fun head =>
    throughQuote_next singleQuote rest (head_normalize head (.inr (.inr rfl)))
  have written : normalize (singleQuote :: rest) =
      singleQuote :: ((throughQuote singleQuote rest).1 ++ normalize (throughQuote singleQuote rest).2) :=
    normalize_quote quoted rest
  rw [written, flatMap_quote quoted, throughQuote_replace ends other, ih, flatMap_quote quoted,
    survives.kept _ rfl]

private theorem survives_quote (survives : Survives origin part each) {kind : SegmentKind} {quote : Char}
    (quoted : kind.quote? = some quote) {rest : List Char}
    (ih : (ofText (normalize (throughQuote quote rest).2)).flatMap part =
      (ofText (throughQuote quote rest).2).flatMap origin) :
    (ofText (normalize (quote :: rest))).flatMap part = (ofText (quote :: rest)).flatMap origin := by
  have ends : (throughQuote quote rest).2 = [] → normalize (throughQuote quote rest).2 = [] := by
    intro none
    rw [none, normalize_nil]
  cases kind with
  | stringLiteral =>
    cases quoted
    exact survives_literal survives ih
  | doubleQuoted =>
    have kept := flatMap_writeIdentifier survives.code (flatMap_ticked survives) survives.bare
      ((enclosed? doubleQuote (quote :: (throughQuote quote rest).1)).getD (quote :: (throughQuote quote rest).1))
      (QueryFacts.normalize (throughQuote quote rest).2)
    rw [flatMap_nil, List.nil_append, ih] at kept
    rw [flatMap_quote quoted, survives.named _ _ (.inl rfl), List.nil_append, normalize_quote quoted]
    exact kept
  | backticked =>
    have kept := flatMap_quote_append quoted (flatMap_ticked survives) ends
    rw [flatMap_nil, List.nil_append, ih] at kept
    rw [flatMap_quote quoted, survives.named _ _ (.inr rfl), List.nil_append, normalize_quote quoted]
    exact kept
  | code | blockComment | lineComment => cases quoted

private theorem survives_comment (survives : Survives origin part each) {kind : SegmentKind}
    {c : Char} {rest : List Char}
    (comment : kind.isComment = true) (opens : opening? c rest = some kind)
    (ih : (ofText (normalize (split kind rest).2)).flatMap part = (ofText (split kind rest).2).flatMap origin) :
    (ofText (normalize (c :: rest))).flatMap part = (ofText (c :: rest)).flatMap origin := by
  have ends : (split kind rest).2 = [] → normalize (split kind rest).2 = [] := by
    intro none
    rw [none, normalize_nil]
  have guarded (text : List Char) : isProtected ⟨kind, text⟩ = true := by
    cases kind <;> cases comment <;> rfl
  obtain ⟨still, same⟩ := comment_replace comment opens ends
  rw [normalize_comment comment opens, List.cons_append, flatMap_run still, same, ih, flatMap_run opens,
    survives.kept _ (guarded _)]

/-- What lies outside of the identifiers survives. -/
theorem flatMap_normalize (survives : Survives origin part each) (text : List Char) :
    (ofText (normalize text)).flatMap part = (ofText text).flatMap origin := by
  induction text using text_induction with
  | nil => rw [normalize_nil, ofText, List.flatMap_nil, List.flatMap_nil]
  | code c rest code ih => exact survives_code survives code ih
  | run c rest kind opens ih =>
    rcases kind_cases opens with quoted | comment
    · exact survives_quote survives quoted (split_quote quoted rest ▸ ih)
    · exact survives_comment survives comment opens ih

end Survival

private theorem filter_protected (segments : List Segment) :
    segments.filter isProtected = segments.flatMap fun segment => (Option.guard isProtected segment).toList := by
  rw [← List.filterMap_eq_filter, List.filterMap_eq_flatMap_toList]

private theorem filter_normalize (text : List Char) :
    (ofText (normalize text)).filter isProtected = (ofText text).filter isProtected := by
  have survives : Survives (fun segment => (Option.guard isProtected segment).toList)
      (fun segment => (Option.guard isProtected segment).toList) fun _ => [] := {
    code := fun text => (flatMap_nil text).symm
    broken := fun text => (flatMap_nil text).symm
    bare := fun _ _ => rfl
    ticked := fun _ => rfl
    named := by rintro _ _ (rfl | rfl) <;> rfl
    kept := fun _ _ => rfl }
  rw [filter_protected, filter_protected, flatMap_normalize survives]

/-- The characters of a segment that a normalized text has no place for. -/
def unsettled (segment : Segment) : List Char :=
  match segment.kind with
  | .code => segment.text.flatMap fun c => if c = '\n' ∨ c = '\r' then [c] else []
  | .doubleQuoted => segment.text
  | _ => []

private theorem isNormal_of_unsettled {segment : Segment} (settled : unsettled segment = [])
    (written : segment.text ≠ []) :
    segment.IsNormal := by
  obtain ⟨kind, text⟩ := segment
  cases kind with
  | code =>
    refine ⟨SegmentKind.noConfusion, fun _ c member => ?_⟩
    have none := List.flatMap_eq_nil_iff.mp settled c member
    split at none
    · cases none
    · exact not_or.mp ‹_›
  | doubleQuoted => exact absurd settled written
  | stringLiteral | backticked | blockComment | lineComment => exact ⟨SegmentKind.noConfusion, SegmentKind.noConfusion⟩

theorem isNormal_normalize (text : List Char) : ∀ segment ∈ ofText (normalize text), segment.IsNormal := by
  have survives : Survives (fun _ => []) unsettled fun c => if c = '\n' ∨ c = '\r' then [c] else [] := {
    code := fun _ => rfl
    broken := by
      intro text
      apply (flatMap_nil text).symm.trans
      apply List.flatMap_congr
      intro c _
      apply Eq.symm
      apply if_neg
      split
      · decide
      · assumption
    bare := by
      intro c inert
      apply if_neg
      rintro (rfl | rfl) <;> exact absurd inert (by decide)
    ticked := fun _ => rfl
    named := fun _ _ _ => rfl
    kept := by
      rintro ⟨kind, text⟩ guarded
      cases kind <;> first | rfl | cases guarded }
  have settled := flatMap_normalize survives text
  rw [flatMap_nil] at settled
  exact fun segment member =>
    isNormal_of_unsettled (List.flatMap_eq_nil_iff.mp settled segment member) (text_ne_nil _ segment member)

theorem normalize_of_isNormal {segment : Segment} (normal : segment.IsNormal) : segment.normalize = segment.text := by
  obtain ⟨kind, text⟩ := segment
  cases kind with
  | code =>
    have kept : ∀ c ∈ text, (if c = '\n' ∨ c = '\r' then ' ' else c) = id c := fun c member =>
      if_neg (not_or.mpr (normal.2 rfl c member))
    exact (List.map_congr_left kept).trans (List.map_id text)
  | doubleQuoted => exact absurd rfl normal.1
  | stringLiteral | backticked | blockComment | lineComment => rfl

/-- A text whose segments are all normal is its own normal form. -/
theorem normalize_of_normal {text : List Char} (normal : ∀ segment ∈ ofText text, segment.IsNormal) :
    normalize text = text := by
  conv_rhs => rw [← flatMap_text_ofText text]
  exact List.flatMap_congr fun segment member => normalize_of_isNormal (normal segment member)

/-- Normalization keeps every string literal and comment, leaves nothing to normalize, and so does
nothing the second time. -/
theorem segments_normalize (text : List Char) :
    (ofText (normalize text)).filter isProtected = (ofText text).filter isProtected ∧
      (∀ segment ∈ ofText (normalize text), segment.IsNormal) ∧ normalize (normalize text) = normalize text :=
  ⟨filter_normalize text, isNormal_normalize text, normalize_of_normal (isNormal_normalize text)⟩

end QueryFacts.Proofs.NormalSegments
