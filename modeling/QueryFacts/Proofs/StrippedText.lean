import QueryFacts.Proofs.Segmentation

/-! What is left of a text without its comments. Its parts are the characters of its code, its quoted
runs and its comments, and it keeps all of them but the gaps, which are the comments and the blanks of
its code: where gaps stood between two other parts there is one space. -/

namespace QueryFacts
open Text

namespace Segment

/-- Each character of code on its own, and every other segment whole. -/
def parts (segment : Segment) : List Segment :=
  match segment.kind with
  | .code => segment.text.map fun c => ⟨.code, [c]⟩
  | _ => [segment]

def isGap (segment : Segment) : Bool :=
  match segment.kind with
  | .code => segment.text.all isBlank
  | .blockComment | .lineComment => true
  | _ => false

def space : Segment := ⟨.code, [' ']⟩

end Segment

def textParts (text : List Char) : List Segment := (Segment.ofText text).flatMap Segment.parts

/-- The parts that are no gaps, each with whether gaps stand between it and the one before. `started` says
that there is one before the first, and `gap` that a gap is. -/
def separated (started gap : Bool) : List Segment → List (Segment × Bool)
  | [] => []
  | part :: rest =>
    if part.isGap then separated started true rest else (part, started && gap) :: separated true false rest

/-- Writes parts with a space in front of those that are marked. -/
def spaced (parts : List (Segment × Bool)) : List Segment :=
  parts.flatMap fun (part, gap) => if gap then [Segment.space, part] else [part]

/-- The result is the text without its comments, with one space for each run of gaps within it. -/
structure Stripped (text result : List Char) : Prop where
  comments : comments result = []
  /-- The quoted runs are the same. -/
  quoted : (Segment.ofText result).filter (·.kind.quote?.isSome) = (Segment.ofText text).filter (·.kind.quote?.isSome)
  /-- So is what stands between them, and what was apart is apart. -/
  kept : separated false false (textParts result) = separated false false (textParts text)
  gaps : ∀ part ∈ textParts result, part.isGap = true → part = Segment.space
  apart : (textParts result).IsChain fun first second => ¬(first.isGap = true ∧ second.isGap = true)
  first : ∀ part ∈ (textParts result).head?, part.isGap = false
  last : ∀ part ∈ (textParts result).getLast?, part.isGap = false
  again : stripComments result = result

end QueryFacts

namespace QueryFacts.Proofs.StrippedText
open Text Layout SegmentCuts Segmentation Segment SegmentKind

section Separated

variable (started gap : Bool) (part : Segment) (rest : List Segment)

private theorem separated_gap (isGap : part.isGap = true) :
    separated started gap (part :: rest) = separated started true rest := if_pos isGap

private theorem separated_solid (solid : part.isGap = false) :
    separated started gap (part :: rest) = (part, started && gap) :: separated true false rest :=
  if_neg (by rw [solid]; exact Bool.false_ne_true)

private theorem spaced_cons (rest : List (Segment × Bool)) :
    spaced ((part, gap) :: rest) = (if gap then [space] else []) ++ part :: spaced rest := by
  cases gap <;> rfl

variable (parts : List Segment)

theorem solid_of_mem_separated : ∀ entry ∈ separated started gap parts, entry.1.isGap = false := by
  induction parts generalizing started gap with
  | nil => exact fun entry member => absurd member List.not_mem_nil
  | cons part rest ih =>
    by_cases isGap : part.isGap = true
    · rw [separated_gap _ _ _ _ isGap]
      exact ih started true
    · have solid := Bool.eq_false_iff.mpr isGap
      rw [separated_solid _ _ _ _ solid]
      exact List.forall_mem_cons.mpr ⟨solid, ih true false⟩

/-- What is written with spaces for its gaps is separated as it was. -/
theorem separated_spaced :
    separated started false (spaced (separated started gap parts)) = separated started gap parts := by
  induction parts generalizing started gap with
  | nil => rfl
  | cons part rest ih =>
    by_cases isGap : part.isGap = true
    · rw [separated_gap _ _ _ _ isGap, ih]
    · have solid := Bool.eq_false_iff.mpr isGap
      rw [separated_solid _ _ _ _ solid, spaced_cons]
      cases before : started && gap with
      | false =>
        rw [if_neg Bool.false_ne_true, List.nil_append, separated_solid _ _ _ _ solid, ih, Bool.and_false]
      | true =>
        rw [if_pos rfl, List.singleton_append, separated_gap _ _ _ _ rfl, separated_solid _ _ _ _ solid, ih,
          ((Bool.and_eq_true _ _).mp before).1, Bool.and_true]

end Separated

section Spaced

variable {parts : List (Segment × Bool)}

/-- The only gaps are the spaces that were written. -/
theorem gap_of_mem_spaced (solid : ∀ entry ∈ parts, entry.1.isGap = false) :
    ∀ part ∈ spaced parts, part.isGap = true → part = space := by
  intro part member isGap
  obtain ⟨⟨other, gap⟩, inside, written⟩ := List.mem_flatMap.mp member
  have apart : part ≠ other := by
    rintro rfl
    rw [solid _ inside] at isGap
    cases isGap
  cases gap with
  | false => exact absurd (List.mem_singleton.mp written) apart
  | true =>
    rcases List.mem_cons.mp written with same | last
    · exact same
    · exact absurd (List.mem_singleton.mp last) apart

theorem apart_spaced (solid : ∀ entry ∈ parts, entry.1.isGap = false) :
    (spaced parts).IsChain fun first second => ¬(first.isGap = true ∧ second.isGap = true) := by
  induction parts with
  | nil => exact List.IsChain.nil
  | cons entry rest ih =>
    obtain ⟨part, gap⟩ := entry
    obtain ⟨here, others⟩ := List.forall_mem_cons.mp solid
    have behind : (part :: spaced rest).IsChain fun first second => ¬(first.isGap = true ∧ second.isGap = true) :=
      List.isChain_cons.mpr ⟨fun second _ found => absurd (here.symm.trans found.1) Bool.false_ne_true, ih others⟩
    rw [spaced_cons]
    cases gap with
    | false => exact behind
    | true =>
      exact List.isChain_cons_cons.mpr ⟨fun found => absurd (here.symm.trans found.2) Bool.false_ne_true, behind⟩

theorem last_spaced (solid : ∀ entry ∈ parts, entry.1.isGap = false) :
    ∀ part ∈ (spaced parts).getLast?, part.isGap = false := by
  induction parts with
  | nil => exact fun part none => by cases none
  | cons entry rest ih =>
    obtain ⟨part, gap⟩ := entry
    obtain ⟨here, others⟩ := List.forall_mem_cons.mp solid
    intro last found
    rw [spaced_cons, List.getLast?_append, List.getLast?_cons] at found
    obtain rfl := Option.some.inj found
    cases later : (spaced rest).getLast? with
    | none => exact here
    | some other => exact ih others other later

theorem first_spaced (gap : Bool) (segments : List Segment) :
    ∀ part ∈ (spaced (separated false gap segments)).head?, part.isGap = false := by
  induction segments generalizing gap with
  | nil => exact fun part none => by cases none
  | cons segment rest ih =>
    by_cases isGap : segment.isGap = true
    · rw [separated_gap _ _ _ _ isGap]
      exact ih true
    · have solid := Bool.eq_false_iff.mpr isGap
      rw [separated_solid _ _ _ _ solid, spaced_cons]
      intro part found
      obtain rfl := Option.some.inj found
      exact solid

end Spaced

section Parts

variable {c quote : Char} {rest : List Char} {kind : SegmentKind}

theorem textParts_nil : textParts [] = [] := by rw [textParts, ofText, List.flatMap_nil]

theorem textParts_code (code : opening? c rest = none) : textParts (c :: rest) = ⟨.code, [c]⟩ :: textParts rest := by
  have each (text : List Char) : parts ⟨.code, text⟩ = text.flatMap fun c => [⟨.code, [c]⟩] := List.map_eq_flatMap
  exact flatMap_code _ each code

theorem textParts_run (opens : opening? c rest = some kind) :
    textParts (c :: rest) = ⟨kind, c :: (split kind rest).1⟩ :: textParts (split kind rest).2 := by
  rw [textParts, flatMap_run opens]
  cases kind with
  | code => exact absurd opens opening?_ne_code
  | stringLiteral | doubleQuoted | backticked | blockComment | lineComment => rfl

theorem flatMap_text_textParts (text : List Char) : (textParts text).flatMap (·.text) = text := by
  induction text using text_induction with
  | nil => rw [textParts_nil, List.flatMap_nil]
  | code c rest code ih => rw [textParts_code code, List.flatMap_cons, ih, List.singleton_append]
  | run c rest kind opens ih => rw [textParts_run opens, List.flatMap_cons, ih, List.cons_append, split_append]

private theorem filter_parts {holds : SegmentKind → Bool} (code : holds .code = false) (segment : Segment) :
    segment.parts.filter (fun part => holds part.kind) = [segment].filter fun segment => holds segment.kind := by
  obtain ⟨kind, text⟩ := segment
  cases kind with
  | code => simp [parts, code]
  | stringLiteral | doubleQuoted | backticked | blockComment | lineComment => rfl

/-- Other segments than code are parts. -/
theorem filter_textParts (holds : SegmentKind → Bool) (code : holds .code = false) (text : List Char) :
    (textParts text).filter (fun part => holds part.kind) = (ofText text).filter fun segment => holds segment.kind := by
  rw [textParts]
  induction ofText text with
  | nil => rfl
  | cons segment segments ih =>
    rw [List.flatMap_cons, List.filter_append, ih, filter_parts code, ← List.filter_append, List.singleton_append]

end Parts

section Strip

private theorem textParts_space (text : List Char) : textParts (' ' :: text) = space :: textParts text :=
  textParts_code rfl

private theorem textParts_gap (gap : Bool) (text : List Char) :
    textParts ((if gap then [' '] else []) ++ text) = (if gap then [space] else []) ++ textParts text := by
  cases gap with
  | false => rfl
  | true => exact textParts_space text

/-- The parts of what is left of a text are its parts, with a space for the gaps between two of them. -/
theorem textParts_joinLayout (text : List Char) (started gap : Bool) :
    textParts (joinLayout started gap (layout text)) = spaced (separated started gap (textParts text)) := by
  induction text using text_induction generalizing started gap with
  | nil => rw [layout_nil, joinLayout_nil, textParts_nil]; rfl
  | code c rest code ih =>
    rw [layout_code code, textParts_code code]
    cases blank : isBlank c with
    | true =>
      have isGap : isGap ⟨.code, [c]⟩ = true := by rw [Segment.isGap, List.all_cons, blank]; rfl
      rw [if_pos rfl, joinLayout_none, ih, separated_gap _ _ _ _ isGap]
    | false =>
      have solid : isGap ⟨.code, [c]⟩ = false := by rw [Segment.isGap, List.all_cons, blank]; rfl
      rw [if_neg Bool.false_ne_true, joinLayout_some, textParts_gap,
        textParts_code (opening?_joinLayout false code), ih, separated_solid _ _ _ _ solid, spaced_cons]
  | run c rest kind opens ih =>
    rw [textParts_run opens]
    rcases kind_cases opens with quoted | comment
    · have solid : isGap ⟨kind, c :: (split kind rest).1⟩ = false := by cases kind <;> cases quoted <;> rfl
      rw [separated_solid _ _ _ _ solid, spaced_cons, ← ih, split_quote quoted, layout_quote quoted,
        joinLayout_run _ _ (List.cons_ne_nil _ _), textParts_gap, List.cons_append,
        textParts_run (opening?_quote quoted _), split_quote quoted,
          throughQuote_replace joinLayout_eq_nil (head_joinLayout_quote quoted rest)]
    · have isGap : isGap ⟨kind, c :: (split kind rest).1⟩ = true := by cases kind <;> cases comment <;> rfl
      rw [layout_comment comment opens, joinLayout_none, ih, separated_gap _ _ _ _ isGap]

theorem textParts_stripComments (text : List Char) :
    textParts (stripComments text) = spaced (separated false false (textParts text)) := by
  rw [stripComments_eq, textParts_joinLayout]

theorem separated_stripComments (text : List Char) :
    separated false false (textParts (stripComments text)) = separated false false (textParts text) := by
  rw [textParts_stripComments, separated_spaced]

theorem stripComments_stripComments (text : List Char) : stripComments (stripComments text) = stripComments text := by
  rw [← flatMap_text_textParts (stripComments (stripComments text)), textParts_stripComments, separated_stripComments,
    ← textParts_stripComments, flatMap_text_textParts]

/-- What a gap does not have keeps its place when gaps are dropped. -/
private theorem filter_spaced (holds : SegmentKind → Bool)
    (solid : ∀ part : Segment, part.isGap = true → holds part.kind = false) (started gap : Bool)
    (parts : List Segment) :
    (spaced (separated started gap parts)).filter (fun part => holds part.kind) = parts.filter fun part =>
        holds part.kind := by
  induction parts generalizing started gap with
  | nil => rfl
  | cons part rest ih =>
    by_cases isGap : part.isGap = true
    · rw [separated_gap _ _ _ _ isGap, ih, List.filter_cons, solid part isGap, if_neg Bool.false_ne_true]
    · have space : List.filter (fun part => holds part.kind) (if started && gap then [space] else []) = [] := by
        split
        · rw [List.filter_singleton, solid space rfl]; rfl
        · rfl
      rw [separated_solid _ _ _ _ (Bool.eq_false_iff.mpr isGap), spaced_cons, List.filter_append,
        space, List.nil_append, List.filter_cons, List.filter_cons, ih]

private theorem isGap_of_comment {part : Segment} (comment : part.kind.isComment = true) : part.isGap = true := by
  obtain ⟨kind, text⟩ := part
  cases kind <;> cases comment <;> rfl

theorem comments_stripComments (text : List Char) : comments (stripComments text) = [] := by
  rw [comments, ← filter_textParts SegmentKind.isComment rfl, List.map_eq_nil_iff, List.filter_eq_nil_iff,
    textParts_stripComments]
  intro part member comment
  obtain rfl := gap_of_mem_spaced (solid_of_mem_separated _ _ _) part member (isGap_of_comment comment)
  cases comment

theorem quoted_stripComments (text : List Char) :
    (ofText (stripComments text)).filter (·.kind.quote?.isSome) = (ofText text).filter (·.kind.quote?.isSome) := by
  have solid (part : Segment) (isGap : part.isGap = true) : part.kind.quote?.isSome = false := by
    obtain ⟨kind, text⟩ := part
    cases kind <;> first | rfl | cases isGap
  have found := filter_textParts (fun kind => kind.quote?.isSome) rfl
  rw [← found, ← found, textParts_stripComments]
  exact filter_spaced (fun kind => kind.quote?.isSome) solid false false (textParts text)

end Strip

/-- Taking the comments out of a text takes out nothing else. -/
theorem stripped_stripComments (text : List Char) : Stripped text (stripComments text) where
  comments := comments_stripComments text
  quoted := quoted_stripComments text
  kept := separated_stripComments text
  gaps := textParts_stripComments text ▸ gap_of_mem_spaced (solid_of_mem_separated _ _ _)
  apart := textParts_stripComments text ▸ apart_spaced (solid_of_mem_separated _ _ _)
  first := textParts_stripComments text ▸ first_spaced false (textParts text)
  last := textParts_stripComments text ▸ last_spaced (solid_of_mem_separated _ _ _)
  again := stripComments_stripComments text

end QueryFacts.Proofs.StrippedText
