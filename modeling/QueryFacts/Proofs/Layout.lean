import Mathlib.Data.List.Basic
import QueryFacts.Comment
import QueryFacts.Proofs.NormalizedText

/-! The layout of a text: its characters, and a mark for each gap in it, which is a blank of
code or a comment. A text without its comments is its layout with one space for each run of
gaps, and it is all one whether the comments go before or after the text is normalized. -/

namespace QueryFacts
open Text

/-- The characters of a segment, with `none` for a gap. -/
def Segment.layout (segment : Segment) : List (Option Char) :=
  match segment.kind with
  | .code => segment.text.map fun c => if isBlank c then none else some c
  | .blockComment | .lineComment => [none]
  | _ => segment.text.map some

def layout (text : List Char) : List (Option Char) := (Segment.ofText text).flatMap Segment.layout

/-- The characters of a layout with one space for the gaps between two of them. -/
def joinLayout (started gap : Bool) (layout : List (Option Char)) : List Char :=
  joinKept started gap (layout.map (·.map fun c => [c]))

/-- The quotes around a run of the kind. -/
def SegmentKind.quote? : SegmentKind → Option Char
  | .stringLiteral => some singleQuote
  | .doubleQuoted => some doubleQuote
  | .backticked => some backtick
  | _ => none

end QueryFacts

namespace QueryFacts.Proofs.Layout
open Text NormalizedText

section Join

variable (started gap : Bool)

@[simp] theorem joinLayout_nil : joinLayout started gap [] = [] := rfl

@[simp] theorem joinLayout_none (rest : List (Option Char)) :
    joinLayout started gap (none :: rest) = joinLayout started true rest := rfl

theorem joinLayout_some (c : Char) (rest : List (Option Char)) :
    joinLayout started gap (some c :: rest) =
      (if started && gap then [' '] else []) ++ c :: joinLayout true false rest := by
  change (if _ then ' ' :: [c] else [c]) ++ _ = _
  split <;> rfl

/-- Characters without a gap between them stay together. -/
theorem joinLayout_run {run : List Char} (some : run ≠ []) (rest : List (Option Char)) :
    joinLayout started gap (run.map Option.some ++ rest) =
      (if started && gap then [' '] else []) ++ (run ++ joinLayout true false rest) := by
  induction run generalizing started gap with
  | nil => exact absurd rfl some
  | cons c run ih =>
    rw [List.map_cons, List.cons_append, joinLayout_some, List.cons_append]
    cases run with
    | nil => rfl
    | cons d run =>
      rw [ih true false (List.cons_ne_nil d run), Bool.and_false, if_neg Bool.false_ne_true, List.nil_append]

private theorem joinKept_congr {rest other : List (Option (List Char))}
    (same : ∀ started gap, joinKept started gap rest = joinKept started gap other) (front : List (Option (List Char))) :
    joinKept started gap (front ++ rest) = joinKept started gap (front ++ other) := by
  induction front generalizing started gap with
  | nil => exact same started gap
  | cons first front ih =>
    cases first with
    | none => exact ih started true
    | some text => exact congrArg ((if started && gap then ' ' :: text else text) ++ ·) (ih true false)

private theorem joinKept_segments {segments : List Segment} (written : ∀ segment ∈ segments, segment.text ≠ []) :
    joinKept started gap (segments.flatMap Segment.kept) =
        joinLayout started gap (segments.flatMap Segment.layout) := by
  induction segments generalizing started gap with
  | nil => rfl
  | cons segment segments ih =>
    obtain ⟨first, others⟩ := List.forall_mem_cons.mp written
    have later (started gap : Bool) := ih started gap others
    rw [List.flatMap_cons, List.flatMap_cons]
    obtain ⟨kind, text⟩ := segment
    cases kind with
    | code =>
      have same : Segment.kept ⟨.code, text⟩ = (Segment.layout ⟨.code, text⟩).map (·.map fun c => [c]) := by
        simp only [Segment.kept, Segment.layout, List.map_map]
        apply List.map_congr_left
        intro c _
        by_cases blank : isBlank c <;> simp [blank]
      rw [same, joinKept_congr started gap later, joinLayout, List.map_append]
    | blockComment | lineComment => exact later started true
    | stringLiteral | doubleQuoted | backticked =>
      refine Eq.trans ?_ (joinLayout_run started gap first _).symm
      change (if _ then ' ' :: text else text) ++ joinKept true false (segments.flatMap Segment.kept) = _
      rw [later]
      split <;> rfl

end Join

theorem text_ne_nil (text : List Char) : ∀ segment ∈ Segment.ofText text, segment.text ≠ [] := by
  fun_induction Segment.ofText text with
  | case1 => exact fun segment member => absurd member List.not_mem_nil
  | case2 c rest kind ih => exact List.forall_mem_cons.mpr ⟨List.cons_ne_nil _ _, ih⟩

theorem joinKept_ofText (started gap : Bool) (text : List Char) :
    joinKept started gap ((Segment.ofText text).flatMap Segment.kept) = joinLayout started gap (layout text) :=
  joinKept_segments started gap (text_ne_nil text)

/-- A text without its comments, from its layout. -/
theorem stripComments_eq (text : List Char) : stripComments text = joinLayout false false (layout text) :=
  joinKept_ofText false false text

section Text

/-- A text is empty, or it goes on after a character of code or after a run. -/
theorem text_induction {holds : List Char → Prop} (nil : holds [])
    (code : ∀ c rest, SegmentKind.opening? c rest = none → holds rest → holds (c :: rest))
    (run : ∀ c rest kind, SegmentKind.opening? c rest = some kind →
      holds (Segment.split kind rest).2 → holds (c :: rest))
    (text : List Char) : holds text := by
  induction size : text.length using Nat.strongRecOn generalizing text with
  | ind size ih =>
    cases text with
    | nil => exact nil
    | cons c rest =>
      rw [List.length_cons] at size
      cases opens : SegmentKind.opening? c rest with
      | none => exact code c rest opens (ih rest.length (by omega) rest rfl)
      | some kind =>
        have whole := congrArg List.length (Segment.split_append kind rest)
        rw [List.length_append] at whole
        exact run c rest kind opens (ih _ (by omega) _ rfl)

variable {c : Char} {rest : List Char}

variable {α : Type} {part : Segment → List α} {kind : SegmentKind}

/-- What is made of code character by character does not depend on where its segment ends. -/
theorem flatMap_code (each : Char → List α) (characters : ∀ text, part ⟨.code, text⟩ = text.flatMap each)
    (code : SegmentKind.opening? c rest = none) :
    (Segment.ofText (c :: rest)).flatMap part = each c ++ (Segment.ofText rest).flatMap part := by
  rw [Segment.ofText, code, List.flatMap_cons, Option.getD_none, characters, List.flatMap_cons, List.append_assoc]
  cases rest with
  | nil => rfl
  | cons d more =>
    cases opens : SegmentKind.opening? d more with
    | some kind => simp [Segment.split, Segment.throughCode, opens]
    | none =>
      have inside :
          Segment.split .code (d :: more) = (d :: (Segment.split .code more).1, (Segment.split .code more).2) := by
        rw [Segment.split, Segment.throughCode, opens]
        rfl
      rw [inside, Segment.ofText, opens, List.flatMap_cons, List.flatMap_cons, Option.getD_none,
        characters, List.flatMap_cons, List.append_assoc]

theorem flatMap_run (opens : SegmentKind.opening? c rest = some kind) :
    (Segment.ofText (c :: rest)).flatMap part =
      part ⟨kind, c :: (Segment.split kind rest).1⟩ ++ (Segment.ofText (Segment.split kind rest).2).flatMap part := by
  rw [Segment.ofText, opens, Option.getD_some, List.flatMap_cons]

theorem layout_nil : layout [] = [] := by
  rw [layout, Segment.ofText]
  rfl

theorem layout_code (code : SegmentKind.opening? c rest = none) :
    layout (c :: rest) = (if isBlank c then none else some c) :: layout rest :=
  flatMap_code (fun c => [if isBlank c then none else some c]) (fun _ => List.map_eq_flatMap) code

end Text

section Runs
open Segment

variable {quote : Char} {text after : List Char}

theorem throughQuote_step (quote c d : Char) (rest : List Char) : throughQuote quote (c :: d :: rest) =
    if c = '\\' ∧ quote ≠ backtick then (c :: d :: (throughQuote quote rest).1, (throughQuote quote rest).2)
    else if c = quote then
      if d = quote then (c :: d :: (throughQuote quote rest).1, (throughQuote quote rest).2) else ([c], d :: rest)
    else (c :: (throughQuote quote (d :: rest)).1, (throughQuote quote (d :: rest)).2) := by
  rw [throughQuote]
  rfl

theorem throughQuote_cons (quote c : Char) (rest : List Char) :
    ∃ more, (throughQuote quote (c :: rest)).1 = c :: more := by
  cases rest with
  | nil => exact ⟨[], rfl⟩
  | cons d rest =>
    rw [throughQuote_step]
    repeat' split
    all_goals exact ⟨_, rfl⟩

/-- A quoted run does not end in front of its quote. -/
theorem throughQuote_next (quote : Char) (text : List Char) : (throughQuote quote text).2.head? ≠ some quote := by
  fun_induction throughQuote quote text with
  | case1 => simp
  | case2 => simp
  | case3 c d rest escaped ih => exact ih
  | case4 rest plain ih => exact ih
  | case5 d rest plain different => simpa using plain
  | case6 c d rest plain different ih => exact ih

/-- A quoted run ends where it did whatever comes after it, as long as that is not its quote. -/
theorem throughQuote_replace (ends : (throughQuote quote text).2 = [] → after = []) (other : after.head? ≠ some quote) :
    throughQuote quote ((throughQuote quote text).1 ++ after) = ((throughQuote quote text).1, after) := by
  fun_induction throughQuote quote text with
  | case1 => rw [ends rfl]; rfl
  | case2 => rw [ends rfl]; rfl
  | case3 c d rest escaped ih =>
    change throughQuote quote (c :: d :: ((throughQuote quote rest).1 ++ after)) =
      (c :: d :: (throughQuote quote rest).1, after)
    rw [throughQuote_step, if_pos escaped, ih ends]
  | case4 rest plain ih =>
    change throughQuote quote (quote :: quote :: ((throughQuote quote rest).1 ++ after)) =
      (quote :: quote :: (throughQuote quote rest).1, after)
    rw [throughQuote_step, if_neg plain, if_pos rfl, if_pos rfl, ih ends]
  | case5 d rest different plain =>
    cases after with
    | nil => rfl
    | cons e after =>
      have apart : e ≠ quote := fun same => other (congrArg some same)
      change throughQuote quote (quote :: e :: after) = _
      rw [throughQuote_step, if_neg plain, if_pos rfl, if_neg apart]
  | case6 c d rest plain different ih =>
    obtain ⟨more, begins⟩ := throughQuote_cons quote d rest
    change throughQuote quote (c :: ((throughQuote quote (d :: rest)).1 ++ after)) =
      (c :: (throughQuote quote (d :: rest)).1, after)
    have later := ih ends
    rw [begins] at later ⊢
    rw [List.cons_append, throughQuote_step, if_neg plain, if_neg different, ← List.cons_append, later]

/-- A quoted run that ends goes on with a run of the same quotes directly behind it. -/
theorem throughQuote_merge (ends : (throughQuote quote text).2 ≠ []) (more : List Char) :
    throughQuote quote ((throughQuote quote text).1 ++ quote :: more) =
      ((throughQuote quote text).1 ++ quote :: (throughQuote quote more).1, (throughQuote quote more).2) := by
  fun_induction throughQuote quote text with
  | case1 => exact absurd rfl ends
  | case2 => exact absurd rfl ends
  | case3 c d rest escaped ih =>
    change throughQuote quote (c :: d :: ((throughQuote quote rest).1 ++ quote :: more)) = _
    rw [throughQuote_step, if_pos escaped, ih ends]
    rfl
  | case4 rest plain ih =>
    change throughQuote quote (quote :: quote :: ((throughQuote quote rest).1 ++ quote :: more)) = _
    rw [throughQuote_step, if_neg plain, if_pos rfl, if_pos rfl, ih ends]
    rfl
  | case5 d rest different plain =>
    change throughQuote quote (quote :: quote :: more) = _
    rw [throughQuote_step, if_neg plain, if_pos rfl, if_pos rfl]
    rfl
  | case6 c d rest plain different ih =>
    obtain ⟨others, begins⟩ := throughQuote_cons quote d rest
    change throughQuote quote (c :: ((throughQuote quote (d :: rest)).1 ++ quote :: more)) =
      (c :: ((throughQuote quote (d :: rest)).1 ++ _), _)
    have later := ih ends
    rw [begins] at later ⊢
    rw [List.cons_append, throughQuote_step, if_neg plain, if_neg different, ← List.cons_append, later]

theorem throughBlockEnd_step (c d : Char) (rest : List Char) : throughBlockEnd (c :: d :: rest) =
    if c = '*' ∧ d = '/' then
        ([c, d], rest) else (c :: (throughBlockEnd (d :: rest)).1, (throughBlockEnd (d :: rest)).2) := by
  rw [throughBlockEnd]
  rfl

theorem throughBlockEnd_cons (c : Char) (rest : List Char) : ∃ more, (throughBlockEnd (c :: rest)).1 = c :: more := by
  cases rest with
  | nil => exact ⟨[], rfl⟩
  | cons d rest =>
    rw [throughBlockEnd_step]
    split <;> exact ⟨_, rfl⟩

private theorem throughBlockEnd_replace (ends : (throughBlockEnd text).2 = [] → after = []) :
    throughBlockEnd ((throughBlockEnd text).1 ++ after) = ((throughBlockEnd text).1, after) := by
  fun_induction throughBlockEnd text with
  | case1 => rw [ends rfl]; rfl
  | case2 => rw [ends rfl]; rfl
  | case3 c d rest closed =>
    change throughBlockEnd (c :: d :: after) = _
    rw [throughBlockEnd_step, if_pos closed]
  | case4 c d rest plain ih =>
    obtain ⟨more, begins⟩ := throughBlockEnd_cons d rest
    change throughBlockEnd (c :: ((throughBlockEnd (d :: rest)).1 ++ after)) =
        (c :: (throughBlockEnd (d :: rest)).1, after)
    have later := ih ends
    rw [begins] at later ⊢
    rw [List.cons_append, throughBlockEnd_step, if_neg plain, ← List.cons_append, later]

private theorem throughNewline_replace (ends : (throughNewline text).2 = [] → after = []) :
    throughNewline ((throughNewline text).1 ++ after) = ((throughNewline text).1, after) := by
  fun_induction throughNewline text with
  | case1 => rw [ends rfl]; rfl
  | case2 rest => rfl
  | case3 c rest plain ih =>
    change throughNewline (c :: ((throughNewline rest).1 ++ after)) = (c :: (throughNewline rest).1, after)
    rw [throughNewline, if_neg plain, ih ends]
    rfl

end Runs

section Kinds
open Segment SegmentKind

variable {kind : SegmentKind} {quote c : Char} {rest after : List Char}

theorem opening?_quote (quoted : kind.quote? = some quote) (rest : List Char) : opening? quote rest = some kind := by
  cases kind <;> cases quoted <;> rfl

theorem split_quote (quoted : kind.quote? = some quote) (text : List Char) :
    split kind text = throughQuote quote text := by
  cases kind <;> cases quoted <;> rfl

/-- What opens is a comment, or a quoted run that is told by its first character. -/
theorem kind_cases (opens : opening? c rest = some kind) : kind.quote? = some c ∨ kind.isComment = true := by
  unfold opening? at opens
  repeat' split at opens
  all_goals cases opens
  all_goals first | exact .inr rfl | (subst c; exact .inl rfl)

theorem opening?_eq_none : opening? c rest = none ↔
    (c ≠ singleQuote ∧ c ≠ doubleQuote ∧ c ≠ backtick ∧ c ≠ '#') ∧ ¬(c = '/' ∧ rest.head? = some '*') ∧
      ¬(c = '-' ∧ rest.head? = some '-') := by
  unfold opening?
  repeat' split
  all_goals simp_all

/-- A character of code stays code, unless a star or a dash comes behind it that was not there. -/
theorem opening?_code (code : opening? c rest = none)
    (begins : ∀ d ∈ after.head?, d = '*' ∨ d = '-' → rest.head? = some d) : opening? c after = none := by
  obtain ⟨plain, block, line⟩ := opening?_eq_none.mp code
  refine opening?_eq_none.mpr ⟨plain, ?_, ?_⟩
  · exact fun found => block ⟨found.1, begins _ found.2 (.inl rfl)⟩
  · exact fun found => line ⟨found.1, begins _ found.2 (.inr rfl)⟩

/-- A comment stays one, and ends where it did, whatever comes after it. -/
theorem comment_replace (comment : kind.isComment = true) (opens : opening? c rest = some kind)
    (ends : (split kind rest).2 = [] → after = []) :
    opening? c ((split kind rest).1 ++ after) = some kind ∧
      split kind ((split kind rest).1 ++ after) = ((split kind rest).1, after) := by
  unfold opening? at opens
  repeat' split at opens
  all_goals cases opens
  all_goals cases comment
  · rename_i noSingle noDouble noTick hash
    subst hash
    exact ⟨rfl, throughNewline_replace ends⟩
  · rename_i block
    obtain ⟨rfl, star⟩ := block
    obtain ⟨more, rfl⟩ := List.head?_eq_some_iff.mp star
    have replaced := throughBlockEnd_replace ends
    refine ⟨rfl, ?_⟩
    change ('*' :: (throughBlockEnd ((throughBlockEnd more).1 ++ after)).1,
        (throughBlockEnd ((throughBlockEnd more).1 ++ after)).2) = _
    rw [replaced]
    rfl
  · rename_i line
    obtain ⟨rfl, dash⟩ := line
    obtain ⟨more, rfl⟩ := List.head?_eq_some_iff.mp dash
    exact ⟨rfl, throughNewline_replace ends⟩

variable {α : Type} {part : Segment → List α} {text : List Char}

theorem flatMap_quote (quoted : kind.quote? = some quote) (text : List Char) :
    (ofText (quote :: text)).flatMap part =
      part ⟨kind, quote :: (throughQuote quote text).1⟩ ++ (ofText (throughQuote quote text).2).flatMap part := by
  rw [flatMap_run (opening?_quote quoted text), split_quote quoted]

/-- What is made of a quoted run character by character is the same where the run goes on with the
quotes that come after it. -/
theorem flatMap_quote_append (quoted : kind.quote? = some quote) {each : Char → List α}
    (characters : ∀ text, part ⟨kind, text⟩ = text.flatMap each)
    (ends : (throughQuote quote text).2 = [] → after = []) :
    (ofText (quote :: (throughQuote quote text).1 ++ after)).flatMap part =
      (quote :: (throughQuote quote text).1).flatMap each ++ (ofText after).flatMap part := by
  rw [List.cons_append, flatMap_quote quoted, characters]
  by_cases merges : after.head? = some quote
  · obtain ⟨more, rfl⟩ := List.head?_eq_some_iff.mp merges
    rw [throughQuote_merge fun last => List.cons_ne_nil _ _ (ends last), flatMap_quote quoted, characters]
    simp
  · rw [throughQuote_replace ends merges]

theorem layout_quote (quoted : kind.quote? = some quote) (text : List Char) :
    layout (quote :: text) = (quote :: (throughQuote quote text).1).map some ++ layout (throughQuote quote text).2 := by
  rw [layout, flatMap_quote quoted]
  cases kind <;> cases quoted <;> rfl

theorem layout_comment (comment : kind.isComment = true) (opens : opening? c rest = some kind) :
    layout (c :: rest) = none :: layout (split kind rest).2 := by
  rw [layout, flatMap_run opens]
  cases kind <;> cases comment <;> rfl

/-- A quoted run keeps its layout, also where it goes on with the quotes that come after it. -/
theorem layout_quote_append (quoted : kind.quote? = some quote) (text : List Char)
    (ends : (throughQuote quote text).2 = [] → after = []) :
    layout (quote :: (throughQuote quote text).1 ++ after) =
      (quote :: (throughQuote quote text).1).map some ++ layout after := by
  have characters (text : List Char) : Segment.layout ⟨kind, text⟩ = text.flatMap fun c => [some c] := by
    cases kind <;> cases quoted <;> exact List.map_eq_flatMap
  rw [List.map_eq_flatMap]
  exact flatMap_quote_append quoted characters ends

end Kinds

section Inert

/-- All blanks. -/
def blanks : List Char :=
  ['\t', '\n', '\x0B', '\x0C', '\r', ' ', '\u0085', '\u00A0', '\u1680', '\u2000', '\u2001',
    '\u2002', '\u2003', '\u2004', '\u2005', '\u2006', '\u2007', '\u2008', '\u2009', '\u200A',
    '\u2028', '\u2029', '\u202F', '\u205F', '\u3000']

variable {c : Char}

theorem mem_blanks (blank : isBlank c = true) : c ∈ blanks := by
  have codes : c.toNat ∈ blanks.map Char.toNat := by
    have known :
        blanks.map Char.toNat = [9, 10, 11, 12, 13, 0x20, 0x85, 0xA0, 0x1680, 0x2000, 0x2001, 0x2002, 0x2003, 0x2004,
      0x2005, 0x2006, 0x2007, 0x2008, 0x2009, 0x200A, 0x2028, 0x2029, 0x202F, 0x205F, 0x3000] := rfl
    simp only [isBlank, Bool.or_eq_true, Bool.and_eq_true, decide_eq_true_eq, beq_iff_eq] at blank
    simp only [known, List.mem_cons, List.not_mem_nil, or_false]
    omega
  obtain ⟨d, member, same⟩ := List.mem_map.mp codes
  exact Char.toNat_inj.mp same ▸ member

/-- A character that is code and no blank, wherever it stands. -/
def isInert (c : Char) : Bool := isCode c && !isBlank c

/-- Characters that are no blanks, and open nothing, are inert. -/
theorem isInert_of (accepts : Char → Bool) (accepted : accepts c = true)
    (others : ([singleQuote, doubleQuote, backtick, '#', '/', '-'] ++ blanks).any accepts = false) :
    isInert c = true := by
  have apart {d : Char} (member : d ∈ [singleQuote, doubleQuote, backtick, '#', '/', '-'] ++ blanks) : c ≠ d := by
    rintro rfl
    exact absurd accepted (List.any_eq_false.mp others c member)
  have solid : isBlank c = false := by
    rw [Bool.eq_false_iff]
    exact fun blank => apart (List.mem_append_right _ (mem_blanks blank)) rfl
  simp only [isInert, isCode, solid, Bool.not_false, Bool.and_true, Bool.not_eq_true', Bool.or_eq_false_iff,
    beq_eq_false_iff_ne]
  exact ⟨⟨⟨⟨⟨⟨⟨apart (by decide), apart (by decide)⟩, apart (by decide)⟩, apart (by decide)⟩, apart (by decide)⟩,
    apart (by decide)⟩, apart (by decide)⟩, apart (by decide)⟩

theorem opening?_inert (inert : isInert c = true) (rest : List Char) : SegmentKind.opening? c rest = none := by
  simp only [isInert, isCode, Bool.and_eq_true, Bool.not_eq_true', Bool.or_eq_false_iff, beq_eq_false_iff_ne] at inert
  obtain ⟨⟨⟨⟨⟨⟨⟨⟨noSingle, noDouble⟩, noTick⟩, noHash⟩, noSlash⟩, noDash⟩, -⟩, -⟩, -⟩ := inert
  exact opening?_eq_none.mpr ⟨⟨noSingle, noDouble, noTick, noHash⟩, fun found =>
    noSlash found.1, fun found => noDash found.1⟩

theorem flatMap_inert {α : Type} {part : Segment → List α} {each : Char → List α}
    (characters : ∀ text, part ⟨.code, text⟩ = text.flatMap each) {text : List Char}
    (inert : ∀ c ∈ text, isInert c = true)
    (after : List Char) :
    (Segment.ofText (text ++ after)).flatMap part = text.flatMap each ++ (Segment.ofText after).flatMap part := by
  induction text with
  | nil => rfl
  | cons c text ih =>
    obtain ⟨first, others⟩ := List.forall_mem_cons.mp inert
    rw [List.cons_append, flatMap_code each characters (opening?_inert first _), ih others,
      List.flatMap_cons, List.append_assoc]

theorem solid_of_inert (inert : isInert c = true) : [if isBlank c then none else some c] = [some c] := by
  rw [isInert, Bool.and_eq_true, Bool.not_eq_true'] at inert
  rw [inert.2, if_neg Bool.false_ne_true]

theorem layout_inert {text : List Char} (inert : ∀ c ∈ text, isInert c = true) (after : List Char) :
    layout (text ++ after) = text.map some ++ layout after := by
  rw [List.map_eq_flatMap, ← List.flatMap_congr fun c member => solid_of_inert (inert c member)]
  exact flatMap_inert (fun _ => List.map_eq_flatMap) inert after

end Inert

section Normal
open Segment SegmentKind

theorem normalize_character {c : Char} {rest : List Char} (code : opening? c rest = none) :
    normalize (c :: rest) = (if c = '\n' ∨ c = '\r' then ' ' else c) :: normalize rest :=
  flatMap_code (fun c => [if c = '\n' ∨ c = '\r' then ' ' else c]) (fun _ => List.map_eq_flatMap) code

private theorem throughQuote_double (name : List Char) :
    throughQuote backtick (double backtick name ++ [backtick, ' ']) = (double backtick name ++ [backtick], [' ']) := by
  induction name with
  | nil => rfl
  | cons c name ih =>
    have plain : ¬(c = '\\' ∧ backtick ≠ backtick) := fun found => found.2 rfl
    by_cases tick : c = backtick
    · subst tick
      change throughQuote backtick (backtick :: backtick :: (double backtick name ++ [backtick, ' '])) = _
      rw [throughQuote_step, if_neg plain, if_pos rfl, if_pos rfl, ih]
      rfl
    · have single : double backtick (c :: name) = c :: double backtick name := by simp [double, tick]
      rw [single, List.cons_append]
      cases text : double backtick name ++ [backtick, ' '] with
      | nil => simp at text
      | cons d more =>
        rw [text] at ih
        rw [throughQuote_step, if_neg plain, if_neg tick, ih]
        rfl

theorem isInert_of_plain {name : List Char} (plain : isPlainIdentifier name = true) : ∀ c ∈ name, isInert c = true := by
  have spelled : ∀ c ∈ name, (c.isAlphanum || c == '_' || c == '$') = true := by
    cases name with
    | nil => cases plain
    | cons c rest =>
      simp only [isPlainIdentifier, Bool.and_eq_true, List.all_eq_true] at plain
      apply List.forall_mem_cons.mpr ⟨?_, plain.2⟩
      have first := plain.1
      rw [Bool.or_eq_true] at first ⊢
      rcases first with letter | score
      · simp [Char.isAlphanum, letter]
      · simp [score]
  exact fun c member => isInert_of (fun c => c.isAlphanum || c == '_' || c == '$') (spelled c member) (by decide)

/-- An identifier that is written for a double-quoted one is one piece, whatever comes after it. -/
theorem flatMap_writeIdentifier {α : Type} {part : Segment → List α} {each quotedEach : Char → List α}
    (code : ∀ text, part ⟨.code, text⟩ = text.flatMap each)
    (quoted : ∀ text, part ⟨.backticked, text⟩ = text.flatMap quotedEach)
    (inert : ∀ c, isInert c = true → each c = quotedEach c) (name after : List Char) :
    (ofText (writeIdentifier name ++ after)).flatMap part =
      (writeIdentifier name).flatMap quotedEach ++ (ofText after).flatMap part := by
  unfold writeIdentifier
  split
  next plain =>
    have solid := isInert_of_plain plain
    rw [flatMap_inert code solid, List.flatMap_congr fun c member => inert c (solid c member)]
  next =>
    -- The space only shows where the run ends: what comes after it may be a backtick as well.
    have spaced := throughQuote_double name
    have ends : (throughQuote backtick (double backtick name ++ [backtick, ' '])).2 = [] → after = [] := by
      rw [spaced]
      exact fun none => absurd none (List.cons_ne_nil _ _)
    have tick : SegmentKind.backticked.quote? = some backtick := rfl
    have whole := flatMap_quote_append tick quoted ends
    rwa [spaced] at whole

/-- An identifier that is written for a double-quoted one is no part of a gap. -/
private theorem layout_writeIdentifier (name after : List Char) :
    layout (writeIdentifier name ++ after) = (writeIdentifier name).map some ++ layout after := by
  rw [List.map_eq_flatMap]
  exact flatMap_writeIdentifier (fun _ => List.map_eq_flatMap) (fun _ => List.map_eq_flatMap)
    (fun _ => solid_of_inert) name
    after

/-- What is written for a quoted run keeps together, whatever comes after the run. -/
private theorem layout_normalized {kind : SegmentKind} {quote : Char} (quoted : kind.quote? = some quote)
    {text after : List Char}
    (ends : (throughQuote quote text).2 = [] → after = []) :
    layout (Segment.normalize ⟨kind, quote :: (throughQuote quote text).1⟩ ++ after) =
      (Segment.normalize ⟨kind, quote :: (throughQuote quote text).1⟩).map some ++ layout after := by
  cases kind with
  | stringLiteral | backticked => exact layout_quote_append quoted text ends
  | doubleQuoted => exact layout_writeIdentifier _ after
  | code | blockComment | lineComment => cases quoted

/-- What is written for a quoted run begins with no star, no dash and no quote that was not there. -/
theorem normalize_begins {kind : SegmentKind} {quote : Char} (quoted : kind.quote? = some quote) (text : List Char) :
    ∃ c rest, Segment.normalize ⟨kind, quote :: text⟩ = c :: rest ∧
        (c = '*' ∨ c = '-' ∨ c = singleQuote → c = quote) := by
  cases kind with
  | stringLiteral | backticked => cases quoted; exact ⟨_, _, rfl, fun _ => rfl⟩
  | doubleQuoted =>
    change ∃ c rest, writeIdentifier _ = c :: rest ∧ _
    generalize (enclosed? doubleQuote _).getD _ = name
    unfold writeIdentifier
    split
    next plain =>
      cases name with
      | nil => cases plain
      | cons c rest =>
        rw [isPlainIdentifier, Bool.and_eq_true] at plain
        refine ⟨c, rest, rfl, ?_⟩
        rintro (rfl | rfl | rfl) <;> exact absurd plain.1 (by decide)
    next => exact ⟨_, _, rfl, fun sign => absurd sign (by decide)⟩
  | code | blockComment | lineComment => cases quoted

theorem normalize_quote {kind : SegmentKind} {quote : Char} (quoted : kind.quote? = some quote) (text : List Char) :
    normalize (quote :: text) =
      Segment.normalize ⟨kind, quote :: (throughQuote quote text).1⟩ ++ normalize (throughQuote quote text).2 := by
  rw [normalize_cons, opening?_quote quoted, Option.getD_some, split_quote quoted]

theorem normalize_comment {kind : SegmentKind} {c : Char} {rest : List Char} (comment : kind.isComment = true)
    (opens : opening? c rest = some kind) :
    normalize (c :: rest) = c :: (split kind rest).1 ++ normalize (split kind rest).2 := by
  rw [normalize_cons, opens, Option.getD_some]
  cases kind <;> cases comment <;> rfl

private theorem layout_cons (c : Char) (rest : List Char) :
    ∃ mark others, layout (c :: rest) = mark :: others ∧ (mark = none ∨ mark = some c) := by
  cases opens : opening? c rest with
  | none =>
    refine ⟨_, _, layout_code opens, ?_⟩
    split
    · exact .inl rfl
    · exact .inr rfl
  | some kind =>
    rcases kind_cases opens with quoted | comment
    · exact ⟨_, _, layout_quote quoted rest, .inr rfl⟩
    · exact ⟨_, _, layout_comment comment opens, .inl rfl⟩

/-- Behind a gap there is a space. -/
theorem head_joinLayout_gap {rest : List (Option Char)} {c : Char}
    (first : (joinLayout true true rest).head? = some c) :
    c = ' ' := by
  induction rest with
  | nil => cases first
  | cons mark rest ih =>
    cases mark with
    | none => exact ih first
    | some d => exact (Option.some.inj first).symm

/-- Behind a character there is a space, or what was there. -/
theorem head_joinLayout {gap : Bool} {text : List Char} {c : Char}
    (first : (joinLayout true gap (layout text)).head? = some c) : c = ' ' ∨ text.head? = some c := by
  cases text with
  | nil =>
    rw [layout_nil] at first
    cases first
  | cons d rest =>
    obtain ⟨mark, others, begins, rfl | rfl⟩ := layout_cons d rest
    · rw [begins, joinLayout_none] at first
      exact .inl (head_joinLayout_gap first)
    · rw [begins, joinLayout_some] at first
      cases gap with
      | false => exact .inr first
      | true => exact .inl (Option.some.inj first).symm

/-- No star, dash or quote comes to stand behind a character that was not there before. -/
theorem head_normalize {text : List Char} {c : Char} (first : (normalize text).head? = some c)
    (sign : c = '*' ∨ c = '-' ∨ c = singleQuote) : text.head? = some c := by
  cases text with
  | nil =>
    rw [normalize_nil] at first
    cases first
  | cons d rest =>
    cases opens : opening? d rest with
    | none =>
      rw [normalize_character opens, List.head?_cons] at first
      obtain rfl := Option.some.inj first
      split at sign
      next => rcases sign with sign | sign | sign <;> cases sign
      next plain => rw [if_neg plain, List.head?_cons]
    | some kind =>
      rcases kind_cases opens with quoted | comment
      · obtain ⟨e, more, begins, same⟩ := normalize_begins quoted (throughQuote d rest).1
        rw [normalize_quote quoted, begins] at first
        obtain rfl := Option.some.inj first
        exact congrArg some (same sign).symm
      · rw [normalize_comment comment opens] at first
        exact first

/-- A character of code stays code when what comes after it is normalized. -/
theorem opening?_normalize {c : Char} {rest : List Char} (code : opening? c rest = none) :
    opening? c (normalize rest) = none :=
  opening?_code code fun _ head sign => head_normalize head (sign.imp_right .inl)

private theorem normalize_gap (started gap : Bool) (text : List Char) :
    normalize ((if started && gap then [' '] else []) ++ text) =
        (if started && gap then [' '] else []) ++ normalize text := by
  split
  · exact normalize_isCode (by decide) text
  · rfl

theorem joinLayout_eq_nil {gap : Bool} {text : List Char} (none : text = []) :
    joinLayout true gap (layout text) = [] := by
  rw [none, layout_nil, joinLayout_nil]

/-- A character of code stays code in front of what is left behind it. -/
theorem opening?_joinLayout {c : Char} {rest : List Char} (gap : Bool) (code : opening? c rest = none) :
    opening? c (joinLayout true gap (layout rest)) = none := by
  refine opening?_code code ?_
  intro d head sign
  rcases head_joinLayout head with rfl | same
  · rcases sign with sign | sign <;> cases sign
  · exact same

private theorem normalize_joinLayout_code {c : Char} {rest : List Char} (code : opening? c rest = none)
    (ih : ∀ started gap, normalize (joinLayout started gap (layout rest)) =
      joinLayout started gap (layout (normalize rest)))
    (started gap : Bool) :
    normalize (joinLayout started gap (layout (c :: rest))) =
        joinLayout started gap (layout (normalize (c :: rest))) := by
  have stays := opening?_normalize code
  rw [normalize_character code, layout_code code]
  by_cases blank : isBlank c = true
  · have other :
        layout ((if c = '\n' ∨ c = '\r' then ' ' else c) :: normalize rest) = none :: layout (normalize rest) := by
      split
      · exact layout_code rfl
      · rw [layout_code stays, if_pos blank]
    rw [if_pos blank, joinLayout_none, other, joinLayout_none, ih]
  · have line : ¬(c = '\n' ∨ c = '\r') := by
      rintro (rfl | rfl) <;> exact blank (by decide)
    rw [if_neg blank, if_neg line, layout_code stays, if_neg blank, joinLayout_some, joinLayout_some, normalize_gap,
      normalize_character (opening?_joinLayout false code), if_neg line, ih]

/-- No quote comes to stand behind a run that it would go on with. -/
theorem head_joinLayout_quote {kind : SegmentKind} {quote : Char} (quoted : kind.quote? = some quote)
    (text : List Char) :
    (joinLayout true false (layout (throughQuote quote text).2)).head? ≠ some quote := by
  intro head
  rcases head_joinLayout head with same | same
  · cases kind <;> cases quoted <;> cases same
  · exact throughQuote_next quote text same

private theorem normalize_joinLayout_quote {kind : SegmentKind} {quote : Char} (quoted : kind.quote? = some quote)
    {text : List Char}
    (ih : ∀ started gap, normalize (joinLayout started gap (layout (throughQuote quote text).2)) =
      joinLayout started gap (layout (normalize (throughQuote quote text).2))) (started gap : Bool) :
    normalize (joinLayout started gap (layout (quote :: text))) =
      joinLayout started gap (layout (normalize (quote :: text))) := by
  have ends : (throughQuote quote text).2 = [] → normalize (throughQuote quote text).2 = [] := by
    intro none
    rw [none, normalize_nil]
  have written : Segment.normalize ⟨kind, quote :: (throughQuote quote text).1⟩ ≠ [] := by
    obtain ⟨c, rest, begins, -⟩ := normalize_begins quoted (throughQuote quote text).1
    rw [begins]
    exact List.cons_ne_nil c rest
  rw [normalize_quote quoted, layout_normalized quoted ends, joinLayout_run _ _ written, layout_quote quoted,
    joinLayout_run _ _ (List.cons_ne_nil _ _), normalize_gap, List.cons_append, normalize_quote quoted,
    throughQuote_replace joinLayout_eq_nil (head_joinLayout_quote quoted text), ih]

private theorem normalize_joinLayout_comment {kind : SegmentKind} {c : Char} {rest : List Char}
    (comment : kind.isComment = true)
    (opens : opening? c rest = some kind)
    (ih : ∀ started gap, normalize (joinLayout started gap (layout (split kind rest).2)) =
      joinLayout started gap (layout (normalize (split kind rest).2))) (started gap : Bool) :
    normalize (joinLayout started gap (layout (c :: rest))) =
        joinLayout started gap (layout (normalize (c :: rest))) := by
  have ends : (split kind rest).2 = [] → normalize (split kind rest).2 = [] := by
    intro none
    rw [none, normalize_nil]
  obtain ⟨still, same⟩ := comment_replace comment opens ends
  rw [layout_comment comment opens, joinLayout_none, ih, normalize_comment comment opens, List.cons_append,
    layout_comment comment still, same, joinLayout_none]

/-- Normalization goes through the characters of a layout. -/
theorem normalize_joinLayout (text : List Char) (started gap : Bool) :
    normalize (joinLayout started gap (layout text)) = joinLayout started gap (layout (normalize text)) := by
  induction text using text_induction generalizing started gap with
  | nil => rw [normalize_nil, layout_nil, joinLayout_nil, normalize_nil]
  | code c rest code ih => exact normalize_joinLayout_code code ih started gap
  | run c rest kind opens ih =>
    rcases kind_cases opens with quoted | comment
    · exact normalize_joinLayout_quote quoted (fun started gap => split_quote quoted rest ▸ ih started gap) started gap
    · exact normalize_joinLayout_comment comment opens ih started gap

/-- Comments may go before a text is normalized or after it. -/
theorem normalize_stripComments (text : List Char) :
    normalize (stripComments text) = stripComments (normalize text) := by
  rw [stripComments_eq, stripComments_eq, normalize_joinLayout]

end Normal

end QueryFacts.Proofs.Layout
