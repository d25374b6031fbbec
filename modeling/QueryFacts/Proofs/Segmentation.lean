import Mathlib.Data.List.Chain
import QueryFacts.Proofs.SegmentCuts

/-! What a text is split into. Its segments cover it, alternate between code and what is not code, and
each can be found without the others: a text may be cut between any two of its segments, and a scan of
its bytes ends each segment where the scan of its characters does. -/

namespace QueryFacts
open Text

/-- The bytes of a character, each as a character of its own. -/
def bytesOf (c : Char) : List Char := (String.utf8EncodeChar c).map fun byte => Char.ofNat byte.toNat

def utf8 (text : List Char) : List Char := text.flatMap bytesOf

/-- Code in which nothing else begins. -/
def Segment.IsPlain (segment : Segment) : Prop :=
  (∀ c ∈ segment.text, c ≠ singleQuote ∧ c ≠ doubleQuote ∧ c ≠ backtick ∧ c ≠ '#') ∧
    ¬['-', '-'] <:+: segment.text ∧ ¬['/', '*'] <:+: segment.text

/-- The segments cover the text, and a scan that starts or stops between two of them finds the same ones. -/
structure Segmented (text : List Char) (segments : List Segment) : Prop where
  whole : segments.flatMap (·.text) = text
  written : ∀ segment ∈ segments, segment.text ≠ []
  alternate : segments.IsChain fun first second => ¬(first.kind = .code ∧ second.kind = .code)
  plain : ∀ segment ∈ segments, segment.kind = .code → segment.IsPlain
  closed : ∀ segment ∈ segments.dropLast, segment.isClosed = true
  before : ∀ k, Segment.ofText ((segments.take k).flatMap (·.text)) = segments.take k
  behind : ∀ k, Segment.ofText ((segments.drop k).flatMap (·.text)) = segments.drop k
  bytes : Segment.ofText (utf8 text) = segments.map fun segment => ⟨segment.kind, utf8 segment.text⟩

end QueryFacts

namespace QueryFacts.Proofs.Segmentation
open Text Layout SegmentCuts Segment SegmentKind

section Code

variable {c : Char} {rest after : List Char}

theorem throughCode_step (code : opening? c rest = none) :
    throughCode (c :: rest) = (c :: (throughCode rest).1, (throughCode rest).2) := by
  rw [throughCode, code]
  rfl

theorem opening?_ne_code : opening? c rest ≠ some .code := by
  intro opens
  rcases kind_cases opens with quoted | comment
  · cases quoted
  · cases comment

/-- Code reaches up to where a run begins. -/
theorem throughCode_next {text : List Char} {d : Char} {more : List Char} (left : (throughCode text).2 = d :: more) :
    (opening? d more).isSome = true := by
  fun_induction throughCode text with
  | case1 => cases left
  | case2 c rest opens =>
    obtain ⟨rfl, rfl⟩ := List.cons.inj left
    exact opens
  | case3 c rest code ih => exact ih left

/-- A character stays code when what comes behind its code is cut off, or replaced by what begins alike. -/
theorem opening?_replace (code : opening? c rest = none)
    (alike : after = [] ∨ after.head? = (throughCode rest).2.head?) :
    opening? c ((throughCode rest).1 ++ after) = none := by
  refine opening?_code code ?_
  intro d head _
  have whole := throughCode_append rest
  cases inside : (throughCode rest).1 with
  | nil =>
    rw [inside, List.nil_append] at whole head
    rw [← whole]
    rcases alike with rfl | same
    · cases head
    · rw [← same]
      exact head
  | cons e front =>
    rw [inside] at whole head
    rw [← whole]
    exact head

/-- Code ends where it did in front of another run that begins alike. -/
theorem throughCode_replace {text : List Char} (alike : after = [] ∨ after.head? = (throughCode text).2.head?)
    (opens : ∀ d more, after = d :: more → (opening? d more).isSome = true) :
    throughCode ((throughCode text).1 ++ after) = ((throughCode text).1, after) := by
  have here : throughCode after = ([], after) := by
    cases after with
    | nil => rfl
    | cons d more => rw [throughCode, if_pos (opens d more rfl)]
  fun_induction throughCode text with
  | case1 => exact here
  | case2 => exact here
  | case3 c rest code ih =>
    have stays := opening?_replace (Option.not_isSome_iff_eq_none.mp code) alike
    change throughCode (c :: ((throughCode rest).1 ++ after)) = _
    rw [throughCode_step stays, ih alike]
    rfl

private theorem not_infix_cons {d e first second : Char} {text : List Char} (apart : ¬(first = d ∧ second = e))
    (inside : ¬[first, second] <:+: e :: text) : ¬[first, second] <:+: d :: e :: text := by
  intro found
  rcases List.infix_cons_iff.mp found with front | later
  · simp only [List.cons_prefix_cons] at front
    exact apart ⟨front.1, front.2.1⟩
  · exact inside later

/-- Nothing begins within code. -/
theorem isPlain_throughCode (code : opening? c rest = none) : IsPlain ⟨.code, c :: (throughCode rest).1⟩ := by
  induction rest generalizing c with
  | nil =>
    refine ⟨List.forall_mem_singleton.mpr (opening?_eq_none.mp code).1, ?_, ?_⟩ <;>
      exact fun found => absurd found.length_le (by simp [throughCode])
  | cons d rest ih =>
    obtain ⟨here, block, line⟩ := opening?_eq_none.mp code
    cases opens : opening? d rest with
    | some kind =>
      have none : (throughCode (d :: rest)).1 = [] := by rw [throughCode, opens]; rfl
      rw [none]
      refine ⟨List.forall_mem_singleton.mpr here, ?_, ?_⟩ <;>
        exact fun found => absurd found.length_le (by simp)
    | none =>
      obtain ⟨others, noLine, noBlock⟩ := ih opens
      rw [throughCode_step opens]
      refine ⟨List.forall_mem_cons.mpr ⟨here, others⟩, not_infix_cons ?_ noLine, not_infix_cons ?_ noBlock⟩
      · exact fun found => line ⟨found.1.symm, congrArg some found.2.symm⟩
      · exact fun found => block ⟨found.1.symm, congrArg some found.2.symm⟩

end Code

section Cuts

theorem ofText_cons (c : Char) (rest : List Char) : ofText (c :: rest) =
    ⟨(opening? c rest).getD .code, c :: (split ((opening? c rest).getD .code) rest).1⟩ ::
      ofText (split ((opening? c rest).getD .code) rest).2 := by
  rw [ofText]

/-- Behind the first segments of a text the others are found. -/
theorem ofText_drop (text : List Char) (k : Nat) :
    ofText (((ofText text).drop k).flatMap (·.text)) = (ofText text).drop k := by
  fun_induction ofText text generalizing k with
  | case1 => rw [List.drop_nil, List.flatMap_nil, ofText]
  | case2 c rest kind ih =>
    cases k with
    | zero =>
      rw [List.drop_zero, List.flatMap_cons, flatMap_text_ofText, List.cons_append, split_append, ofText_cons]
    | succ k => exact ih k

private theorem head?_flatMap_take {segments : List Segment}
    (written : ∀ segment ∈ segments, segment.text ≠ []) (k : Nat) :
    (segments.take k).flatMap (·.text) = [] ∨
      ((segments.take k).flatMap (·.text)).head? = (segments.flatMap (·.text)).head? := by
  cases segments with
  | nil => exact .inl (by rw [List.take_nil, List.flatMap_nil])
  | cons segment segments =>
    cases k with
    | zero => exact .inl rfl
    | succ k =>
      obtain ⟨c, rest, begins⟩ := List.exists_cons_of_ne_nil (written segment List.mem_cons_self)
      right
      rw [List.take_succ_cons, List.flatMap_cons, List.flatMap_cons, begins]
      rfl

/-- The kind that a text begins with is that of its first segment. -/
private theorem kind_head (d : Char) (more : List Char) :
    ((ofText (d :: more)).head?).map (·.kind) = some ((opening? d more).getD .code) := by
  rw [ofText_cons]
  rfl

/-- What begins with the first of these segments, and is cut between two of them, begins as they do. -/
private theorem opening?_take {text front : List Char} {k : Nat} (same : ofText front = (ofText text).take k)
    (opens : ∀ d more, text = d :: more → (opening? d more).isSome = true) :
    ∀ d more, front = d :: more → (opening? d more).isSome = true := by
  rintro d more rfl
  have first := kind_head d more
  rw [same] at first
  cases text with
  | nil =>
    rw [ofText, List.take_nil] at first
    cases first
  | cons e others =>
    obtain ⟨kind, begins⟩ := Option.isSome_iff_exists.mp (opens e others rfl)
    cases k with
    | zero =>
      rw [List.take_zero] at first
      cases first
    | succ k =>
      rw [ofText_cons, List.take_succ_cons, List.head?_cons, begins] at first
      have kinds : kind = (opening? d more).getD .code := Option.some.inj first
      cases here : opening? d more with
      | some _ => rfl
      | none =>
        rw [here] at kinds
        subst kinds
        exact absurd begins opening?_ne_code

/-- A cut behind some of the segments leaves the first one as it was. -/
private theorem ofText_front (c : Char) (rest : List Char) {kind : SegmentKind}
    (begins : (opening? c rest).getD .code = kind)
    {k : Nat} {front : List Char} (cut : front = ((ofText (split kind rest).2).take k).flatMap (·.text))
    (same : ofText front = (ofText (split kind rest).2).take k) :
    ofText (c :: ((split kind rest).1 ++ front)) = ⟨kind, c :: (split kind rest).1⟩ :: ofText front := by
  have alike : front = [] ∨ front.head? = (split kind rest).2.head? := by
    rw [cut]
    conv in (split kind rest).2.head? => rw [← flatMap_text_ofText (split kind rest).2]
    exact head?_flatMap_take (text_ne_nil _) k
  suffices found : (opening? c ((split kind rest).1 ++ front)).getD .code = kind ∧
      split kind ((split kind rest).1 ++ front) = ((split kind rest).1, front) by
    rw [ofText_cons, found.1, found.2]
  cases opens : opening? c rest with
  | none =>
    rw [opens] at begins
    obtain rfl : SegmentKind.code = kind := begins
    refine ⟨?_, throughCode_replace alike (opening?_take same fun _ _ left => throughCode_next left)⟩
    exact congrArg (·.getD .code) (opening?_replace opens alike)
  | some found =>
    rw [opens] at begins
    obtain rfl : found = kind := begins
    by_cases whole : (split found rest).2 = []
    · have none : front = [] := by rw [cut, whole, ofText, List.take_nil, List.flatMap_nil]
      have all := split_append found rest
      rw [whole, List.append_nil] at all
      rw [none, all, List.append_nil, opens]
      exact ⟨rfl, Prod.ext all whole⟩
    · have other (quote : Char) (quoted : found.quote? = some quote) : front.head? ≠ some quote := by
        rcases alike with rfl | same
        · exact fun head => by cases head
        · rw [same, split_quote quoted]
          exact throughQuote_next quote rest
      obtain ⟨still, ends⟩ := split_closed opens (isClosed_of_more opens whole) other
      exact ⟨congrArg (·.getD .code) still, ends⟩

/-- The first segments of a text are found without the others. -/
theorem ofText_take (text : List Char) (k : Nat) :
    ofText (((ofText text).take k).flatMap (·.text)) = (ofText text).take k := by
  fun_induction ofText text generalizing k with
  | case1 => rw [List.take_nil, List.flatMap_nil, ofText]
  | case2 c rest kind ih =>
    cases k with
    | zero => rw [List.take_zero, List.flatMap_nil, ofText]
    | succ k =>
      rw [List.take_succ_cons, List.flatMap_cons, List.cons_append, ofText_front c rest rfl rfl (ih k), ih k]

end Cuts

section Kinds

/-- No code follows on code. -/
theorem alternate_ofText (text : List Char) :
    (ofText text).IsChain fun first second => ¬(first.kind = .code ∧ second.kind = .code) := by
  fun_induction ofText text with
  | case1 => exact List.IsChain.nil
  | case2 c rest kind ih =>
    refine List.isChain_cons.mpr ⟨?_, ih⟩
    rintro second head ⟨here, there⟩
    rw [show kind = .code from here] at head
    cases left : (throughCode rest).2 with
    | nil =>
      rw [split, left, ofText] at head
      cases head
    | cons d more =>
      have next := kind_head d more
      rw [split, left] at head
      rw [head, Option.map_some, there] at next
      obtain ⟨found, opens⟩ := Option.isSome_iff_exists.mp (throughCode_next left)
      rw [opens] at next
      exact opening?_ne_code (opens.trans next.symm)

theorem isPlain_ofText (text : List Char) : ∀ segment ∈ ofText text, segment.kind = .code → segment.IsPlain := by
  fun_induction ofText text with
  | case1 => exact fun segment member => absurd member List.not_mem_nil
  | case2 c rest kind ih =>
    refine List.forall_mem_cons.mpr ⟨fun here => ?_, ih⟩
    cases opens : opening? c rest with
    | none =>
      rw [show kind = .code from here]
      exact isPlain_throughCode opens
    | some found =>
      have same : found = .code := by rw [← here]; exact (congrArg (·.getD .code) opens).symm
      exact absurd (opens.trans (congrArg some same)) opening?_ne_code

/-- Only the last segment of a text may end with the text. -/
theorem isClosed_ofText (text : List Char) : ∀ segment ∈ (ofText text).dropLast, segment.isClosed = true := by
  fun_induction ofText text with
  | case1 => exact fun segment member => absurd member List.not_mem_nil
  | case2 c rest kind ih =>
    cases left : (split kind rest).2 with
    | nil =>
      rw [ofText]
      exact fun segment member => absurd member List.not_mem_nil
    | cons d more =>
      rw [left] at ih
      have some : ofText (d :: more) ≠ [] := by
        rw [ofText_cons]
        exact List.cons_ne_nil _ _
      rw [List.dropLast_cons_of_ne_nil some]
      refine List.forall_mem_cons.mpr ⟨?_, ih⟩
      cases opens : opening? c rest with
      | none =>
        rw [show kind = .code from congrArg (·.getD .code) opens]
        rfl
      | some found =>
        obtain rfl : kind = found := congrArg (·.getD .code) opens
        refine isClosed_of_more opens ?_
        rw [left]
        exact List.cons_ne_nil d more

end Kinds

section Bytes

variable {quote b c d : Char} {text rest wide : List Char}

private theorem toNat_ofNat_byte (byte : UInt8) : (Char.ofNat byte.toNat).toNat = byte.toNat := by
  have small : byte.toNat.isValidChar := .inl (by have := byte.toNat_lt; omega)
  rw [Char.ofNat, dif_pos small]
  rfl

theorem bytesOf_ascii (ascii : c.toNat < 128) : bytesOf c = [c] := by
  have size : c.toNat ≤ 127 := by omega
  have same : Char.ofNat (UInt8.ofNat c.toNat).toNat = c := by
    apply Char.toNat_inj.mp
    rw [toNat_ofNat_byte, UInt8.toNat_ofNat']
    omega
  rw [bytesOf, String.utf8EncodeChar]
  simp only [Char.toNat_val, if_pos size]
  rw [List.map_singleton, same]

theorem bytesOf_ne_nil (c : Char) : bytesOf c ≠ [] := by
  rw [bytesOf, ne_eq, List.map_eq_nil_iff, ← List.length_eq_zero_iff, String.length_utf8EncodeChar]
  exact c.utf8Size_pos.ne'

/-- No byte of a longer character is one of the signs that a scan looks for. -/
theorem bytesOf_wide (wide : 128 ≤ c.toNat) : ∀ b ∈ bytesOf c, 128 ≤ b.toNat := by
  have size : ¬c.toNat ≤ 127 := by omega
  have high : ∀ byte ∈ String.utf8EncodeChar c, 128 ≤ byte.toNat := by
    rw [String.utf8EncodeChar]
    simp only [Char.toNat_val, if_neg size]
    repeat' split
    all_goals
      simp only [List.forall_mem_cons, UInt8.toNat_ofNat']
      simp
      omega
  refine List.forall_mem_map.mpr fun byte member => ?_
  rw [toNat_ofNat_byte]
  exact high byte member

@[simp] theorem utf8_nil : utf8 [] = [] := rfl

theorem utf8_cons (c : Char) (rest : List Char) : utf8 (c :: rest) = bytesOf c ++ utf8 rest := List.flatMap_cons

theorem utf8_ascii (ascii : c.toNat < 128) (rest : List Char) : utf8 (c :: rest) = c :: utf8 rest := by
  rw [utf8_cons, bytesOf_ascii ascii]
  rfl

/-- The first byte of a character is the character, or neither of them is ASCII. -/
private theorem bytesOf_begins (c : Char) : ∃ b more, bytesOf c = b :: more ∧ (∀ e ∈ more, 128 ≤ e.toNat) ∧
    (b = c ∧ more = [] ∨ 128 ≤ b.toNat ∧ 128 ≤ c.toNat) := by
  obtain ascii | wide := Nat.lt_or_ge c.toNat 128
  · exact ⟨c, [], bytesOf_ascii ascii, fun e member => absurd member List.not_mem_nil, .inl ⟨rfl, rfl⟩⟩
  · obtain ⟨b, more, begins⟩ := List.exists_cons_of_ne_nil (bytesOf_ne_nil c)
    have high := bytesOf_wide wide
    rw [begins, List.forall_mem_cons] at high
    exact ⟨b, more, begins, high.2, .inr ⟨high.1, wide⟩⟩

private theorem ne_of_wide (wide : 128 ≤ b.toNat) (ascii : d.toNat < 128) : b ≠ d := by
  rintro rfl
  omega

theorem head?_utf8 (ascii : d.toNat < 128) : (utf8 text).head? = some d ↔ text.head? = some d := by
  cases text with
  | nil => rfl
  | cons c rest =>
    obtain ⟨b, more, begins, -, ⟨rfl, -⟩ | ⟨first, wide⟩⟩ := bytesOf_begins c
    · rw [utf8_cons, begins]
      rfl
    · rw [utf8_cons, begins]
      exact iff_of_false (fun same => ne_of_wide first ascii (Option.some.inj same))
        (fun same => ne_of_wide wide ascii (Option.some.inj same))

/-- A scan that no byte above ASCII stops goes over all the bytes of a character. -/
private theorem scan_wide {scan : List Char → List Char × List Char}
    (passes : ∀ b rest, 128 ≤ b.toNat → scan (b :: rest) = (b :: (scan rest).1, (scan rest).2))
    (high : ∀ b ∈ wide, 128 ≤ b.toNat) (rest : List Char) :
    scan (wide ++ rest) = (wide ++ (scan rest).1, (scan rest).2) := by
  induction wide with
  | nil => rfl
  | cons b wide ih =>
    obtain ⟨first, others⟩ := List.forall_mem_cons.mp high
    rw [List.cons_append, passes b _ first, ih others, List.cons_append]

/-- A scan of a text goes on over a character as it goes on over its bytes. -/
private theorem scan_bytesOf {scan : List Char → List Char × List Char}
    (passes : ∀ b rest, 128 ≤ b.toNat → scan (b :: rest) = (b :: (scan rest).1, (scan rest).2))
    (goes : c.toNat < 128 → scan (c :: utf8 rest) = (c :: (scan (utf8 rest)).1, (scan (utf8 rest)).2)) :
    scan (utf8 (c :: rest)) = (bytesOf c ++ (scan (utf8 rest)).1, (scan (utf8 rest)).2) := by
  obtain ascii | wide := Nat.lt_or_ge c.toNat 128
  · rw [utf8_ascii ascii, goes ascii, bytesOf_ascii ascii, List.singleton_append]
  · rw [utf8_cons, scan_wide passes (bytesOf_wide wide)]

theorem throughQuote_plain (escape : ¬(c = '\\' ∧ quote ≠ backtick)) (other : c ≠ quote) (rest : List Char) :
    throughQuote quote (c :: rest) = (c :: (throughQuote quote rest).1, (throughQuote quote rest).2) := by
  cases rest with
  | nil => rfl
  | cons d rest => rw [throughQuote_step, if_neg escape, if_neg other]

private theorem throughQuote_passes (ascii : quote.toNat < 128) (b : Char) (rest : List Char) (wide : 128 ≤ b.toNat) :
    throughQuote quote (b :: rest) = (b :: (throughQuote quote rest).1, (throughQuote quote rest).2) :=
  throughQuote_plain (fun found => ne_of_wide wide (by decide) found.1) (ne_of_wide wide ascii) rest

private theorem throughQuote_utf8 (ascii : quote.toNat < 128) (text : List Char) :
    throughQuote quote (utf8 text) = (utf8 (throughQuote quote text).1, utf8 (throughQuote quote text).2) := by
  have passes := throughQuote_passes ascii
  fun_induction throughQuote quote text with
  | case1 => rfl
  | case2 c =>
    rw [scan_bytesOf passes fun _ => rfl, utf8_cons]
    rfl
  | case3 c d rest escaped ih =>
    obtain ⟨rfl, string⟩ := escaped
    obtain ⟨b, more, begins, high, -⟩ := bytesOf_begins d
    change _ = (utf8 ('\\' :: d :: (throughQuote quote rest).1), utf8 (throughQuote quote rest).2)
    have escape (rest : List Char) : utf8 ('\\' :: rest) = '\\' :: utf8 rest := utf8_ascii (by decide) rest
    rw [escape, escape, utf8_cons, utf8_cons, begins, List.cons_append, List.cons_append, throughQuote_step,
      if_pos ⟨rfl, string⟩, scan_wide passes high, ih]
  | case4 rest plain ih =>
    change _ = (utf8 (quote :: quote :: (throughQuote quote rest).1), utf8 (throughQuote quote rest).2)
    rw [utf8_ascii ascii, utf8_ascii ascii, utf8_ascii ascii, utf8_ascii ascii, throughQuote_step,
      if_neg plain, if_pos rfl, if_pos rfl, ih]
  | case5 d rest different plain =>
    have other : (utf8 (d :: rest)).head? ≠ some quote :=
      fun head => different (Option.some.inj ((head?_utf8 ascii).mp head))
    rw [utf8_ascii ascii]
    cases behind : utf8 (d :: rest) with
    | nil => rw [utf8_ascii ascii]; rfl
    | cons b more =>
      rw [behind] at other
      rw [throughQuote_step, if_neg plain, if_pos rfl, if_neg fun same => other (congrArg some same), utf8_ascii ascii]
      rfl
  | case6 c d rest plain different ih =>
    rw [scan_bytesOf passes fun _ => throughQuote_plain plain different _, ih]
    exact congrArg (·, _) (utf8_cons c _).symm

theorem throughBlockEnd_plain (other : ¬(c = '*' ∧ rest.head? = some '/')) :
    throughBlockEnd (c :: rest) = (c :: (throughBlockEnd rest).1, (throughBlockEnd rest).2) := by
  cases rest with
  | nil => rfl
  | cons d rest => rw [throughBlockEnd_step, if_neg fun found => other ⟨found.1, congrArg some found.2⟩]

private theorem throughBlockEnd_utf8 (text : List Char) :
    throughBlockEnd (utf8 text) = (utf8 (throughBlockEnd text).1, utf8 (throughBlockEnd text).2) := by
  have passes (b : Char) (rest : List Char) (wide : 128 ≤ b.toNat) :
      throughBlockEnd (b :: rest) = (b :: (throughBlockEnd rest).1, (throughBlockEnd rest).2) :=
    throughBlockEnd_plain fun found => ne_of_wide wide (by decide) found.1
  fun_induction throughBlockEnd text with
  | case1 => rfl
  | case2 c =>
    rw [scan_bytesOf passes fun _ => rfl, utf8_cons]
    rfl
  | case3 c d rest found =>
    obtain ⟨rfl, rfl⟩ := found
    rw [utf8_ascii (by decide), utf8_ascii (by decide), throughBlockEnd_step, if_pos ⟨rfl, rfl⟩]
    rfl
  | case4 c d rest plain ih =>
    have other : ¬(c = '*' ∧ (utf8 (d :: rest)).head? = some '/') :=
      fun found => plain ⟨found.1, Option.some.inj ((head?_utf8 (by decide)).mp found.2)⟩
    rw [scan_bytesOf passes fun _ => throughBlockEnd_plain other, ih]
    exact congrArg (·, _) (utf8_cons c _).symm

theorem throughNewline_plain (other : c ≠ '\n') (rest : List Char) :
    throughNewline (c :: rest) = (c :: (throughNewline rest).1, (throughNewline rest).2) := by
  rw [throughNewline, if_neg other]
  rfl

private theorem throughNewline_utf8 (text : List Char) :
    throughNewline (utf8 text) = (utf8 (throughNewline text).1, utf8 (throughNewline text).2) := by
  have passes (b : Char) (rest : List Char) (wide : 128 ≤ b.toNat) :
      throughNewline (b :: rest) = (b :: (throughNewline rest).1, (throughNewline rest).2) :=
    throughNewline_plain (ne_of_wide wide (by decide)) rest
  fun_induction throughNewline text with
  | case1 => rfl
  | case2 rest =>
    rw [utf8_ascii (by decide), throughNewline, if_pos rfl]
    rfl
  | case3 c rest plain ih =>
    rw [scan_bytesOf passes fun _ => throughNewline_plain plain _, ih]
    exact congrArg (·, _) (utf8_cons c _).symm

private theorem opening?_wide (wide : 128 ≤ b.toNat) (rest : List Char) : opening? b rest = none := by
  have other {d : Char} (ascii : d.toNat < 128) : b ≠ d := ne_of_wide wide ascii
  exact opening?_eq_none.mpr ⟨⟨other (by decide), other (by decide), other (by decide), other (by decide)⟩,
    fun found => other (by decide) found.1, fun found => other (by decide) found.1⟩

/-- A run begins with the same byte as it does with a character. -/
private theorem opening?_utf8 (c : Char) (rest : List Char) : opening? c (utf8 rest) = opening? c rest := by
  have star : (utf8 rest).head? = some '*' ↔ rest.head? = some '*' := head?_utf8 (by decide)
  have dash : (utf8 rest).head? = some '-' ↔ rest.head? = some '-' := head?_utf8 (by decide)
  simp only [opening?, star, dash]

private theorem throughCode_passes (b : Char) (rest : List Char) (wide : 128 ≤ b.toNat) :
    throughCode (b :: rest) = (b :: (throughCode rest).1, (throughCode rest).2) :=
  throughCode_step (opening?_wide wide rest)

private theorem ascii_of_opening (opens : (opening? c rest).isSome = true) : c.toNat < 128 := by
  by_contra wide
  rw [opening?_wide (by omega)] at opens
  cases opens

private theorem throughCode_utf8 (text : List Char) :
    throughCode (utf8 text) = (utf8 (throughCode text).1, utf8 (throughCode text).2) := by
  fun_induction throughCode text with
  | case1 => rfl
  | case2 c rest opens =>
    rw [utf8_ascii (ascii_of_opening opens), throughCode, opening?_utf8, if_pos opens, utf8_nil]
  | case3 c rest code ih =>
    have stays : opening? c (utf8 rest) = none := (opening?_utf8 c rest).trans (Option.not_isSome_iff_eq_none.mp code)
    rw [scan_bytesOf throughCode_passes fun _ => throughCode_step stays, ih]
    exact congrArg (·, _) (utf8_cons c _).symm

private theorem split_utf8 (kind : SegmentKind) (text : List Char) :
    split kind (utf8 text) = (utf8 (split kind text).1, utf8 (split kind text).2) := by
  cases kind with
  | code => exact throughCode_utf8 text
  | stringLiteral | doubleQuoted | backticked => exact throughQuote_utf8 (by decide) text
  | lineComment => exact throughNewline_utf8 text
  | blockComment =>
    cases text with
    | nil => rfl
    | cons c rest =>
      obtain ⟨b, more, begins, high, -⟩ := bytesOf_begins c
      have inside : throughBlockEnd (more ++ utf8 rest) =
          (more ++ utf8 (throughBlockEnd rest).1, utf8 (throughBlockEnd rest).2) := by
        rw [scan_wide (fun b rest wide => throughBlockEnd_plain fun found => ne_of_wide wide (by decide) found.1) high,
          throughBlockEnd_utf8]
      change split _ (utf8 (c :: rest)) = (utf8 (c :: (throughBlockEnd rest).1), utf8 (throughBlockEnd rest).2)
      rw [utf8_cons, utf8_cons, begins, List.cons_append, List.cons_append]
      change (b :: (throughBlockEnd (more ++ utf8 rest)).1, (throughBlockEnd (more ++ utf8 rest)).2) = _
      rw [inside]

/-- The bytes of a text are split where its characters are. -/
theorem ofText_utf8 (text : List Char) :
    ofText (utf8 text) = (ofText text).map fun segment => ⟨segment.kind, utf8 segment.text⟩ := by
  fun_induction ofText text with
  | case1 => rw [utf8_nil, ofText, List.map_nil]
  | case2 c rest kind ih =>
    rw [List.map_cons, ← ih]
    cases opens : opening? c rest with
    | some found =>
      have ascii : c.toNat < 128 := ascii_of_opening (by rw [opens]; rfl)
      rw [show kind = found from congrArg (·.getD .code) opens, utf8_ascii ascii, utf8_ascii ascii,
        ofText_cons, opening?_utf8, opens, Option.getD_some, split_utf8]
    | none =>
      obtain ⟨b, more, begins, high, same⟩ := bytesOf_begins c
      have code : opening? b (more ++ utf8 rest) = none := by
        rcases same with ⟨rfl, rfl⟩ | ⟨wide, -⟩
        · exact (opening?_utf8 b rest).trans opens
        · exact opening?_wide wide _
      have inside :
          throughCode (more ++ utf8 rest) = (more ++ utf8 (throughCode rest).1, utf8 (throughCode rest).2) := by
        rw [scan_wide throughCode_passes high, throughCode_utf8]
      rw [show kind = .code from congrArg (·.getD .code) opens, utf8_cons, utf8_cons, begins,
        List.cons_append, ofText_cons, code, Option.getD_none]
      change ⟨.code, b :: (throughCode _).1⟩ :: ofText (throughCode _).2 = _
      rw [inside]
      rfl

end Bytes

/-- What a text is split into covers it, and is found again from any cut between two segments. -/
theorem segmented_ofText (text : List Char) : Segmented text (ofText text) where
  whole := flatMap_text_ofText text
  written := text_ne_nil text
  alternate := alternate_ofText text
  plain := isPlain_ofText text
  closed := isClosed_ofText text
  before := ofText_take text
  behind := ofText_drop text
  bytes := ofText_utf8 text

end QueryFacts.Proofs.Segmentation
