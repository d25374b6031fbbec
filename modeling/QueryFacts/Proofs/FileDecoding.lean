import Mathlib.Data.List.Basic
import QueryFacts.FileTree

/-! What is read from a file is what was written to it, whichever encoding it was written in. A
character and its bytes in UTF-8 determine each other, so that bytes in another encoding are only
taken for UTF-8 where they are. -/

namespace QueryFacts

namespace Text

def utf8Bytes (text : List Char) : List UInt8 := text.flatMap String.utf8EncodeChar

/-- The units of a character in UTF-16. -/
def utf16Units (c : Char) : List Nat :=
  if c.toNat < 0x10000 then [c.toNat]
  else [0xD800 + (c.toNat - 0x10000) / 0x400, 0xDC00 + (c.toNat - 0x10000) % 0x400]

def littleEndian (unit : Nat) : List UInt8 := [.ofNat (unit % 256), .ofNat (unit / 256)]

def bigEndian (unit : Nat) : List UInt8 := [.ofNat (unit / 256), .ofNat (unit % 256)]

def utf16Bytes (order : Nat → List UInt8) (text : List Char) : List UInt8 := (text.flatMap utf16Units).flatMap order

/-- The byte for a character of windows-1252. -/
def fromWindows1252 (c : Char) : UInt8 :=
  match windows1252Table.idxOf? c.toNat with
  | some place => .ofNat (0x80 + place)
  | none => .ofNat c.toNat

/-- How the texts start that say by themselves how they are encoded. -/
def byteOrderMarks : List (List UInt8) := [[0xEF, 0xBB, 0xBF], [0xFF, 0xFE], [0xFE, 0xFF]]

/-- A text without the byte order mark that it may start with. -/
inductive Unmarked : List Char → List Char → Prop where
  | marked (text : List Char) : Unmarked (byteOrderMark :: text) text
  | bare {text : List Char} (unmarked : text.head? ≠ some byteOrderMark) : Unmarked text text

end Text

/-- A file with these bytes has this text. -/
def FileTree.Shows (bytes : List UInt8) (text : List Char) : Prop :=
  ∀ (tree : FileTree) (path : String), tree.read path = .ok bytes → tree.readText path = .ok text

namespace Proofs.FileDecoding
open Text FileTree

private theorem toNat_lt (c : Char) : c.toNat < 0x110000 :=
  c.valid.elim (fun low => Nat.lt_trans low (by decide)) fun high => high.2

section Utf8

theorem scalar?_eq_some_iff {code : Nat} {c : Char} : scalar? code = some c ↔ code = c.toNat := by
  unfold scalar?
  constructor
  · intro found
    split at found
    next valid =>
      obtain rfl := Option.some.inj found
      rw [Char.ofNat, dif_pos valid]
      rfl
    next => cases found
  · rintro rfl
    rw [if_pos (show c.toNat.isValidChar from c.valid), Char.ofNat_toNat]

/-- A byte that continues a character with six bits. -/
def continuing (bits : Nat) : UInt8 := .ofNat (bits + 128)

theorem continuation?_eq_some_iff {byte : UInt8} {bits : Nat} :
    continuation? byte = some bits ↔ bits < 64 ∧ byte = continuing bits := by
  have small := byte.toNat_lt
  rw [← UInt8.toNat_inj, continuing, UInt8.toNat_ofNat']
  unfold continuation?
  split
  next lead =>
    rw [Option.some.injEq]
    omega
  next other =>
    constructor
    · intro found
      cases found
    · omega

theorem mapM_continuation? {bytes : List UInt8} {tail : List Nat} :
    bytes.mapM continuation? = some tail ↔ (∀ bits ∈ tail, bits < 64) ∧ bytes = tail.map continuing := by
  induction bytes generalizing tail with
  | nil => cases tail <;> simp
  | cons byte rest ih =>
    rw [List.mapM_cons]
    constructor
    · intro read
      obtain ⟨bits, first, later⟩ := Option.bind_eq_some_iff.mp read
      obtain ⟨others, more, same⟩ := Option.bind_eq_some_iff.mp later
      obtain rfl := Option.some.inj same
      obtain ⟨small, rfl⟩ := continuation?_eq_some_iff.mp first
      obtain ⟨each, rfl⟩ := ih.mp more
      exact ⟨List.forall_mem_cons.mpr ⟨small, each⟩, rfl⟩
    · rintro ⟨each, split⟩
      cases tail with
      | nil => cases split
      | cons bits others =>
        obtain ⟨small, later⟩ := List.forall_mem_cons.mp each
        obtain ⟨rfl, rfl⟩ := List.cons.inj split
        rw [continuation?_eq_some_iff.mpr ⟨small, rfl⟩, ih.mpr ⟨later, rfl⟩]
        rfl

/-- The first byte of a character, by the bits in it, the number of bytes that follow, and the
least code point that needs so many. -/
inductive Leads (first : UInt8) : Nat → Nat → Nat → Prop where
  | one {start : Nat} (lead : first.toNat = start) (small : start < 128) : Leads first start 0 0
  | two {start : Nat} (lead : first.toNat = start + 192) (small : start < 32) : Leads first start 1 0x80
  | three {start : Nat} (lead : first.toNat = start + 224) (small : start < 16) : Leads first start 2 0x800
  | four {start : Nat} (lead : first.toNat = start + 240) (small : start < 8) : Leads first start 3 0x10000

theorem utf8Form?_eq_some_iff {first : UInt8} {start count least : Nat} :
    utf8Form? first = some (start, count, least) ↔ Leads first start count least := by
  simp only [utf8Form?]
  constructor
  · intro found
    split at found
    · simp only [Option.some.injEq, Prod.mk.injEq] at found
      obtain ⟨same, rfl, rfl⟩ := found
      exact .one same (by omega)
    split at found
    · cases found
    split at found
    · simp only [Option.some.injEq, Prod.mk.injEq] at found
      obtain ⟨same, rfl, rfl⟩ := found
      exact .two (by omega) (by omega)
    split at found
    · simp only [Option.some.injEq, Prod.mk.injEq] at found
      obtain ⟨same, rfl, rfl⟩ := found
      exact .three (by omega) (by omega)
    split at found
    · simp only [Option.some.injEq, Prod.mk.injEq] at found
      obtain ⟨same, rfl, rfl⟩ := found
      exact .four (by omega) (by omega)
    · cases found
  · intro leads
    cases leads with
    | one lead small => rw [if_pos (by omega), lead]
    | two lead small =>
      have bits : first.toNat % 32 = start := by omega
      rw [if_neg (by omega), if_neg (by omega), if_pos (by omega), bits]
    | three lead small =>
      have bits : first.toNat % 16 = start := by omega
      rw [if_neg (by omega), if_neg (by omega), if_neg (by omega), if_pos (by omega), bits]
    | four lead small =>
      have bits : first.toNat % 8 = start := by omega
      rw [if_neg (by omega), if_neg (by omega), if_neg (by omega), if_neg (by omega), if_pos (by omega), bits]

/-- The code point that the bits of all bytes make. -/
def codePoint (start : Nat) (tail : List Nat) : Nat := tail.foldl (fun code bits => code * 64 + bits) start

/-- The bytes of a character, by the bits in them. -/
structure Spells (c : Char) (first : UInt8) (start : Nat) (tail : List Nat) : Prop where
  leads : ∃ least, Leads first start tail.length least ∧ least ≤ c.toNat
  bits : ∀ bits ∈ tail, bits < 64
  code : codePoint start tail = c.toNat

theorem spells_utf8EncodeChar (c : Char) : ∃ first start tail,
    String.utf8EncodeChar c = first :: tail.map continuing ∧ Spells c first start tail := by
  have bound := toNat_lt c
  have value (code : Nat) (small : code < 256) : (UInt8.ofNat code).toNat = code := by
    rw [UInt8.toNat_ofNat']
    omega
  simp only [String.utf8EncodeChar, Char.toNat_val]
  split
  next one =>
    refine ⟨_, c.toNat, [], rfl, ⟨0, .one (value _ (by omega)) (by omega), Nat.zero_le _⟩, nofun, rfl⟩
  split
  next two =>
    refine ⟨_, c.toNat / 64 % 32, [c.toNat % 64], rfl, ⟨0x80, .two (value _ (by omega)) (by omega), by omega⟩, ?_, ?_⟩
    · simp only [List.forall_mem_singleton]
      omega
    · simp only [codePoint, List.foldl]
      omega
  split
  next three =>
    refine ⟨_, c.toNat / 4096 % 16, [c.toNat / 64 % 64, c.toNat % 64], rfl,
      ⟨0x800, .three (value _ (by omega)) (by omega), by omega⟩, ?_, ?_⟩
    · intro bits member
      simp only [List.mem_cons, List.not_mem_nil, or_false] at member
      omega
    · simp only [codePoint, List.foldl]
      omega
  next four =>
    refine ⟨_, c.toNat / 262144 % 8, [c.toNat / 4096 % 64, c.toNat / 64 % 64, c.toNat % 64], rfl,
      ⟨0x10000, .four (value _ (by omega)) (by omega), by omega⟩, ?_, ?_⟩
    · intro bits member
      simp only [List.mem_cons, List.not_mem_nil, or_false] at member
      omega
    · simp only [codePoint, List.foldl]
      omega

theorem Spells.utf8EncodeChar {c : Char} {first : UInt8} {start : Nat} {tail : List Nat}
    (spells : Spells c first start tail) :
    String.utf8EncodeChar c = first :: tail.map continuing := by
  obtain ⟨⟨least, leads, needs⟩, small, code⟩ := spells
  have first_eq (byte : Nat) (same : byte = first.toNat) : UInt8.ofNat byte = first := by rw [same, UInt8.ofNat_toNat]
  simp only [String.utf8EncodeChar, Char.toNat_val]
  generalize count : tail.length = number at leads
  cases leads with
  | one lead below =>
    obtain rfl := List.length_eq_zero_iff.mp count
    simp only [codePoint, List.foldl] at code
    rw [if_pos (by omega), first_eq c.toNat (by omega)]
    rfl
  | two lead below =>
    obtain ⟨a, rfl⟩ := List.length_eq_one_iff.mp count
    simp only [codePoint, List.foldl] at code
    simp only [List.forall_mem_singleton] at small
    have last : c.toNat % 64 = a := by omega
    rw [if_neg (by omega), if_pos (by omega), first_eq (c.toNat / 64 % 32 + 192) (by omega), last]
    rfl
  | three lead below =>
    obtain ⟨a, b, rfl⟩ := List.length_eq_two.mp count
    simp only [codePoint, List.foldl] at code
    simp only [List.forall_mem_cons] at small
    have middle : c.toNat / 64 % 64 = a := by omega
    have last : c.toNat % 64 = b := by omega
    rw [if_neg (by omega), if_neg (by omega), if_pos (by omega),
      first_eq (c.toNat / 4096 % 16 + 224) (by omega), middle, last]
    rfl
  | four lead below =>
    obtain ⟨a, b, d, rfl⟩ := List.length_eq_three.mp count
    simp only [codePoint, List.foldl] at code
    simp only [List.forall_mem_cons] at small
    have second : c.toNat / 4096 % 64 = a := by omega
    have third : c.toNat / 64 % 64 = b := by omega
    have last : c.toNat % 64 = d := by omega
    rw [if_neg (by omega), if_neg (by omega), if_neg (by omega),
      first_eq (c.toNat / 262144 % 8 + 240) (by omega), second, third, last]
    rfl

theorem utf8Char?_eq_some_iff {first : UInt8} {rest : List UInt8} {c : Char} {count : Nat} :
    utf8Char? first rest = some (c, count) ↔
      ∃ start tail, Spells c first start tail ∧ tail.length = count ∧ rest.take count = tail.map continuing := by
  constructor
  · intro found
    obtain ⟨⟨start, number, least⟩, form, found⟩ := Option.bind_eq_some_iff.mp found
    obtain ⟨tail, read, found⟩ := Option.bind_eq_some_iff.mp found
    obtain ⟨small, same⟩ := mapM_continuation?.mp read
    extract_lets code at found
    split at found
    next => cases found
    next enough =>
      obtain ⟨d, scalar, found⟩ := Option.bind_eq_some_iff.mp found
      obtain ⟨rfl, rfl⟩ := Prod.mk.inj (Option.some.inj found)
      have point : codePoint start tail = d.toNat := scalar?_eq_some_iff.mp scalar
      have taken : (rest.take number).length = tail.length := by rw [same, List.length_map]
      have length : tail.length = number := by
        rw [List.length_take] at taken
        omega
      refine ⟨start, tail, ⟨⟨least, ?_, ?_⟩, small, point⟩, length, same⟩
      · rw [length]
        exact utf8Form?_eq_some_iff.mp form
      · rw [← point]
        exact Nat.le_of_not_lt fun below => enough (.inr below)
  · rintro ⟨start, tail, ⟨⟨least, leads, needs⟩, small, code⟩, rfl, same⟩
    have point : tail.foldl (fun code bits => code * 64 + bits) start = c.toNat := code
    have enough : ¬(tail.length < tail.length ∨ c.toNat < least) := by omega
    simp only [utf8Char?, utf8Form?_eq_some_iff.mpr leads, mapM_continuation?.mpr ⟨small, same⟩,
      Option.bind_eq_bind, Option.bind_some, point, if_neg enough, scalar?_eq_some_iff.mpr rfl]
    rfl

theorem utf8?_cons {first : UInt8} {rest : List UInt8} : utf8? (first :: rest) =
    (utf8Char? first rest).bind fun found => (utf8? (rest.drop found.2)).map (found.1 :: ·) := by
  rw [utf8?]
  cases utf8Char? first rest <;> rfl

theorem utf8?_append (c : Char) (rest : List UInt8) :
    utf8? (String.utf8EncodeChar c ++ rest) = (utf8? rest).map (c :: ·) := by
  obtain ⟨first, start, tail, encoded, spells⟩ := spells_utf8EncodeChar c
  have read : utf8Char? first (tail.map continuing ++ rest) = some (c, tail.length) := by
    apply utf8Char?_eq_some_iff.mpr
    exact ⟨start, tail, spells, rfl, List.take_left' (List.length_map _)⟩
  rw [encoded, List.cons_append, utf8?_cons, read, Option.bind_some, List.drop_left' (List.length_map _)]

/-- Bytes are read as the one text whose bytes they are. -/
theorem utf8?_eq_some_iff {bytes : List UInt8} {text : List Char} :
    utf8? bytes = some text ↔ bytes = utf8Bytes text := by
  constructor
  · intro read
    induction text generalizing bytes with
    | nil =>
      cases bytes with
      | nil => rfl
      | cons first rest =>
        rw [utf8?_cons] at read
        obtain ⟨found, -, more⟩ := Option.bind_eq_some_iff.mp read
        obtain ⟨others, -, same⟩ := Option.map_eq_some_iff.mp more
        cases same
    | cons c text ih =>
      cases bytes with
      | nil =>
        rw [utf8?] at read
        cases read
      | cons first rest =>
        rw [utf8?_cons] at read
        obtain ⟨⟨d, count⟩, char, more⟩ := Option.bind_eq_some_iff.mp read
        obtain ⟨others, later, same⟩ := Option.map_eq_some_iff.mp more
        obtain ⟨rfl, rfl⟩ := List.cons.inj same
        obtain ⟨start, tail, spells, rfl, taken⟩ := utf8Char?_eq_some_iff.mp char
        -- The first character has its own bytes, and what is behind them is the rest of the text.
        have left : first :: rest.take tail.length = String.utf8EncodeChar d := by rw [spells.utf8EncodeChar, taken]
        calc
          first :: rest = first :: rest.take tail.length ++ rest.drop tail.length := by
            rw [List.cons_append, List.take_append_drop]
          _ = String.utf8EncodeChar d ++ utf8Bytes others := by rw [left, ih later]
          _ = utf8Bytes (d :: others) := List.flatMap_cons.symm
  · rintro rfl
    induction text with
    | nil => rw [utf8Bytes, List.flatMap_nil, utf8?]
    | cons c text ih => rw [utf8Bytes, List.flatMap_cons, utf8?_append, ← utf8Bytes, ih, Option.map_some]

end Utf8

section Utf16

theorem units?_flatMap {combine : UInt8 → UInt8 → Nat} {order : Nat → List UInt8}
    (reads : ∀ unit < 0x10000, ∃ first second, order unit = [first, second] ∧ combine first second = unit)
    {units : List Nat}
    (small : ∀ unit ∈ units, unit < 0x10000) : units? combine (units.flatMap order) = some units := by
  induction units with
  | nil => rfl
  | cons unit rest ih =>
    obtain ⟨here, later⟩ := List.forall_mem_cons.mp small
    obtain ⟨first, second, written, combined⟩ := reads unit here
    rw [List.flatMap_cons, written, List.cons_append, List.cons_append, List.nil_append, units?, ih later, combined,
      Option.map_some]

theorem utf16Units_small {c : Char} : ∀ unit ∈ utf16Units c, unit < 0x10000 := by
  have bound := toNat_lt c
  intro unit member
  unfold utf16Units at member
  split at member
  · simp only [List.mem_singleton] at member
    omega
  · simp only [List.mem_cons, List.not_mem_nil, or_false] at member
    omega

theorem utf16?_append (c : Char) (rest : List Nat) : utf16? (utf16Units c ++ rest) = (utf16? rest).map (c :: ·) := by
  have scalar : scalar? c.toNat = some c := scalar?_eq_some_iff.mpr rfl
  have valid : c.toNat < 0xD800 ∨ 0xDFFF < c.toNat ∧ c.toNat < 0x110000 := c.valid
  unfold utf16Units
  split
  next small =>
    have single : ¬(0xD800 ≤ c.toNat ∧ c.toNat < 0xDC00) := by omega
    cases rest with
    | nil =>
      have one : utf16? [c.toNat] = some [c] := by rw [utf16?, scalar, Option.map_some]
      rw [List.append_nil, one]
      rfl
    | cons next others =>
      rw [List.cons_append, List.nil_append, utf16?, if_neg fun pair => single ⟨pair.1, pair.2.1⟩, scalar]
      cases utf16? (next :: others) <;> rfl
  next large =>
    have pair : 0xD800 ≤ 0xD800 + (c.toNat - 0x10000) / 0x400 ∧ 0xD800 + (c.toNat - 0x10000) / 0x400 < 0xDC00 ∧
        0xDC00 ≤ 0xDC00 + (c.toNat - 0x10000) % 0x400 ∧ 0xDC00 + (c.toNat - 0x10000) % 0x400 < 0xE000 := by omega
    have whole : 0x10000 + (0xD800 + (c.toNat - 0x10000) / 0x400 - 0xD800) * 0x400 +
        (0xDC00 + (c.toNat - 0x10000) % 0x400 - 0xDC00) = c.toNat := by omega
    rw [List.cons_append, List.cons_append, List.nil_append, utf16?, if_pos pair, whole, scalar]
    cases utf16? rest <;> rfl

theorem utf16?_flatMap (text : List Char) : utf16? (text.flatMap utf16Units) = some text := by
  induction text with
  | nil => rw [List.flatMap_nil, utf16?]
  | cons c text ih => rw [List.flatMap_cons, utf16?_append, ih, Option.map_some]

/-- Bytes in an order that `combine` undoes are read as their text. -/
theorem utf16?_utf16Bytes {combine : UInt8 → UInt8 → Nat} {order : Nat → List UInt8}
    (reads : ∀ unit < 0x10000, ∃ first second, order unit = [first, second] ∧ combine first second = unit)
    (text : List Char) :
    (units? combine (utf16Bytes order text)).bind utf16? = some text := by
  have small : ∀ unit ∈ text.flatMap utf16Units, unit < 0x10000 := by
    intro unit member
    obtain ⟨c, -, inside⟩ := List.mem_flatMap.mp member
    exact utf16Units_small unit inside
  rw [utf16Bytes, units?_flatMap reads small, Option.bind_some, utf16?_flatMap]

theorem littleEndian_reads (unit : Nat) (small : unit < 0x10000) :
    ∃ first second : UInt8, littleEndian unit = [first, second] ∧ second.toNat * 256 + first.toNat = unit := by
  refine ⟨_, _, rfl, ?_⟩
  rw [UInt8.toNat_ofNat', UInt8.toNat_ofNat']
  omega

theorem bigEndian_reads (unit : Nat) (small : unit < 0x10000) :
    ∃ first second : UInt8, bigEndian unit = [first, second] ∧ first.toNat * 256 + second.toNat = unit := by
  refine ⟨_, _, rfl, ?_⟩
  rw [UInt8.toNat_ofNat', UInt8.toNat_ofNat']
  omega

end Utf16

section Windows

theorem fromWindows1252_windows1252 (byte : UInt8) : fromWindows1252 (windows1252 byte) = byte := by
  have all : ∀ code < 256, fromWindows1252 (windows1252 (.ofNat code)) = .ofNat code := by decide +kernel
  have same := all byte.toNat byte.toNat_lt
  rwa [UInt8.ofNat_toNat] at same

theorem windows1252_injective : Function.Injective windows1252 :=
  Function.LeftInverse.injective fromWindows1252_windows1252

/-- No byte is read as a byte order mark. -/
theorem windows1252_ne_mark (byte : UInt8) : windows1252 byte ≠ byteOrderMark := by
  intro same
  have code : byte = fromWindows1252 byteOrderMark := by rw [← same, fromWindows1252_windows1252]
  rw [code] at same
  exact absurd same (by decide)

theorem fallback?_eq_windows1252 {bytes : List UInt8} (unmarked : ∀ mark ∈ byteOrderMarks, ¬mark.IsPrefix bytes) :
    fallback? bytes = some (bytes.map windows1252) := by
  unfold fallback?
  split
  next rest => exact absurd (List.prefix_append [0xEF, 0xBB, 0xBF] rest) (unmarked _ (by decide))
  next rest => exact absurd (List.prefix_append [0xFF, 0xFE] rest) (unmarked _ (by decide))
  next rest => exact absurd (List.prefix_append [0xFE, 0xFF] rest) (unmarked _ (by decide))
  next => rfl

end Windows

section Files

theorem unmarked_dropMark (written : List Char) : Unmarked written (dropMark written) := by
  unfold dropMark
  split
  next c rest =>
    split
    next same => exact same ▸ .marked rest
    next other => exact .bare fun head => other (Option.some.inj head)
  next => exact .bare nofun

theorem shows_of_decode? {bytes : List UInt8} {text : List Char} (decoded : decode? bytes = some text) :
    Shows bytes text := by
  intro tree path read
  rw [readText, read]
  simp only [decoded]

theorem shows_utf8 (written : List Char) : Shows (utf8Bytes written) (dropMark written) := by
  apply shows_of_decode?
  rw [decode?, utf8?_eq_some_iff.mpr rfl, Option.some_or, Option.map_some]

theorem utf8?_of_lead {first : UInt8} (rest : List UInt8) (no : utf8Form? first = none) :
    utf8? (first :: rest) = none := by
  have none : utf8Char? first rest = none := by
    rw [utf8Char?, no]
    rfl
  rw [utf8?_cons, none, Option.bind_none]

theorem shows_utf16 (written : List Char) : Shows ([0xFF, 0xFE] ++ utf16Bytes littleEndian written) (dropMark written) ∧
    Shows ([0xFE, 0xFF] ++ utf16Bytes bigEndian written) (dropMark written) := by
  constructor
  · apply shows_of_decode?
    -- No character of UTF-8 begins with the first byte of this mark, nor of the other one.
    have noUtf8 : utf8? ([0xFF, 0xFE] ++ utf16Bytes littleEndian written) = none := utf8?_of_lead _ rfl
    have read := utf16?_utf16Bytes littleEndian_reads written
    rw [decode?, noUtf8, Option.none_or]
    exact congrArg (Option.map dropMark) read
  · apply shows_of_decode?
    have noUtf8 : utf8? ([0xFE, 0xFF] ++ utf16Bytes bigEndian written) = none := utf8?_of_lead _ rfl
    have read := utf16?_utf16Bytes bigEndian_reads written
    rw [decode?, noUtf8, Option.none_or]
    exact congrArg (Option.map dropMark) read

/-- With a byte order mark before it a text is read as it is, even if it starts with one itself. -/
theorem shows_marked (text : List Char) : Shows ([0xEF, 0xBB, 0xBF] ++ utf8Bytes text) text := by
  have mark : String.utf8EncodeChar byteOrderMark = [0xEF, 0xBB, 0xBF] := by decide
  have shown := shows_utf8 (byteOrderMark :: text)
  rw [utf8Bytes, List.flatMap_cons, mark, ← utf8Bytes] at shown
  exact shown

theorem shows_windows1252 {bytes : List UInt8} (other : ∀ text, bytes ≠ utf8Bytes text)
    (unmarked : ∀ mark ∈ byteOrderMarks, ¬mark.IsPrefix bytes) : Shows bytes (bytes.map windows1252) := by
  apply shows_of_decode?
  have noUtf8 : utf8? bytes = none := by
    apply Option.eq_none_iff_forall_ne_some.mpr
    intro text read
    exact other text (utf8?_eq_some_iff.mp read)
  have bare : dropMark (bytes.map windows1252) = bytes.map windows1252 := by
    cases bytes with
    | nil => rfl
    | cons byte rest => rw [List.map_cons, dropMark, if_neg (windows1252_ne_mark byte)]
  rw [decode?, noUtf8, Option.none_or, fallback?_eq_windows1252 unmarked, Option.map_some, bare]

/-- A file shows the text that was written to it in one of the encodings of Unicode, up to a byte
order mark, and of other bytes the characters of windows-1252, each for one byte. -/
theorem shows_written :
    (∀ bytes, ∃ (tree : FileTree) (path : String), tree.read path = .ok bytes) ∧
      (∀ written, ∃ text, Unmarked written text ∧ Shows (utf8Bytes written) text ∧
        Shows ([0xFF, 0xFE] ++ utf16Bytes littleEndian written) text ∧
        Shows ([0xFE, 0xFF] ++ utf16Bytes bigEndian written) text) ∧
      (∀ text, Shows ([0xEF, 0xBB, 0xBF] ++ utf8Bytes text) text) ∧
      Function.Injective windows1252 ∧
      ∀ bytes, (∀ text, bytes ≠ utf8Bytes text) → (∀ mark ∈ byteOrderMarks, ¬mark.IsPrefix bytes) →
        Shows bytes (bytes.map windows1252) := by
  refine ⟨?_, ?_, shows_marked, windows1252_injective, fun bytes => shows_windows1252⟩
  · intro bytes
    exact ⟨{ files := [(["a.sql"], bytes)] }, "a.sql", rfl⟩
  · intro written
    obtain ⟨little, big⟩ := shows_utf16 written
    exact ⟨dropMark written, unmarked_dropMark written, shows_utf8 written, little, big⟩

/-- Of two byte order marks one is left, and without one a byte is a character. -/
theorem readText_encodings :
    let tree : FileTree :=
      { files :=
        [(["a.sql"], [0xFF, 0xFE, 0xFF, 0xFE, 0xFF, 0xFE, 0x3D, 0xD8, 0x00, 0xDE]), (["b.sql"], [0xE9, 0x74, 0xE9])] }
    tree.readText "a.sql" = .ok [byteOrderMark, '😀'] ∧ tree.readText "b.sql" = .ok ['é', 't', 'é'] := by
  obtain ⟨-, encoded, -, -, others⟩ := shows_written
  constructor
  · obtain ⟨text, unmarked, -, little, -⟩ := encoded [byteOrderMark, byteOrderMark, '😀']
    have shown : text = [byteOrderMark, '😀'] := by
      cases unmarked with
      | marked => rfl
      | bare bare => exact absurd rfl bare
    rw [← shown]
    exact little _ _ rfl
  · have noUtf8 : utf8? [0xE9, 0x74, 0xE9] = none := by
      rw [utf8?_cons]
      rfl
    apply others [0xE9, 0x74, 0xE9]
    · intro text same
      cases noUtf8.symm.trans (utf8?_eq_some_iff.mpr same)
    · decide
    · rfl

end Files

end Proofs.FileDecoding

end QueryFacts
