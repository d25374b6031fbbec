/-! The encodings of SQL files: UTF-8 where the bytes allow it, otherwise what a byte
order mark says, and otherwise windows-1252. -/

namespace QueryFacts.Text

/-- The character with a code point, which must not be that of a surrogate. -/
def scalar? (code : Nat) : Option Char := if code.isValidChar then some (Char.ofNat code) else none

/-- The lower six bits of a byte that continues a character. -/
def continuation? (byte : UInt8) : Option Nat := if byte.toNat / 64 = 2 then some (byte.toNat % 64) else none

/-- The bits of a character in its first byte, the number of bytes that follow, and the
least code point that needs so many. -/
def utf8Form? (first : UInt8) : Option (Nat × Nat × Nat) :=
  let lead := first.toNat
  if lead < 0x80 then some (lead, 0, 0)
  else if lead < 0xC0 then none
  else if lead < 0xE0 then some (lead % 32, 1, 0x80)
  else if lead < 0xF0 then some (lead % 16, 2, 0x800)
  else if lead < 0xF8 then some (lead % 8, 3, 0x10000)
  else none

/-- The character that starts with `first`, and how many bytes of `rest` belong to it. -/
def utf8Char? (first : UInt8) (rest : List UInt8) : Option (Char × Nat) := do
  let (start, count, least) ← utf8Form? first
  let tail ← (rest.take count).mapM continuation?
  let code := tail.foldl (fun code bits => code * 64 + bits) start
  if tail.length < count ∨ code < least then none else return (← scalar? code, count)

def utf8? : List UInt8 → Option (List Char)
  | [] => some []
  | first :: rest =>
    match utf8Char? first rest with
    | none => none
    | some (c, count) => (utf8? (rest.drop count)).map (c :: ·)
termination_by bytes => bytes.length
decreasing_by simp only [List.length_drop, List.length_cons]; omega

/-- The units of two bytes each that `combine` makes; their number of bytes must be even. -/
def units? (combine : UInt8 → UInt8 → Nat) : List UInt8 → Option (List Nat)
  | [] => some []
  | [_] => none
  | first :: second :: rest => (units? combine rest).map (combine first second :: ·)

/-- Units of UTF-16: two surrogates in a row, high and low, are one character. -/
def utf16? : List Nat → Option (List Char)
  | [] => some []
  | [unit] => (scalar? unit).map ([·])
  | unit :: next :: rest =>
    if 0xD800 ≤ unit ∧ unit < 0xDC00 ∧ 0xDC00 ≤ next ∧ next < 0xE000 then do
      let c ← scalar? (0x10000 + (unit - 0xD800) * 0x400 + (next - 0xDC00))
      return c :: (← utf16? rest)
    else do
      let c ← scalar? unit
      return c :: (← utf16? (next :: rest))

/-- The characters of windows-1252 from 0x80 to 0x9F. Bytes without a character of their
own stand for the control character with their code. -/
def windows1252Table : List Nat := [
  0x20AC, 0x81, 0x201A, 0x0192, 0x201E, 0x2026, 0x2020, 0x2021, 0x02C6, 0x2030, 0x0160, 0x2039, 0x0152, 0x8D,
  0x017D, 0x8F, 0x90, 0x2018, 0x2019, 0x201C, 0x201D, 0x2022, 0x2013, 0x2014, 0x02DC, 0x2122, 0x0161, 0x203A,
  0x0153, 0x9D, 0x017E, 0x0178]

def windows1252 (byte : UInt8) : Char :=
  let code := byte.toNat
  Char.ofNat (if 0x80 ≤ code ∧ code < 0xA0 then windows1252Table.getD (code - 0x80) code else code)

/-- Bytes that are not UTF-8 as a whole. -/
def fallback? : List UInt8 → Option (List Char)
  | 0xEF :: 0xBB :: 0xBF :: rest => utf8? rest
  | 0xFF :: 0xFE :: rest => (units? (fun low high => high.toNat * 256 + low.toNat) rest).bind utf16?
  | 0xFE :: 0xFF :: rest => (units? (fun high low => high.toNat * 256 + low.toNat) rest).bind utf16?
  | bytes => some (bytes.map windows1252)

def byteOrderMark : Char := '\uFEFF'

def dropMark : List Char → List Char
  | c :: rest => if c = byteOrderMark then rest else c :: rest
  | [] => []

/-- The text of a file, without one byte order mark at its start. -/
def decode? (bytes : List UInt8) : Option (List Char) := ((utf8? bytes).or (fallback? bytes)).map dropMark

end QueryFacts.Text
