import QueryFacts.Text.Quote

/-! The bodies of quoted tokens, read after the opening quote. Reading gives the body
and the rest of the text; `none` says that the quote is never closed or, in an escaped
string, that an escape has no character. -/

namespace QueryFacts.Lexer
open Text

/-- A body and the rest of the text after it. -/
abbrev Body := List Char × List Char

private def push (c : Char) (body : Body) : Body := (c :: body.1, body.2)

/-- The character that a backslash and `c` stand for in a string. -/
def unescape (c : Char) : Char :=
  match c with
  | '0' => '\x00'
  | 'a' => '\x07'
  | 'b' => '\x08'
  | 'f' => '\x0C'
  | 'n' => '\n'
  | 'r' => '\r'
  | 't' => '\t'
  | 'Z' => '\x1A'
  | other => other

/-- Up to the closing quote; a doubled quote stands for one. With `escapes`, a
backslash and the character after it stand for one character. -/
def quotedBody (quote : Char) (escapes : Bool) : List Char → Option Body
  | [] => none
  | [c] => if c = quote then some ([], []) else none
  | c :: d :: rest =>
    if c = quote then
      if d = quote then (quotedBody quote escapes rest).map (push quote) else some ([], d :: rest)
    else if escapes && c == '\\' then (quotedBody quote escapes rest).map (push (unescape d))
    else (quotedBody quote escapes (d :: rest)).map (push c)

def isHexDigit (c : Char) : Bool := c.isDigit || ('a' ≤ c && c ≤ 'f') || ('A' ≤ c && c ≤ 'F')

def isOctalDigit (c : Char) : Bool := '0' ≤ c && c ≤ '7'

def digitValue (c : Char) : Nat :=
  if c.isDigit then c.toNat - 48 else if 'a' ≤ c then c.toNat - 87 else c.toNat - 55

/-- The number that digits of a base write. -/
def ofDigits (base : Nat) (digits : List Char) : Nat :=
  digits.foldl (fun value digit => value * base + digitValue digit) 0

/-- The character with the code point that hexadecimal digits write, perhaps after a plus sign. -/
def codePoint? (text : List Char) : Option Char :=
  let digits := match text with
    | '+' :: rest => rest
    | other => other
  if digits ≠ [] ∧ digits.all isHexDigit ∧ (ofDigits 16 digits).isValidChar then
    some (Char.ofNat (ofDigits 16 digits))
  else none

/-- The character whose code is the last byte of a number; only ASCII codes count. -/
def byteChar? (value : Nat) : Option Char :=
  if value % 256 < 128 then some (Char.ofNat (value % 256)) else none

/-- At most `most` leading digits of a text. -/
def leading (accepts : Char → Bool) (most : Nat) (text : List Char) : List Char :=
  (text.take most).takeWhile accepts

/-- Reads an escape after its backslash: the character, and how many characters of the
text after `c` belong to it. -/
def escape? (c : Char) (rest : List Char) : Option (Char × Nat) :=
  let found := match c with
    | 'b' => some ('\x08', 0)
    | 'f' => some ('\x0C', 0)
    | 'n' => some ('\n', 0)
    | 'r' => some ('\r', 0)
    | 't' => some ('\t', 0)
    | 'u' => if 4 ≤ rest.length then (codePoint? (rest.take 4)).map (·, 4) else none
    | 'U' => if 8 ≤ rest.length then (codePoint? (rest.take 8)).map (·, 8) else none
    | 'x' =>
      let digits := leading isHexDigit 2 rest
      if digits = [] then some ('x', 0) else (byteChar? (ofDigits 16 digits)).map (·, digits.length)
    | other =>
      if isOctalDigit other then
        let digits := leading isOctalDigit 2 rest
        (byteChar? (ofDigits 8 (other :: digits))).map (·, digits.length)
      else some (other, 0)
  found.filter (·.1 ≠ '\x00')

/-- The body of an escaped string, up to the closing single quote. -/
def escapedBody : List Char → Option Body
  | [] => none
  | c :: rest =>
    if c = singleQuote then
      match rest with
      | [] => some ([], [])
      | d :: more => if d = singleQuote then (escapedBody more).map (push singleQuote) else some ([], rest)
    else if c = '\\' then
      match rest with
      | [] => none
      | d :: more => match escape? d more with
        | none => none
        | some (found, taken) => (escapedBody (more.drop taken)).map (push found)
    else (escapedBody rest).map (push c)
termination_by text => text.length
decreasing_by all_goals (simp_all; try omega)

theorem quotedBody_length {quote : Char} {escapes : Bool} {text : List Char} {body : Body}
    (read : quotedBody quote escapes text = some body) : body.2.length < text.length := by
  fun_induction quotedBody quote escapes text generalizing body <;>
    simp_all [Option.map_eq_some_iff, push] <;> grind

theorem escapedBody_length {text : List Char} {body : Body} (read : escapedBody text = some body) :
    body.2.length < text.length := by
  fun_induction escapedBody text generalizing body <;>
    simp_all [Option.map_eq_some_iff, push] <;> grind

end QueryFacts.Lexer
