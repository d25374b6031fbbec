/-! The lexical classes of tokens. -/

namespace QueryFacts

inductive TokenKind where
  | keyword
  | name
  /-- Parentheses, commas, semicolons and colons. -/
  | punctuation
  | dot
  | wildcard
  | integer
  | float
  /-- Strings and placeholders. -/
  | literal
  /-- Operators, and whatever else the lexer finds. -/
  | operator
  deriving DecidableEq

end QueryFacts
