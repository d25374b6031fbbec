/-! Bounds on the statements that are analyzed. A statement beyond them is an error
instead of a long run. -/

namespace QueryFacts

structure Limits where
  /-- Tokens in one statement. -/
  maxTokens : Nat := 100000
  /-- Parentheses open at one time. -/
  maxNestingDepth : Nat := 512
  /-- Bodies of sub-queries and common table expressions analyzed within each other. -/
  maxRecursionDepth : Nat := 16
  deriving DecidableEq

end QueryFacts
