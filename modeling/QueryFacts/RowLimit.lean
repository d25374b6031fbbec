import QueryFacts.Cursor
import QueryFacts.Decimal

/-! How many rows a statement asks for, and how many it skips. -/

namespace QueryFacts

structure RowLimit where
  limit : Nat
  skipped : Nat
  deriving DecidableEq

namespace RowLimit

/-- The numbers after LIMIT and OFFSET so far. -/
structure Found where
  limit : Option Nat := none
  skipped : Option Nat := none

/-- After LIMIT, a number behind a comma makes the number before it the rows to skip. -/
def Found.add (found : Found) (cursor : Cursor) : Found :=
  match (Decimal.natOf? cursor.value.toList).filter (· < UInt64.size) with
  | none => found
  | some value =>
    if cursor.lastKeyword = "LIMIT" then
      if found.limit.isNone then { found with limit := some value }
      else if cursor.previous.isComma then ⟨some value, found.limit⟩
      else found
    else if cursor.lastKeyword = "OFFSET" then { found with skipped := some value }
    else found

/-- The limit of a statement that has one; without OFFSET no rows are skipped. -/
def ofTokens (tokens : TokenSequence) : Option RowLimit :=
  let found := (tokens.cursors.filter (·.isInteger)).foldl Found.add {}
  found.limit.map fun limit => ⟨limit, found.skipped.getD 0⟩

end RowLimit

end QueryFacts
