import QueryFacts.Cursor
import QueryFacts.NameMap

/-! Sub-queries in the place of tables that have an alias. -/

namespace QueryFacts.Subquery

/-- The alias and the text of the sub-query that a parenthesis closes. -/
def named? (close : Cursor) : Option (String × String) :=
  let opening := close.matching
  let after := close.next
  let name := if after.isWord "AS" then after.next else after
  if close.closes .subquery && ["SELECT", "WITH"].contains opening.next.normalized && name.isName then
    match opening.index, close.index with
    | some first, some last => some (name.value, close.sequence.write first last)
    | _, _ => none
  else none

/-- The text of each sub-query in the order in which they close, so that inner ones come
before outer ones; of two sub-queries of one name the first. -/
def bodies (tokens : TokenSequence) : NameMap String :=
  NameMap.ofFirstPairs (tokens.cursors.filterMap named?)

end QueryFacts.Subquery
