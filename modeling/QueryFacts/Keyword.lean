import QueryFacts.Text.Blank
import QueryFacts.Text.Upper

/-! The words with a meaning of their own, and what each of them says about the names
that follow it. Words are in normal form: upper case and without blanks, so that a
keyword of several words reads `ORDERBY` or `LEFTOUTERJOIN`. -/

namespace QueryFacts.Keyword
open Text

/-- Upper case, without blanks. -/
def normalForm (text : String) : String :=
  String.ofList ((text.toList.filter (!isBlank ·)).flatMap upperChar)

/-- Words that are keywords when they stand unquoted. `NAME`, `TYPE`, `DATE` and
`STATUS` are not among them, since they are common column names. -/
def reserved : List String := [
  "SELECT", "FROM", "WHERE", "JOIN", "ON", "USING", "AS", "AND", "OR", "NOT", "IN", "IS", "NULL", "LIKE",
  "ILIKE", "BETWEEN", "EXISTS", "CASE", "WHEN", "THEN", "ELSE", "END", "DISTINCT", "UNIQUE", "ALL", "ANY",
  "SOME", "UNION", "INTERSECT", "EXCEPT", "ORDER", "GROUP", "PARTITION", "BY", "HAVING", "LIMIT", "OFFSET",
  "INSERT", "INTO", "VALUES", "UPDATE", "SET", "DELETE", "REPLACE", "IGNORE", "OVERWRITE", "TABLE", "CREATE",
  "ALTER", "DROP", "TRUNCATE", "ADD", "KEY", "INDEX", "PRIMARY", "FOREIGN", "REFERENCES", "CONSTRAINT",
  "DEFAULT", "WITH", "RECURSIVE", "OVER", "WINDOW", "ASC", "DESC", "FORCE", "USE", "RETURNING", "INTERVAL",
  "IF", "TEMPORARY", "VIEW", "DATABASE", "SCHEMA", "FOR", "TOP", "TRUE", "FALSE", "DIV", "MOD", "XOR",
  "REGEXP", "RLIKE", "COLLATE", "ESCAPE", "CHARACTER", "NATURAL", "INNER", "CROSS", "LEFT", "RIGHT", "FULL",
  "OUTER"]

/-- Keywords that stay within a clause: the keyword before them still says what the
names after them are. -/
def insignificant : List String := [
  "AS", "AND", "OR", "IN", "IS", "NULL", "NOT", "LIKE", "ILIKE", "BETWEEN", "EXISTS", "CASE", "WHEN", "THEN",
  "ELSE", "END", "DISTINCT", "UNIQUE", "ALL", "ANY", "SOME", "ASC", "DESC", "DIV", "MOD", "XOR", "REGEXP",
  "RLIKE", "COLLATE", "ESCAPE", "INTERVAL", "TRUE", "FALSE", "RECURSIVE", "IGNORE", "TOP", "IF", "OVER",
  "PARTITIONBY"]

def joinPrefixes : List String := ["NATURAL", "INNER", "CROSS", "LEFT", "RIGHT", "FULL", "OUTER"]

/-- Functions that are never columns, whatever they are applied to. -/
def ignoredFunctions : List String := [
  "COUNT", "MIN", "MAX", "SUM", "AVG", "CAST", "CONVERT", "TRY_CAST", "COALESCE", "IFNULL", "NULLIF",
  "CONCAT", "FROM_UNIXTIME", "UNIX_TIMESTAMP", "DATE_FORMAT", "DATE_ADD", "DATE_SUB", "DATEDIFF", "EXTRACT",
  "NOW", "CURRENT_DATE", "CURRENT_TIMESTAMP"]

def isReserved (word : String) : Bool := reserved.contains word

def isInsignificant (word : String) : Bool := insignificant.contains word

/-- Words that a join keyword of several words may start with. -/
def isJoinPrefix (word : String) : Bool := joinPrefixes.contains word

def isJoin (word : String) : Bool := "JOIN".toList.isSuffixOf word.toList

/-- Names after these keywords are columns. -/
def precedesColumns (word : String) : Bool :=
  ["SELECT", "WHERE", "ORDERBY", "GROUPBY", "ON", "SET", "HAVING", "USING"].contains word

/-- Names after these keywords are tables. -/
def precedesTables (word : String) : Bool := ["FROM", "INTO", "UPDATE", "TABLE"].contains word || isJoin word

/-- A parenthesis after these keywords holds a sub-query in the place of a table. -/
def precedesSubquery (word : String) : Bool := word == "FROM" || isJoin word

/-- Keywords with which the statement after a WITH clause starts. -/
def startsStatement (word : String) : Bool := ["SELECT", "UPDATE", "DELETE", "REPLACE", "INSERT"].contains word

/-- Keywords that are functions when a parenthesis follows. -/
def isFunctionLike (word : String) : Bool := ["REPLACE", "LEFT", "RIGHT", "IF", "INSERT", "MOD"].contains word

def isIgnoredFunction (word : String) : Bool := ignoredFunctions.contains word

/-- Functions in which `AS` comes before a type. -/
def isTypeCast (word : String) : Bool := ["CAST", "CONVERT", "TRY_CAST", "SAFE_CAST"].contains word

/-- Words with which an item of a table definition starts that is no column. -/
def isTableConstraint (word : String) : Bool :=
  ["PRIMARY", "KEY", "INDEX", "UNIQUE", "CONSTRAINT", "FOREIGN", "CHECK", "FULLTEXT", "SPATIAL"].contains word

end QueryFacts.Keyword
