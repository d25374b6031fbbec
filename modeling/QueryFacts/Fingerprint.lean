import QueryFacts.Comment
import QueryFacts.Distinct
import QueryFacts.Text.Pattern

/-! The fingerprint of a query text, which is the same for queries that differ only in
their literals: strings read `X`, numbers `N`, and lists of several elements `(XYZ)`. -/

namespace QueryFacts.Fingerprint
open Text Text.Pattern

private def chars (text : String) : List Char := text.toList

/-- Whatever stands between two `quote` characters. -/
def quoted (quote : Char) : Pattern := (word [quote]).next ((many (· ≠ quote)).next (word [quote]))

/-- `LIKE` with a string that is not empty. -/
def likeLiteral : Pattern :=
  (word (chars "LIKE '")).next ((some1 (· ≠ singleQuote)).next (word [singleQuote]))

/-- A masked `LIKE` condition after `or` or `and`. -/
def likeCondition : Pattern :=
  ((anyCase (chars "or")).either (anyCase (chars "and"))).next
    ((word [' ']).next ((some1 (!isBlank ·)).next (anyCase (chars " like x"))))

/-- A condition any number of times in a row, each with at most one blank before it. -/
def chain (condition : List Char) : Pattern := repeated ((optional (one isBlank)).next (word condition))

def escape : Pattern :=
  (word ['\\']).next (one fun c => c = '\\' ∨ c = singleQuote ∨ c = doubleQuote)

def number : Pattern := (optional (word ['-'])).next (some1 (·.isDigit))

def listKeyword : Pattern := (word [' ']).next ((anyCase (chars "in")).either (anyCase (chars "values")))

/-- `IN` or `VALUES` and a list with a comma in it. -/
def valueList : Pattern :=
  listKeyword.next ((many isBlank).next ((word ['(']).next ((some1 (· ≠ ',')).next
    ((word [',']).next ((some1 (· ≠ ')')).next (word [')']))))))

def foldList (text : List Char) : List Char :=
  ((listKeyword text).map (·.1)).getD [] ++ chars " (XYZ)"

/-- Masks `LIKE` patterns and writes every chain of one condition as the condition
and three dots. -/
def foldLikes (text : List Char) : List Char :=
  let masked := replace likeLiteral (fun _ => chars "LIKE X") (text.filter (· ≠ '%'))
  (distinct (findAll likeCondition masked)).foldl
    (fun text condition => replace (chain condition) (fun _ => ' ' :: condition ++ chars " ...") text) masked

def maskLiterals (text : List Char) : List Char :=
  let text := replace escape (fun _ => []) text
  let text := replace (quoted singleQuote) (fun _ => ['X']) text
  let text := replace (quoted doubleQuote) (fun _ => ['X']) text
  let text := replace (some1 isBlank) (fun _ => [' ']) text
  let text := replace number (fun _ => ['N']) text
  replace valueList foldList text

def ofText (text : List Char) : List Char :=
  if (trim text).isEmpty then []
  else
    let spaced := replace ((one isBlank).next (some1 isBlank)) (fun _ => [' ']) (stripComments text)
    trim (maskLiterals (foldLikes spaced))

end QueryFacts.Fingerprint
