import QueryFacts.Binary64
import QueryFacts.Cursor
import QueryFacts.Text.Quote

/-! The values in the VALUES lists of a statement. -/

namespace QueryFacts
open Text

inductive Value where
  /-- An integer of 64 bits with sign. -/
  | integer (value : Int)
  | float (value : Binary64)
  | text (value : String)
  deriving DecidableEq

namespace Value

def write : Value → String
  | integer value => toString value
  | float value => value.write
  | text value => value

/-- A minus sign that starts an item stands before the token. -/
def isNegated (cursor : Cursor) : Bool :=
  let sign := cursor.previous
  sign.value == "-" && (sign.previous.isComma || sign.previous.isLeftParen)

def integer? (text : List Char) : Option Value :=
  let value := match text with
    | '-' :: digits => (Decimal.natOf? digits).map fun value => -(value : Int)
    | digits => (Decimal.natOf? digits).map fun value => (value : Int)
  (value.filter fun value => Int64.minValue.toInt ≤ value ∧ value ≤ Int64.maxValue.toInt).map integer

def float? (text : List Char) : Option Value := (Decimal.ofText? text).map fun number => float (.ofDecimal number)

/-- A number if the token is one, and otherwise its text without quotes. -/
def ofToken (cursor : Cursor) : Value :=
  let chars := if isNegated cursor then '-' :: cursor.value.toList else cursor.value.toList
  let number := (if cursor.isInteger then integer? chars else none) <|>
    (if cursor.isInteger || cursor.isFloat then float? chars else none)
  match number with
  | some value => value
  | none =>
    if cursor.isLiteral && cursor.value.toList.head? == some singleQuote then
      text (String.ofList (undouble singleQuote (stripQuotes cursor.value.toList)))
    else text (String.ofList (stripQuotes chars))

/-- The last token of an item of a VALUES list. -/
def endsItem (cursor : Cursor) : Bool :=
  cursor.lastKeyword == "VALUES" && cursor.isInParenthesis && !cursor.isPunctuation && cursor.value != "-"
    && (cursor.next.isComma || cursor.next.isRightParen)

/-- Every value of every list. -/
def ofTokens (tokens : TokenSequence) : List Value := (tokens.cursors.filter endsItem).map ofToken

end Value

end QueryFacts
