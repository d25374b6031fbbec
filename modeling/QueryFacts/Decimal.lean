/-! Decimal numerals, with a point and an exponent, and their values. -/

namespace QueryFacts

/-- The number `digits * 10 ^ exponent`, with a sign that zero has too. -/
structure Decimal where
  negative : Bool
  digits : Nat
  exponent : Int
  deriving DecidableEq

namespace Decimal

/-- The number that a row of digits writes. -/
def natOf (digits : List Char) : Nat := digits.foldl (fun value c => value * 10 + (c.toNat - 48)) 0

def natOf? (text : List Char) : Option Nat :=
  if text ≠ [] ∧ text.all (·.isDigit) then some (natOf text) else none

/-- An exponent after its `e`, perhaps with a sign. -/
def exponentOf? : List Char → Option Int
  | '-' :: digits => (natOf? digits).map fun value => -(value : Int)
  | '+' :: digits => (natOf? digits).map fun value => (value : Int)
  | digits => (natOf? digits).map fun value => (value : Int)

/-- Reads digits with at most one point among them, and perhaps an exponent. -/
def unsignedOf? (negative : Bool) (text : List Char) : Option Decimal :=
  let whole := text.takeWhile (·.isDigit)
  let rest := text.dropWhile (·.isDigit)
  let fraction := if rest.head? = some '.' then (rest.drop 1).takeWhile (·.isDigit) else []
  let rest := if rest.head? = some '.' then (rest.drop 1).dropWhile (·.isDigit) else rest
  let power := match rest with
    | [] => some 0
    | e :: rest => if e = 'e' ∨ e = 'E' then exponentOf? rest else none
  if whole ++ fraction = [] then none
  else power.map fun power => ⟨negative, natOf (whole ++ fraction), power - fraction.length⟩

def ofText? : List Char → Option Decimal
  | '-' :: rest => unsignedOf? true rest
  | text => unsignedOf? false text

/-- The digits with the point in its place and never an exponent. A number without
digits after the point has no point. -/
def write (number : Decimal) : String :=
  let digits := (toString number.digits).toList
  let places := (-number.exponent).toNat
  let padded := List.replicate (places + 1 - digits.length) '0' ++ digits
  let text :=
    if number.digits = 0 then ['0']
    else if places = 0 then digits ++ List.replicate number.exponent.toNat '0'
    else padded.take (padded.length - places) ++ '.' :: padded.drop (padded.length - places)
  String.ofList (if number.negative then '-' :: text else text)

end Decimal

end QueryFacts
