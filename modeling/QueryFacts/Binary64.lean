import QueryFacts.Decimal

/-! Binary floating-point numbers of 64 bits: rounding a decimal numeral to the nearest
of them, and the shortest decimal that reads back as a given one. All arithmetic is
exact on natural numbers. -/

namespace QueryFacts

/-- A sign, and the other 63 bits as a number. The latter count the numbers that are
not negative in increasing order; infinity comes last. -/
structure Binary64 where
  negative : Bool
  code : Nat
  deriving DecidableEq

namespace Binary64

def infinityCode : Nat := 2047 * Nat.pow 2 52

def bits (number : Binary64) : Nat := (if number.negative then Nat.pow 2 63 else 0) + number.code

/-- The quotient rounded to the nearest number, a half to the even neighbour. -/
def roundDiv (num den : Nat) : Nat :=
  let floor := num / den
  let twice := 2 * (num % den)
  if twice > den ∨ (twice = den ∧ floor % 2 = 1) then floor + 1 else floor

/-- The numerator and denominator of `num / den` divided by `2 ^ power`. -/
def scaleDown (num den : Nat) (power : Int) : Nat × Nat := (num * Nat.pow 2 (-power).toNat, den * Nat.pow 2 power.toNat)

/-- The code nearest to a quotient of positive numbers. The significand has 53 bits, or
as many as there are above `2 ^ (-1074)`. -/
def codeOfRatio (num den : Nat) : Nat :=
  let guess := max ((num.log2 : Int) - den.log2 - 53) (-1074)
  let (top, bottom) := scaleDown num den guess
  let power := if top < bottom * Nat.pow 2 53 then guess else guess + 1
  let (top, bottom) := scaleDown num den power
  min (((power + 1074).toNat) * Nat.pow 2 52 + roundDiv top bottom) infinityCode

/-- The nearest number. Beyond these sizes the result is known without computing it. -/
def ofDecimal (number : Decimal) : Binary64 :=
  let size := (toString number.digits).length + number.exponent
  let code :=
    if number.digits = 0 ∨ size < -400 then 0
    else if size > 400 then infinityCode
    else codeOfRatio (number.digits * Nat.pow 10 number.exponent.toNat) (Nat.pow 10 (-number.exponent).toNat)
  ⟨number.negative, code⟩

/-- The significand and the power of two of a finite number. -/
def parts (number : Binary64) : Nat × Int :=
  let field : Nat := number.code / Nat.pow 2 52
  let fraction : Nat := number.code % Nat.pow 2 52
  if field = 0 then (fraction, -1074) else (Nat.pow 2 52 + fraction, (field : Int) - 1075)

/-- The interval of numbers that read as this one, in quarters of the last place: below,
the gap is half as wide at a power of two. The ends belong to it when `even` holds. -/
structure Interval where
  low : Nat
  value : Nat
  high : Nat
  even : Bool

def interval (significand : Nat) (power : Int) : Interval where
  low := 4 * significand - (if significand = Nat.pow 2 52 ∧ power > -1074 then 1 else 2)
  value := 4 * significand
  high := 4 * significand + 2
  even := significand % 2 = 0

/-- Whether `numerator` over `unit` is in the interval. -/
def Interval.holds (range : Interval) (unit numerator : Nat) : Bool :=
  let (low, high) := (range.low * unit, range.high * unit)
  (low < numerator && numerator < high) || (range.even && (numerator = low || numerator = high))

/-- The multiple of `10 ^ exponent` in the interval that is nearest to its value, if
there is one; of two equally near the larger. -/
def multiple? (range : Interval) (power exponent : Int) : Option Nat :=
  let unit := Nat.pow 2 (power - 2).toNat * Nat.pow 10 (-exponent).toNat
  let step := Nat.pow 10 exponent.toNat * Nat.pow 2 (2 - power).toNat
  let floor := range.value * unit / step
  let rest := range.value * unit % step
  let below := range.holds unit (floor * step)
  let above := range.holds unit ((floor + 1) * step)
  if above && (!below || 2 * rest ≥ step) then some (floor + 1)
  else if below then some floor
  else none

/-- The first exponent at or below a given one for which a multiple reads back. -/
def shortestFrom (range : Interval) (power : Int) : Nat → Int → Nat × Int
  | 0, exponent => (0, exponent)
  | count + 1, exponent => match multiple? range power exponent with
    | some digits => (digits, exponent)
    | none => shortestFrom range power count (exponent - 1)

/-- The decimal with the fewest digits that reads back as a finite number, and of those
the nearest. Multiples of `10 ^ (-324)` lie in every interval. -/
def shortest (number : Binary64) : Decimal :=
  if number.code = 0 then ⟨number.negative, 0, 0⟩
  else
    let (significand, power) := number.parts
    let (digits, exponent) := shortestFrom (interval significand power) power 634 309
    ⟨number.negative, digits, exponent⟩

def write (number : Binary64) : String :=
  if number.code < infinityCode then number.shortest.write else if number.negative then "-inf" else "inf"

end Binary64

end QueryFacts
