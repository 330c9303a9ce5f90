import StackMachine.Binary64.Decimal

/-!
# Writing binary64 numbers

A finite number is written with the fewest decimal digits that read back to it. On the grid of
decimals with a given number of digits only the two neighbours of the number can be nearest, so
they are the candidates; of two that read back the nearer one is taken, and at equal distance the
larger one. When no grid up to seventeen digits serves, the exact expansion does.
-/

namespace StackMachine

namespace Binary64

/-! ## Digits -/

/-- The place of the leading digit of a finite number other than zero: `place x = n` when the
magnitude is at least `10^(n-1)` and below `10^n`. -/
def place (x : Binary64) : Int :=
  (Numeral.decimal (x.magnitude * Decimal.tenTo 400 / unitsInOne)).length - 400

/-- The two neighbours of a magnitude on the grid of decimals with a given exponent, the nearer one
first and the larger one first at equal distance. -/
def candidates (x : Binary64) (exponent : Int) : List Decimal :=
  let numerator := x.magnitude * Decimal.tenTo (-exponent).toNat
  let denominator := unitsInOne * Decimal.tenTo exponent.toNat
  let below : Decimal := ⟨numerator / denominator, exponent⟩
  let above : Decimal := ⟨numerator / denominator + 1, exponent⟩
  if 2 * (numerator % denominator) < denominator then [below, above] else [above, below]

/-- The exact value of a finite magnitude. -/
def exactDecimal (x : Binary64) : Decimal :=
  ⟨x.magnitude * Nat.pow 5 1074, -1074⟩

/-- The shortest decimal that reads back to a finite number. -/
def shortest (x : Binary64) : Decimal :=
  let readsBack (decimal : Decimal) : Bool := ofDecimal x.negative decimal == x
  let place := x.place
  ((List.range 17).findSome? fun (further : Nat) =>
    (x.candidates (place - 1 - further)).find? readsBack).getD x.exactDecimal

/-! ## Layout -/

/-- The digits of a decimal without the zeros they end with. -/
def significantDigits (decimal : Decimal) : List Char :=
  ((Numeral.decimal decimal.significand).reverse.dropWhile (· == '0')).reverse

/-- Digits with a point after the first `place` of them, zeros filling the gap on either side. At
least one digit stands after the point. -/
def positional (digits : List Char) (place : Int) : List Char :=
  if place ≤ 0 then '0' :: '.' :: (List.replicate (-place).toNat '0' ++ digits)
  else
    let whole := digits.take place.toNat
    let fraction := digits.drop place.toNat
    whole ++ List.replicate (place.toNat - digits.length) '0' ++ '.' ::
      (if fraction.isEmpty then ['0'] else fraction)

/-- Digits with a point after the first, when there is a second, and an exponent. -/
def scientific (digits : List Char) (place : Int) : List Char :=
  let mantissa :=
    match digits with
    | first :: second :: rest => first :: '.' :: second :: rest
    | short => short
  mantissa ++ 'e' :: Numeral.integer (place - 1)

/-- The text of a finite magnitude: positional from one ten-thousandth up to `10^16`, scientific
outside. -/
def finiteText (x : Binary64) : List Char :=
  if x.isZero then "0.0".toList
  else
    let decimal := x.shortest
    let digits := significantDigits decimal
    let place := (Numeral.decimal decimal.significand).length + decimal.exponent
    if -3 ≤ place ∧ place ≤ 16 then positional digits place else scientific digits place

/-- A text with a minus sign in front when it is asked for. -/
def signed (negative : Bool) (text : List Char) : List Char :=
  if negative then '-' :: text else text

/-- The text of any number. All NaNs are written alike, without a sign. -/
def text (x : Binary64) : List Char :=
  if x.isNaN then "NaN".toList
  else signed x.negative (if x.isInfinite then "inf".toList else x.finiteText)

/-- The text of a number shown to a program's user: an integer below `10^21` is written out in
full. -/
def displayText (x : Binary64) : List Char :=
  if x.isNaN then "nan".toList
  else if x.isInfinite then signed x.negative "inf".toList
  else
    let whole := x.magnitude / unitsInOne
    if x.magnitude % unitsInOne = 0 ∧ whole < Decimal.tenTo 21 then
      signed x.negative (Numeral.decimal whole ++ ".0".toList)
    else x.text

/-- The text of a number as an operand. A NaN other than the quiet one is written as its bits, so
that no bit is lost. -/
def operandText (x : Binary64) : List Char :=
  if x.isNaN && x != nan then '0' :: 'x' :: Numeral.paddedHexadecimal 16 x.bits.toNat
  else x.text

/-- The number that an operand spells: its bits in hexadecimal after `0x`, or a decimal. -/
def ofOperand? : List Char → Option Binary64
  | '0' :: 'x' :: digits =>
    (Numeral.unsigned? 16 UInt64.size digits).map fun bits => ⟨UInt64.ofNat bits⟩
  | word => ofText? word

end Binary64

end StackMachine
