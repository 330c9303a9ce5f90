import StackMachine.Binary64.Basic
import StackMachine.Numeral

/-!
# Reading decimals

A decimal is a natural number scaled by a power of ten. Its nearest binary64 number is the exact
ratio rounded once. The grammar of a decimal numeral is digits, an optional point and fraction, and
an optional exponent, with a digit somewhere before the exponent. An exponent stops growing once it
has reached `2^16`, however many digits follow.
-/

namespace StackMachine

/-- The number `significand * 10^exponent`. -/
structure Decimal where
  /-- The digits as one natural number. -/
  significand : Nat
  /-- The power of ten that scales them. -/
  exponent : Int
deriving DecidableEq, Repr

/-- A power of ten. -/
def Decimal.tenTo (exponent : Nat) : Nat := Nat.pow 10 exponent

/-- A decimal numeral, taken apart. -/
structure DecimalNumeral where
  /-- The digits before the point. -/
  whole : List Char
  /-- The digits after the point, when there is a point. -/
  fraction : Option (List Char)
  /-- The exponent, when there is one. -/
  exponent : Option Int
deriving DecidableEq, Repr

namespace DecimalNumeral

/-- Whether a character is a decimal digit. -/
def isDigit (c : Char) : Bool :=
  '0' ≤ c && c ≤ '9'

/-- The size from which on an exponent takes in no more digits. -/
def exponentLimit : Nat := 0x10000

/-- The exponent spelled by digits that follow a number already read. Digits count until the
exponent reaches its limit; those after that only have to be digits. -/
def continueExponent? : (value : Nat) → List Char → Option Nat
  | value, [] => some value
  | value, c :: rest =>
    match Numeral.digit? 10 c with
    | none => none
    | some digit =>
      continueExponent? (if value < exponentLimit then 10 * value + digit else value) rest

/-- The exponent spelled by a non-empty string of digits. -/
def exponentMagnitude? : List Char → Option Nat
  | [] => none
  | digits => continueExponent? 0 digits

/-- The exponent after its mark: an optional sign and at least one digit, to the end. -/
def exponent? : List Char → Option Int
  | '+' :: digits => (exponentMagnitude? digits).map Int.ofNat
  | '-' :: digits => (exponentMagnitude? digits).map fun value => -(value : Int)
  | digits => (exponentMagnitude? digits).map Int.ofNat

/-- The numeral with given digits before and after the point and a given rest. -/
def finish? (whole : List Char) (fraction : Option (List Char)) (rest : List Char) :
    Option DecimalNumeral :=
  if whole.isEmpty && (fraction.getD []).isEmpty then none
  else
    match rest with
    | [] => some ⟨whole, fraction, none⟩
    | mark :: tail =>
      if mark = 'e' ∨ mark = 'E' then
        (exponent? tail).map fun exponent => ⟨whole, fraction, some exponent⟩
      else none

/-- The numeral that a text spells, without a sign. -/
def read? (text : List Char) : Option DecimalNumeral :=
  let whole := text.takeWhile isDigit
  match text.dropWhile isDigit with
  | '.' :: rest => finish? whole (some (rest.takeWhile isDigit)) (rest.dropWhile isDigit)
  | rest => finish? whole none rest

/-- Whether the numeral has neither a point nor an exponent. -/
def isInteger (numeral : DecimalNumeral) : Bool :=
  numeral.fraction.isNone && numeral.exponent.isNone

/-- The digits before and after the point. -/
def digits (numeral : DecimalNumeral) : List Char :=
  numeral.whole ++ numeral.fraction.getD []

/-- The number that a numeral denotes. -/
def toDecimal (numeral : DecimalNumeral) : Decimal where
  significand := (Numeral.natural? 10 numeral.digits).getD 0
  exponent := numeral.exponent.getD 0 - (numeral.fraction.getD []).length

end DecimalNumeral

namespace Binary64

/-- The code of the magnitude nearest to a decimal. Magnitudes that are certain to round to
infinity or to zero are settled before any power of ten is computed. -/
def codeOfDecimal (decimal : Decimal) : Nat :=
  if decimal.significand = 0 then 0
  else if 400 < decimal.exponent then infinityCode
  else if 0 ≤ decimal.exponent then
    roundCode (decimal.significand * Decimal.tenTo decimal.exponent.toNat * unitsInOne) 1
  else
    let places := (-decimal.exponent).toNat
    if decimal.significand.log2 + 1080 < 3 * places then 0
    else roundCode (decimal.significand * unitsInOne) (Decimal.tenTo places)

/-- The number of a given sign nearest to a decimal. -/
def ofDecimal (negative : Bool) (decimal : Decimal) : Binary64 :=
  ofCode negative (codeOfDecimal decimal)

/-- The number that a text without a sign spells: infinity or NaN as a word in any case, or the
nearest number to a decimal numeral. -/
def magnitudeOfText? (negative : Bool) (text : List Char) : Option Binary64 :=
  let word := text.map Char.toLower
  if word = "inf".toList ∨ word = "infinity".toList then some (infinity negative)
  else if word = "nan".toList then some (ofCode negative quietCode)
  else (DecimalNumeral.read? text).map fun numeral => ofDecimal negative numeral.toDecimal

/-- The number that a text spells, with an optional sign in front. -/
def ofText? : List Char → Option Binary64
  | '-' :: text => magnitudeOfText? true text
  | '+' :: text => magnitudeOfText? false text
  | text => magnitudeOfText? false text

end Binary64

end StackMachine
