/-!
# Binary64 numbers

A number is its 64 bits. Below the sign bit, the remaining bits read as a natural number (the
code) grow with the magnitude: the codes below `infinityCode` are the finite magnitudes in order,
`infinityCode` is infinity and the codes above it are NaNs. A finite magnitude is a natural number
of units of `2^(-1074)`.

Rounding goes from an exact ratio of units to the code of the nearest magnitude, a tie going to the
even significand. Since the code of a magnitude `m * 2^u` with `2^52 ≤ m < 2^53` is
`u * 2^52 + m`, carrying out of the significand needs no case of its own.
-/

namespace StackMachine

/-- A binary floating-point number of 64 bits. -/
structure Binary64 where
  /-- The sign bit, eleven exponent bits and fifty-two fraction bits. -/
  bits : UInt64
deriving DecidableEq, Repr

namespace Binary64

/-- The weight of the sign bit, `2^63`. -/
def signWeight : Nat := 0x8000000000000000

/-- The weight of the lowest exponent bit, `2^52`: how many codes share an exponent. -/
def exponentWeight : Nat := 0x10000000000000

/-- The code of infinity, which bounds the codes of the finite magnitudes. -/
def infinityCode : Nat := 2047 * exponentWeight

/-- The code of the NaN that operations give. -/
def quietCode : Nat := infinityCode + exponentWeight / 2

/-- The number with a given sign and code. -/
def ofCode (negative : Bool) (code : Nat) : Binary64 :=
  ⟨UInt64.ofNat ((if negative then signWeight else 0) + code)⟩

/-- Whether the sign bit is set. -/
def negative (x : Binary64) : Bool :=
  signWeight ≤ x.bits.toNat

/-- The bits below the sign bit. -/
def code (x : Binary64) : Nat :=
  x.bits.toNat % signWeight

/-- Whether a number is not a number. -/
def isNaN (x : Binary64) : Bool :=
  infinityCode < x.code

/-- Whether a number is one of the two infinities. -/
def isInfinite (x : Binary64) : Bool :=
  x.code == infinityCode

/-- Whether a number is one of the two zeros. -/
def isZero (x : Binary64) : Bool :=
  x.code == 0

/-- The zero of a given sign. -/
def zero (negative : Bool) : Binary64 := ofCode negative 0

/-- The infinity of a given sign. -/
def infinity (negative : Bool) : Binary64 := ofCode negative infinityCode

/-- The NaN that operations give. -/
def nan : Binary64 := ofCode false quietCode

/-- The number of units of `2^(-1074)` in a magnitude of a given code. -/
def magnitudeOfCode (code : Nat) : Nat :=
  let exponent := code / exponentWeight
  let fraction := code % exponentWeight
  if exponent = 0 then fraction else (exponentWeight + fraction) <<< (exponent - 1)

/-- The number of units of `2^(-1074)` in the magnitude of a finite number. -/
def magnitude (x : Binary64) : Nat :=
  magnitudeOfCode x.code

/-- The number of units of `2^(-1074)` in one. -/
def unitsInOne : Nat := 1 <<< 1074

/-- A finite number as a signed number of units of `2^(-1074)`. -/
def units (x : Binary64) : Int :=
  if x.negative then -(x.magnitude : Int) else x.magnitude

/-! ## Rounding -/

/-- The integer nearest to a quotient; a tie goes to the even one. -/
def nearestEven (numerator denominator : Nat) : Nat :=
  let quotient := numerator / denominator
  let remainder := numerator % denominator
  if 2 * remainder < denominator then quotient
  else if denominator < 2 * remainder then quotient + 1
  else if quotient % 2 = 0 then quotient
  else quotient + 1

/-- The code of the magnitude nearest to a ratio of units. -/
def roundCode (numerator denominator : Nat) : Nat :=
  let shift := Nat.log2 (numerator / denominator) - 52
  min (shift * exponentWeight + nearestEven numerator (denominator <<< shift)) infinityCode

/-- The number of a given sign nearest to a ratio of units. -/
def round (negative : Bool) (numerator denominator : Nat) : Binary64 :=
  ofCode negative (roundCode numerator denominator)

/-- The number nearest to an integer. -/
def ofInt (value : Int) : Binary64 :=
  round (value < 0) (value.natAbs * unitsInOne) 1

/-- The 64-bit integer part of a number, the nearest end of the range when it is outside, and zero
for a NaN. -/
def toInt64 (x : Binary64) : Int64 :=
  if x.isNaN then 0
  else if x.isInfinite then (if x.negative then Int64.minValue else Int64.maxValue)
  else
    let whole : Nat := x.magnitude / unitsInOne
    let integer : Int := if x.negative then -whole else whole
    if integer < Int64.minValue.toInt then Int64.minValue
    else if Int64.maxValue.toInt < integer then Int64.maxValue
    else Int64.ofInt integer

/-! ## Order -/

/-- The position of a number that is no NaN on the extended number line; the two zeros share one. -/
def position (x : Binary64) : Int :=
  if x.negative then -(x.code : Int) else x.code

/-- The order of two numbers, absent when one of them is a NaN. -/
def compare? (x y : Binary64) : Option Ordering :=
  if x.isNaN || y.isNaN then none else some (compare x.position y.position)

/-- Numeric equality: the two zeros are equal and a NaN is equal to nothing. -/
def equal (x y : Binary64) : Bool :=
  compare? x y == some .eq

end Binary64

end StackMachine
