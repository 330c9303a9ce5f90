import StackMachine.Binary64.Basic

/-!
# Arithmetic on binary64 numbers

Each operation on finite numbers is its exact result, a ratio of units of `2^(-1074)`, rounded
once. An operation without a meaning gives the quiet NaN.
-/

namespace StackMachine

namespace Binary64

/-- The sum. Opposite infinities have none, and an exact zero is negative only when both terms
are. -/
def add (x y : Binary64) : Binary64 :=
  if x.isNaN || y.isNaN then nan
  else if x.isInfinite then
    if y.isInfinite && x.negative != y.negative then nan else x
  else if y.isInfinite then y
  else
    let sum := x.units + y.units
    if sum = 0 then zero (x.negative && y.negative)
    else round (sum < 0) sum.natAbs 1

/-- The number with the opposite sign. -/
def neg (x : Binary64) : Binary64 :=
  ofCode (!x.negative) x.code

/-- The difference. -/
def sub (x y : Binary64) : Binary64 :=
  add x (neg y)

/-- The product. A zero and an infinity have none. -/
def mul (x y : Binary64) : Binary64 :=
  let negative := x.negative != y.negative
  if x.isNaN || y.isNaN then nan
  else if x.isInfinite || y.isInfinite then
    if x.isZero || y.isZero then nan else infinity negative
  else round negative (x.magnitude * y.magnitude) unitsInOne

/-- The quotient. Two zeros and two infinities have none, and a finite number over zero is
infinite. -/
def div (x y : Binary64) : Binary64 :=
  let negative := x.negative != y.negative
  if x.isNaN || y.isNaN then nan
  else if x.isInfinite then
    if y.isInfinite then nan else infinity negative
  else if y.isInfinite then zero negative
  else if y.isZero then
    if x.isZero then nan else infinity negative
  else round negative (x.magnitude * unitsInOne) y.magnitude

end Binary64

end StackMachine
