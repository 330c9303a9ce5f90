import StackMachine.Binary64.Arithmetic
import StackMachine.MachineError
import StackMachine.Value

/-!
# Arithmetic and comparison of values

Integer arithmetic is exact when the result fits 64 bits and is carried out on the nearest binary64
numbers otherwise; with a float operand it always is. Division always gives a float. Numbers are
ordered numerically and strings by their bytes; equality holds between any two values and never
fails.
-/

namespace StackMachine

/-- The arithmetic operations that keep integers when they can. -/
inductive ArithmeticOperation where
  | add
  | sub
  | mul
deriving DecidableEq, Repr

namespace ArithmeticOperation

/-- The operation on integers. -/
def onInt : ArithmeticOperation → Int → Int → Int
  | add, left, right => left + right
  | sub, left, right => left - right
  | mul, left, right => left * right

/-- The operation on binary64 numbers. -/
def onFloat : ArithmeticOperation → Binary64 → Binary64 → Binary64
  | add, left, right => left.add right
  | sub, left, right => left.sub right
  | mul, left, right => left.mul right

/-- The opcode of the operation. -/
def opcode : ArithmeticOperation → Opcode
  | add => .add
  | sub => .sub
  | mul => .mul

/-- The operation on numbers. -/
def onNumber (operation : ArithmeticOperation) (left right : Number) : Number :=
  let float := Number.float (operation.onFloat left.toFloat right.toFloat)
  match left, right with
  | .int x, .int y =>
    match Numeral.int64OfInt? (operation.onInt x.toInt y.toInt) with
    | some result => .int result
    | none => float
  | _, _ => float

end ArithmeticOperation

/-- The failure of an operation that does not apply to two values. -/
def mismatch (op : Opcode) (left right : Value) : MachineError :=
  .runtime (.typeMismatch op.mnemonic left.typeName right.typeName)

namespace Value

/-- The result of an arithmetic operation. -/
def arithmetic (operation : ArithmeticOperation) (left right : Value) :
    Except MachineError Value :=
  match left.number?, right.number? with
  | some x, some y => .ok (operation.onNumber x y).toValue
  | _, _ => .error (mismatch operation.opcode left right)

/-- The quotient, which is always a float. A divisor equal to zero has none. -/
def divide (left right : Value) : Except MachineError Value :=
  match left.number?, right.number? with
  | some x, some y =>
    if y.toFloat.isZero then .error (.runtime .divisionByZero)
    else .ok (.float (x.toFloat.div y.toFloat))
  | _, _ => .error (mismatch .div left right)

/-- The order of two numbers, absent when one of them is a NaN. -/
def compareNumbers : Number → Number → Option Ordering
  | .int x, .int y => some (compare x.toInt y.toInt)
  | left, right => left.toFloat.compare? right.toFloat

/-- The order of byte strings: by the first byte that differs, a shorter string being less than its
continuations. -/
def compareBytes : List UInt8 → List UInt8 → Ordering
  | [], [] => .eq
  | [], _ :: _ => .lt
  | _ :: _, [] => .gt
  | x :: left, y :: right => (compare x.toNat y.toNat).then (compareBytes left right)

/-- Whether two values are equal to a program: numbers numerically, strings by content, and values
of different kinds never. -/
def isEqual (heap : StringHeap) : Value → Value → Bool
  | nil, nil => true
  | bool left, bool right => left == right
  | native left, native right => left == right
  | string left, string right =>
    left == right ||
      match heap.get? left, heap.get? right with
      | some x, some y => x == y
      | _, _ => false
  | left, right =>
    match left.number?, right.number? with
    | some x, some y => compareNumbers x y == some .eq
    | _, _ => false

/-- The order of two values for an instruction that needs one. -/
def order (heap : StringHeap) (op : Opcode) (left right : Value) :
    Except MachineError (Option Ordering) :=
  match left, right with
  | string x, string y =>
    match heap.bytes? x, heap.bytes? y with
    | some front, some back => .ok (some (compareBytes front back))
    | _, _ => .error (.badArgument (op.mnemonic ++ " on a string that is no longer live"))
  | _, _ =>
    match left.number?, right.number? with
    | some x, some y => .ok (compareNumbers x y)
    | _, _ => .error (mismatch op left right)

end Value

end StackMachine
