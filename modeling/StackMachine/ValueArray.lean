import StackMachine.Value

/-!
# Growable arrays of values

An array knows how many values it has room for. A full array grows by half of its capacity, rounded
up, and to four at least; nothing makes the capacity shrink. The values are held from the last one
to the first, since it is at the end that they come and go.
-/

namespace StackMachine

/-- Values with room for more. -/
structure ValueArray where
  /-- The values, the last one first. -/
  reversed : List Value := []
  /-- The number of values. -/
  size : Nat := 0
  /-- How many values there is room for. -/
  capacity : Nat := 0
  /-- The number of values is kept with them. -/
  size_eq : size = reversed.length := by rfl
deriving Repr

namespace ValueArray

/-- The values, first one first. -/
def toList (array : ValueArray) : List Value :=
  array.reversed.reverse

/-- An array of given values and capacity. -/
def ofReversed (reversed : List Value) (capacity : Nat) : ValueArray where
  reversed := reversed
  size := reversed.length
  capacity := capacity

/-- The largest capacity: each value takes sixteen bytes of an address range of `2^63 - 1`. -/
def maxCapacity : Nat := 0x7fffffffffffffff / 16

/-- An empty array with room for a number of values. -/
def withCapacity (capacity : Nat) : Except StorageError ValueArray :=
  if maxCapacity < capacity then .error (.outOfMemory "value array")
  else .ok { capacity }

/-- The capacity after growing. -/
def grownCapacity (capacity : Nat) : Nat :=
  max (capacity + (capacity + 1) / 2) 4

/-- The array with a value appended and a given capacity. -/
def append (array : ValueArray) (value : Value) (capacity : Nat) : ValueArray where
  reversed := value :: array.reversed
  size := array.size + 1
  capacity := capacity
  size_eq := by simp [array.size_eq]

/-- Appends a value, growing a full array first. -/
def push (array : ValueArray) (value : Value) : Except StorageError ValueArray :=
  if array.size < array.capacity then .ok (array.append value array.capacity)
  else if maxCapacity < grownCapacity array.capacity then .error (.outOfMemory "value array")
  else .ok (array.append value (grownCapacity array.capacity))

/-- Keeps the first values, and the capacity. -/
def truncate (array : ValueArray) (count : Nat) : ValueArray where
  reversed := array.reversed.drop (array.size - count)
  size := min array.size count
  capacity := array.capacity
  size_eq := by
    have length := array.size_eq
    simp only [List.length_drop]
    omega

/-- Removes the last value. -/
def pop (array : ValueArray) : ValueArray :=
  array.truncate (array.size - 1)

/-- The value at an index. -/
def get? (array : ValueArray) (index : Nat) : Option Value :=
  if index < array.size then array.reversed[array.size - 1 - index]? else none

/-- The last value. -/
def last? (array : ValueArray) : Option Value :=
  array.reversed.head?

/-- Replaces the value at an index and gives the old one. -/
def set (array : ValueArray) (index : Nat) (value : Value) :
    Except StorageError (Value × ValueArray) :=
  match array.get? index with
  | some old =>
    .ok (old, ofReversed (array.reversed.set (array.size - 1 - index) value) array.capacity)
  | none => .error (.indexOutOfBounds index array.size)

/-- The values in the opposite order. -/
def reverse (array : ValueArray) : ValueArray :=
  ofReversed array.toList array.capacity

/-- Two values in front exchanged. -/
def exchange : List Value → List Value
  | first :: second :: rest => second :: first :: rest
  | short => short

theorem length_exchange (values : List Value) : (exchange values).length = values.length := by
  fun_cases exchange values <;> simp

/-- The array with its last two values exchanged. -/
def swapLast (array : ValueArray) : ValueArray where
  reversed := exchange array.reversed
  size := array.size
  capacity := array.capacity
  size_eq := by rw [length_exchange, array.size_eq]

/-- The last values, as many as asked for or all of them, in their order. -/
def takeLast (array : ValueArray) (count : Nat) : List Value :=
  (array.reversed.take count).reverse

end ValueArray

end StackMachine
