/-!
# Tables keyed by handle numbers

A table is an array of cells, one for each number given out so far. Looking up a number that was
never stored, or was erased, gives nothing.
-/

namespace StackMachine

/-- A partial map from natural numbers to values. -/
structure HandleTable (α : Type) where
  /-- The cell of each number; an empty cell or none at all means no value. -/
  cells : Array (Option α) := #[]
deriving Repr

namespace HandleTable

variable {α : Type}

/-- The value stored for a number. -/
def get? (table : HandleTable α) (number : Nat) : Option α :=
  (table.cells[number]?).join

/-- Whether a value is stored for a number. -/
def contains (table : HandleTable α) (number : Nat) : Bool :=
  (table.get? number).isSome

/-- The least number that no value was ever stored for, nor for a greater one. -/
def next (table : HandleTable α) : Nat :=
  table.cells.size

/-- The table with a value stored for a number. -/
def insert (table : HandleTable α) (number : Nat) (value : α) : HandleTable α :=
  if number < table.cells.size then ⟨table.cells.setIfInBounds number (some value)⟩
  else ⟨(table.cells ++ Array.replicate (number - table.cells.size) none).push (some value)⟩

/-- The table with a value stored for the next number. -/
def append (table : HandleTable α) (value : α) : HandleTable α :=
  ⟨table.cells.push (some value)⟩

/-- The table without a value for a number. -/
def erase (table : HandleTable α) (number : Nat) : HandleTable α :=
  ⟨table.cells.setIfInBounds number none⟩

/-- How many numbers have a value. -/
def size (table : HandleTable α) : Nat :=
  table.cells.countP Option.isSome

@[simp]
theorem get?_empty (number : Nat) : (({} : HandleTable α)).get? number = none := by
  simp [get?]

theorem get?_insert (table : HandleTable α) (number other : Nat) (value : α) :
    (table.insert number value).get? other =
      if other = number then some value else table.get? other := by
  unfold insert get?
  grind

theorem get?_append (table : HandleTable α) (other : Nat) (value : α) :
    (table.append value).get? other =
      if other = table.next then some value else table.get? other := by
  unfold append get? next
  grind

@[simp]
theorem next_append (table : HandleTable α) (value : α) :
    (table.append value).next = table.next + 1 := by
  simp [append, next]

theorem get?_erase (table : HandleTable α) (number other : Nat) :
    (table.erase number).get? other = if other = number then none else table.get? other := by
  unfold erase get?
  grind

@[simp]
theorem next_erase (table : HandleTable α) (number : Nat) :
    (table.erase number).next = table.next := by
  simp [erase, next]

@[simp]
theorem get?_next (table : HandleTable α) : table.get? table.next = none := by
  simp [get?, next]

end HandleTable

end StackMachine
