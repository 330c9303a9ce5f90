import StackMachine.Numeral

/-!
# Reasons storage operations fail
-/

namespace StackMachine

/-- Why a string or a value cannot be stored or found. -/
inductive StorageError where
  | outOfMemory (what : String)
  | tooLong (length : Nat)
  | staleString
  | indexOutOfBounds (index length : Nat)
deriving DecidableEq, Repr

/-- The wording of a reason. -/
def StorageError.message : StorageError → String
  | outOfMemory what => "out of memory while allocating " ++ what
  | tooLong length =>
    "string of " ++ Numeral.text length ++ " bytes exceeds the 4 GiB - 1 limit"
  | staleString => "string handle no longer refers to a live string"
  | indexOutOfBounds index length =>
    "index " ++ Numeral.text index ++ " out of bounds for length " ++ Numeral.text length

end StackMachine
