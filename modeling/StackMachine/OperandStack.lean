import StackMachine.MachineError
import StackMachine.ValueArray

/-!
# The operand stack

A fixed stack holds as many values as its capacity; a growable one takes its capacity as a first
reservation. An operation that needs more values than there are fails, names itself, and leaves
the stack as it was.
-/

namespace StackMachine

/-- How a stack is set up. -/
structure StackConfig where
  /-- The depth of a fixed stack, or the first reservation of a growable one. -/
  capacity : Nat := 256
  /-- Whether the stack may grow. -/
  growable : Bool := false
deriving DecidableEq, Repr

/-- A stack of values. -/
structure OperandStack where
  /-- The values, the bottom one first. -/
  values : ValueArray
  /-- How the stack was set up. -/
  config : StackConfig
deriving Repr

namespace OperandStack

/-- An empty stack. -/
def create (config : StackConfig) : Except MachineError OperandStack :=
  match ValueArray.withCapacity config.capacity with
  | .ok values => .ok ⟨values, config⟩
  | .error reason => .error (.ofStorage reason)

/-- The number of values. -/
def depth (stack : OperandStack) : Nat :=
  stack.values.size

/-- The values, the bottom one first. -/
def toList (stack : OperandStack) : List Value :=
  stack.values.toList

/-- Puts a value on top. -/
def push (stack : OperandStack) (value : Value) : Except MachineError OperandStack :=
  if !stack.config.growable && stack.config.capacity ≤ stack.depth then
    .error (.runtime (.stackOverflow stack.config.capacity))
  else
    match stack.values.push value with
    | .ok values => .ok { stack with values }
    | .error reason => .error (.ofStorage reason)

/-- Fails unless there are as many values as an operation needs. -/
def require (stack : OperandStack) (operation : String) (needed : Nat) :
    Except RuntimeFault Unit :=
  if stack.depth < needed then .error (.stackUnderflow operation needed stack.depth)
  else .ok ()

/-- Takes the top value off. -/
def pop (stack : OperandStack) (operation : String) : Except RuntimeFault (Value × OperandStack) :=
  match stack.values.last? with
  | some value => .ok (value, { stack with values := stack.values.pop })
  | none => .error (.stackUnderflow operation 1 0)

/-- Takes the two top values off, and gives them in the order they were pushed. -/
def pop2 (stack : OperandStack) (operation : String) :
    Except RuntimeFault (Value × Value × OperandStack) := do
  stack.require operation 2
  let (right, stack) ← stack.pop operation
  let (left, stack) ← stack.pop operation
  return (left, right, stack)

/-- The value a number of places below the top. -/
def peek? (stack : OperandStack) (below : Nat) : Option Value :=
  if below < stack.depth then stack.values.get? (stack.depth - 1 - below) else none

/-- Exchanges the two top values. -/
def swapTop (stack : OperandStack) (operation : String) : Except RuntimeFault OperandStack := do
  stack.require operation 2
  return { stack with values := stack.values.swapLast }

/-- Keeps a number of values at the bottom. -/
def truncate (stack : OperandStack) (depth : Nat) : OperandStack :=
  { stack with values := stack.values.truncate depth }

/-- The values on top, as many as asked for or all of them, in the order they were pushed. -/
def top (stack : OperandStack) (count : Nat) : List Value :=
  stack.values.takeLast count

/-- Takes every value off. -/
def clear (stack : OperandStack) : OperandStack :=
  stack.truncate 0

end OperandStack

end StackMachine
