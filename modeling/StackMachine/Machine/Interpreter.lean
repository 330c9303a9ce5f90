import StackMachine.Machine.Arithmetic
import StackMachine.Machine.Interface

/-!
# The interpreter

A step carries out the instruction at the current offset. It is given the way to call natives, so
that what follows here is a plain recursion on the number of steps. An instruction that fails
faults the machine: it stays where it is until a program is loaded or it is reset.
-/

namespace StackMachine

/-- The way to call a registered native with arguments. -/
abbrev Invoker : Type :=
  NativeEntry → List Value → Action Value

/-- Where execution goes after an instruction. -/
inductive Flow where
  /-- To the following instruction. -/
  | next
  /-- To another offset. -/
  | jump (target : UInt32)
  /-- Nowhere. -/
  | halt
deriving DecidableEq, Repr

namespace Machine

/-! ## Operands -/

/-- Takes the operand of an instruction off the stack. -/
def popOperand (op : Opcode) : Update Value := do
  let machine ← get
  let (value, stack) ← Update.ofStack (machine.stack.pop op.mnemonic)
  set { machine with stack }
  return value

/-- Takes the two operands of an instruction off the stack. -/
def popOperands (op : Opcode) : Update (Value × Value) := do
  let machine ← get
  let (left, right, stack) ← Update.ofStack (machine.stack.pop2 op.mnemonic)
  set { machine with stack }
  return (left, right)

/-- The value on top of the stack. -/
def topOperand (op : Opcode) : Update Value := do
  let machine ← get
  Update.ofStack (machine.stack.require op.mnemonic 1)
  return (machine.stack.peek? 0).getD .nil

/-- The string of a pool operand. -/
def constant (index : UInt32) : Update StringRef := do
  let machine ← get
  match machine.program.constants[index.toNat]? with
  | some ref => return ref
  | none =>
    throw (.badBytecode (.stringIndexOutOfRange index machine.program.constants.length
      machine.offset))

/-! ## Instructions -/

/-- The sum of numbers, or a new string that joins two. -/
def addValues (left right : Value) : Update Value := do
  match left, right with
  | .string front, .string back => do
    let bytes ← Update.ofStorage ((← get).heap.joined front back)
    let ref ← allocate bytes
    return .string ref
  | _, _ => Update.ofExcept (left.arithmetic .add right)

/-- Replaces the two operands of an instruction by its result. -/
def binary (op : Opcode) (operation : Value → Value → Update Value) : Update Flow := do
  let (left, right) ← popOperands op
  let result ← operation left right
  pushOperand result
  return .next

/-- Replaces two operands by whether their order is among the given ones. -/
def ordering (op : Opcode) (wanted : List Ordering) : Update Flow :=
  binary op fun left right => do
    let order ← Update.ofExcept (left.order (← get).heap op right)
    return .bool (order.any wanted.contains)

/-- Pushes the result of an instruction. -/
def pushing (value : Value) : Update Flow := do
  pushOperand value
  return .next

/-- Sets the global named by a constant. -/
def storeGlobal (index : UInt32) : Update Flow := do
  let key ← constant index
  let value ← popOperand .storeGlobal
  let machine ← get
  let (_, globals) ← Update.ofStorage (machine.globals.put machine.heap key value)
  set { machine with globals }
  return .next

/-- Pushes the global named by a constant. -/
def loadGlobal (index : UInt32) : Update Flow := do
  let key ← constant index
  let machine ← get
  match machine.globals.get? machine.heap key with
  | some value => pushing value
  | none => throw (.notFound "global" (machine.nameText key))

/-- Calls the native named by a constant. The arguments stay on the stack during the call and are
replaced by the result. -/
def callConstant (invoke : Invoker) (index : UInt32) (count : Nat) : Action Flow := do
  let key ← constant index
  let machine : Machine ← get
  match machine.natives.get? machine.heap key with
  | none => throw (.notFound "native" (machine.nameText key))
  | some entry =>
    Update.ofStack (machine.stack.require Opcode.callNative.mnemonic count)
    let base := machine.stack.depth - count
    let arguments := machine.stack.top count
    let nested := machine.inNative
    let call : Action Value := do
      modify fun (machine : Machine) => { machine with inNative := true }
      invoke entry arguments
    let result ← call.afterwards fun after => { after with inNative := nested }
    modify fun (machine : Machine) => { machine with stack := machine.stack.truncate base }
    pushing result

/-- Carries out an instruction. -/
def execute (invoke : Invoker) : Instruction → Action Flow
  | .pushInt value => pushing (.int value)
  | .pushFloat value => pushing (.float value)
  | .pushString index => do
    let ref ← constant index
    pushing (.string ref)
  | .pushNil => pushing .nil
  | .pushBool value => pushing (.bool value)
  | .add => binary .add addValues
  | .sub => binary .sub fun left right => Update.ofExcept (left.arithmetic .sub right)
  | .mul => binary .mul fun left right => Update.ofExcept (left.arithmetic .mul right)
  | .div => binary .div fun left right => Update.ofExcept (left.divide right)
  | .eq => binary .eq fun left right => do return .bool (left.isEqual (← get).heap right)
  | .neq => binary .neq fun left right => do return .bool (!left.isEqual (← get).heap right)
  | .lt => ordering .lt [.lt]
  | .gt => ordering .gt [.gt]
  | .le => ordering .le [.lt, .eq]
  | .ge => ordering .ge [.gt, .eq]
  | .print => do
    let value ← topOperand .print
    write (Utf8.encode (value.text (← get).heap ++ ['\n']))
    return .next
  | .pop => do
    let _ ← popOperand .pop
    return .next
  | .dup => do
    let value ← topOperand .dup
    pushing value
  | .swap => do
    let machine ← get
    let stack ← Update.ofStack (machine.stack.swapTop Opcode.swap.mnemonic)
    set { machine with stack }
    return .next
  | .storeGlobal index => storeGlobal index
  | .loadGlobal index => loadGlobal index
  | .callNative index count => callConstant invoke index count.toNat
  | .jump target => return .jump target
  | .jumpIfFalse target => do
    let value ← popOperand .jumpIfFalse
    return if value.isTruthy then .next else .jump target
  | .halt => return .halt

/-- The instruction at the current offset. -/
def fetch (machine : Machine) : Except MachineError Instruction :=
  if machine.program.code.length ≤ machine.offset then .error (.codeOverrun machine.offset)
  else
    match Instruction.decodeAt machine.program.code machine.offset with
    | .ok instruction => .ok instruction
    | .error (.unknownOpcode byte _) => .error (.runtime (.unknownOpcode byte machine.offset))
    | .error reason => .error (.badBytecode reason)

/-- Carries out the instruction at the current offset and moves on. -/
def executeNext (invoke : Invoker) : Action StepExit := do
  let offset := (← getThe Machine).offset
  let instruction ← Update.ofExcept (← getThe Machine).fetch
  match ← execute invoke instruction with
  | .next =>
    let following := offset + instruction.encodedLength
    modify fun (machine : Machine) => { machine with offset := following }
    return .continued
  | .jump target =>
    modify fun (machine : Machine) => { machine with offset := target.toNat }
    return .continued
  | .halt =>
    modify fun (machine : Machine) => { machine with phase := .halted }
    return .halted

/-! ## Steps and runs -/

/-- The action whose failure is remembered and faults the machine. -/
def faulting {α : Type} (action : Action α) : Action α :=
  Action.of fun machine =>
    match action.apply machine with
    | some (.error error, after) =>
      some (.error error, ({ after with phase := .faulted } : Machine).remember error)
    | other => other

/-- Carries out one instruction, after a collection if one is wanted. -/
def stepWith (invoke : Invoker) : Action StepExit := do
  Update.recorded (requireOutsideNative "step")
  let machine : Machine ← get
  match machine.phase with
  | .halted => return .halted
  | .faulted => throw (.runtime .faulted)
  | .empty => Update.recorded (throw (.badArgument "no program loaded"))
  | .ready =>
    if machine.collector.wantsCollection then set machine.collect.2
    faulting (executeNext invoke)

/-- Carries out steps until the program halts or fails, and a number of them at most. -/
def runFor (invoke : Invoker) : Nat → Action RunExit
  | 0 => return .stepLimit
  | count + 1 => do
    match ← stepWith invoke with
    | .halted => return .halted
    | .continued => runFor invoke count

/-- Carries out steps up to a limit, where zero means no limit: then the run must end within the
fuel. -/
def runWith (invoke : Invoker) (fuel limit : Nat) : Action RunExit :=
  if limit = 0 then do
    match ← runFor invoke fuel with
    | .halted => return .halted
    | .stepLimit => Action.exhausted
  else runFor invoke limit

end Machine

end StackMachine
