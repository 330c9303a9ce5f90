import StackMachine.DecodeError
import StackMachine.StorageError

/-!
# Errors of the machine

Every failing call of the machine gives a cause and, with it, one of a few statuses. The machine
remembers the status and the wording of the last failure.
-/

namespace StackMachine

/-- The outcome of a call, coarsely. -/
inductive Status where
  | ok
  | outOfMemory
  | badBytecode
  | runtimeError
  | notFound
  | badArgument
deriving DecidableEq, Repr

/-- The wording of a status. -/
def Status.text : Status → String
  | ok => "ok"
  | outOfMemory => "out of memory"
  | badBytecode => "bad bytecode"
  | runtimeError => "runtime error"
  | notFound => "not found"
  | badArgument => "bad argument"

/-- What can go wrong in an instruction. -/
inductive RuntimeFault where
  | stackUnderflow (operation : String) (needed depth : Nat)
  | stackOverflow (capacity : Nat)
  | divisionByZero
  | typeMismatch (operation left right : String)
  | unknownOpcode (byte : UInt8) (offset : Nat)
  /-- An instruction failed before, and the machine was not reset since. -/
  | faulted
deriving DecidableEq, Repr

/-- The wording of a fault. -/
def RuntimeFault.message : RuntimeFault → String
  | stackUnderflow operation needed depth =>
    "stack underflow in " ++ operation ++ ": needs " ++ Numeral.text needed ++
      " values, stack has " ++ Numeral.text depth
  | stackOverflow capacity =>
    "stack overflow: capacity of " ++ Numeral.text capacity ++ " values exceeded"
  | divisionByZero => "division by zero"
  | typeMismatch operation left right =>
    "type mismatch in " ++ operation ++ ": cannot apply to " ++ left ++ " and " ++ right
  | unknownOpcode byte offset =>
    "unknown opcode 0x" ++ String.ofList (Numeral.paddedHexadecimal 2 byte.toNat) ++ " at " ++
      Numeral.text offset
  | faulted => "vm is faulted; load a program or reset before running again"

/-- Why a call of the machine fails. -/
inductive MachineError where
  | outOfMemory (what : String)
  | badBytecode (reason : DecodeError)
  /-- Execution ran past the code. -/
  | codeOverrun (offset : Nat)
  | runtime (fault : RuntimeFault)
  | notFound (kind name : String)
  | badArgument (reason : String)
  /-- The output could not be written. -/
  | output (reason : String)
deriving DecidableEq, Repr

namespace MachineError

/-- The status of a cause. -/
def status : MachineError → Status
  | outOfMemory _ => .outOfMemory
  | badBytecode _ | codeOverrun _ => .badBytecode
  | runtime _ | output _ => .runtimeError
  | notFound _ _ => .notFound
  | badArgument _ => .badArgument

/-- The wording of a cause. -/
def message : MachineError → String
  | outOfMemory what => "out of memory while allocating " ++ what
  | badBytecode reason => "bad bytecode: " ++ reason.message
  | codeOverrun offset =>
    "instruction pointer " ++ Numeral.text offset ++ " ran past the end of the code"
  | runtime fault => fault.message
  | notFound kind name => kind ++ " `" ++ name ++ "` not found"
  | badArgument reason => "bad argument: " ++ reason
  | output reason => "output error: " ++ reason

/-- The cause that a failure of storage amounts to. -/
def ofStorage : StorageError → MachineError
  | .outOfMemory what => outOfMemory what
  | other => badArgument other.message

end MachineError

/-- What is remembered of a failure. -/
structure LastError where
  /-- The status of the failure. -/
  status : Status
  /-- The wording of the failure. -/
  message : String
deriving DecidableEq, Repr

namespace LastError

/-- What is remembered of a cause. -/
def ofError (error : MachineError) : LastError :=
  ⟨error.status, error.message⟩

/-- The status followed by the wording. -/
def text (error : LastError) : String :=
  error.status.text ++ ": " ++ error.message

end LastError

end StackMachine
