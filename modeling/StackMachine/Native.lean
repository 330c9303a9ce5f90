import StackMachine.Collector
import StackMachine.MachineError
import StackMachine.Program
import StackMachine.Signature
import StackMachine.Value

/-!
# Natives

A native is a function of the host that programs call by name. The machine has a few builtin ones.
Any other native is a script: a finite tree whose nodes are calls of the machine's own interface and
whose branches are the replies. A native can therefore do nothing to the machine but what the
interface allows.
-/

namespace StackMachine

/-! ## The interface of the machine -/

/-- Whether the machine can make progress. -/
inductive Phase where
  /-- No program is loaded. -/
  | empty
  | ready
  | halted
  /-- An instruction failed. -/
  | faulted
deriving DecidableEq, Repr

/-- The name of a phase. -/
def Phase.name : Phase → String
  | empty => "Empty"
  | ready => "Ready"
  | halted => "Halted"
  | faulted => "Faulted"

/-- The outcome of a successful step. -/
inductive StepExit where
  | continued
  | halted
deriving DecidableEq, Repr

/-- Why a run without a failure ended. -/
inductive RunExit where
  | halted
  /-- The limit on the number of steps was reached. -/
  | stepLimit
deriving DecidableEq, Repr

/-- What can be read off a machine without changing it. -/
structure MachineView where
  /-- The operand stack, the bottom first. -/
  stack : List Value
  /-- The offset of the next instruction. -/
  offset : Nat
  /-- The phase. -/
  phase : Phase
  /-- The constants of the program. -/
  constants : List StringRef
  /-- The names and values of the globals. -/
  globals : List (List UInt8 × Value)
  /-- The number of live strings. -/
  liveStrings : Nat
  /-- The figures of the collector. -/
  stats : CollectionStats
  /-- The mode of the collector. -/
  mode : CollectionMode
  /-- What is remembered of the last failure. -/
  lastError : Option LastError

/-- A call of the machine's interface that registers no native. -/
inductive Call where
  | load (image : List UInt8)
  | loadProgram (program : Program)
  | reset
  | step
  | run (limit : Nat)
  | push (value : Value)
  | pop
  | getGlobal (name : String)
  | setGlobal (name : String) (value : Value)
  | newString (bytes : List UInt8)
  | intern (text : String)
  | unregister (name : String)
  | hasNative (name : String)
  | callNative (name : String) (arguments : List Value)
  | collect
  | setMode (mode : CollectionMode)
  | setThreshold (threshold : Option Nat)
  | clearError
  /-- The text of a value. -/
  | text (value : Value)
  /-- The content of a string. -/
  | bytes (value : Value)
  /-- Whether two values are equal to a program. -/
  | equal (left right : Value)
  /-- What can be read off the machine. -/
  | view

/-- The reply to a call. -/
def Call.Reply : Call → Type
  | load _ | loadProgram _ | reset | push _ | setGlobal _ _ => Except MachineError Unit
  | step => Except MachineError StepExit
  | run _ => Except MachineError RunExit
  | pop => Option Value
  | getGlobal _ | newString _ | intern _ | callNative _ _ => Except MachineError Value
  | unregister _ | hasNative _ | equal _ _ => Bool
  | collect => CollectionStats
  | setMode _ | setThreshold _ | clearError => Unit
  | text _ => String
  | bytes _ => Option (List UInt8)
  | view => MachineView

/-! ## What natives do -/

/-- The natives that the machine brings along. -/
inductive Builtin where
  /-- Writes its arguments, separated by spaces, and a line feed. -/
  | print
  /-- The length of a string. -/
  | length
  /-- Its argument, which the signature converts. -/
  | identity
  /-- The name of the type of its argument. -/
  | typeName
  /-- The contents or texts of its arguments, joined. -/
  | concat
deriving DecidableEq, Repr

mutual

/-- What a native does. -/
inductive Native where
  | builtin (builtin : Builtin)
  /-- A native of the host, which reacts to its arguments. -/
  | host (body : List Value → Script)

/-- What a native of the host does from some point on. -/
inductive Script where
  /-- Ends with a result or a failure. -/
  | finish (result : Except MachineError Value)
  /-- Makes a call and goes on with the reply. -/
  | call (call : Call) (next : call.Reply → Script)
  /-- Registers a native and goes on with the outcome. -/
  | register (name : String) (signature : Option String) (native : Native)
      (next : Except MachineError Unit → Script)

end

/-- A native that is registered. -/
structure NativeEntry where
  /-- The name it was registered under. -/
  name : String
  /-- What it does. -/
  native : Native
  /-- Its signature, when its arguments and its result are to be converted. -/
  signature : Option Signature

/-- The builtin natives, with their names and signatures. -/
def Builtin.table : List (String × Option String × Builtin) :=
  [("print", none, .print), ("len", some "s->i", .length), ("str", some "a->s", .identity),
    ("int", some "a->i", .identity), ("float", some "a->f", .identity),
    ("type", some "a->s", .typeName), ("concat", some "s,s,*->s", .concat)]

end StackMachine
