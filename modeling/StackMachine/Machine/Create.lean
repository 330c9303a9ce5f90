import StackMachine.Machine.Interface

/-!
# Creating machines
-/

namespace StackMachine

/-- How a machine is set up. -/
structure MachineConfig where
  /-- The operand stack. -/
  stack : StackConfig := {}
  /-- The collector. -/
  collector : CollectorConfig := {}
  /-- Where output goes. -/
  sink : Sink := {}
  /-- Whether the builtin natives are registered. -/
  builtins : Bool := true
  /-- Whether equal constants share one string. -/
  sharesConstants : Bool := false

namespace Machine

/-- Registers the builtin natives of a list. -/
def registerBuiltins : List (String × Option String × Builtin) → Update Unit
  | [] => return ()
  | (name, signature, builtin) :: rest => do
    register name signature (.builtin builtin)
    registerBuiltins rest

/-- A machine without a program. -/
def create (config : MachineConfig) : Except MachineError Machine := do
  let stack ← OperandStack.create config.stack
  let machine : Machine := {
    stack
    collector := Collector.ofConfig config.collector
    sink := config.sink
    sharesConstants := config.sharesConstants }
  let (result, machine) :=
    (registerBuiltins (if config.builtins then Builtin.table else [])).apply machine
  result
  return machine

end Machine

/-- A machine that several holders refer to. -/
structure SharedMachine where
  /-- The machine. -/
  machine : Machine
  /-- The number of holders beyond the first. -/
  clones : Nat := 0

namespace SharedMachine

/-- One more holder. -/
def clone (shared : SharedMachine) : SharedMachine :=
  { shared with clones := shared.clones + 1 }

/-- All holders but the first let go. -/
def dropClones (shared : SharedMachine) : SharedMachine :=
  { shared with clones := 0 }

/-- The machine itself, when there is a single holder. -/
def unwrap? (shared : SharedMachine) : Option Machine :=
  if shared.clones = 0 then some shared.machine else none

end SharedMachine

end StackMachine
