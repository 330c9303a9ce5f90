import StackMachine.Machine.State

/-!
# Changing the machine

An update changes the machine and succeeds or fails; what it changed before failing stays changed.
An action is an update that may also not be known to end, because natives and programs can run for
as long as they like: it gives nothing when the fuel it was made with does not suffice.
-/

namespace StackMachine

/-- A change of the machine that gives a result or fails. -/
abbrev Update (α : Type) : Type :=
  ExceptT MachineError (StateM Machine) α

/-- A change of the machine that gives a result, fails, or runs out of fuel. -/
abbrev Action (α : Type) : Type :=
  ExceptT MachineError (StateT Machine Option) α

/-- An action reads and writes the machine that it changes. -/
instance : MonadStateOf Machine Action :=
  inferInstance

/-- Applies an update to a machine. -/
def Update.apply {α : Type} (update : Update α) (machine : Machine) :
    Except MachineError α × Machine :=
  update.run.run machine

/-- Applies an action to a machine. -/
def Action.apply {α : Type} (action : Action α) (machine : Machine) :
    Option (Except MachineError α × Machine) :=
  action.run.run machine

/-- The update with a given effect. -/
def Update.of {α : Type} (effect : Machine → Except MachineError α × Machine) : Update α :=
  ExceptT.mk effect

/-- The action with a given effect. -/
def Action.of {α : Type} (effect : Machine → Option (Except MachineError α × Machine)) :
    Action α :=
  ExceptT.mk effect

/-- The action that never needs fuel. -/
def Update.toAction {α : Type} (update : Update α) : Action α :=
  Action.of fun machine => some (update.apply machine)

instance : MonadLift Update Action where
  monadLift := Update.toAction

namespace Machine

/-- The machine after a failure worth remembering. -/
def remember (machine : Machine) (error : MachineError) : Machine :=
  { machine with lastError := some (.ofError error) }

end Machine

namespace Update

/-- The update that fails or succeeds without changing the machine. -/
def ofExcept {α : Type} (result : Except MachineError α) : Update α :=
  Update.of fun machine => (result, machine)

/-- The update that fails when storage does. -/
def ofStorage {α : Type} (result : Except StorageError α) : Update α :=
  ofExcept (result.mapError MachineError.ofStorage)

/-- The update that fails when an operation on the stack does. -/
def ofStack {α : Type} (result : Except RuntimeFault α) : Update α :=
  ofExcept (result.mapError MachineError.runtime)

/-- The update whose failure is remembered. -/
def recorded {α : Type} (update : Update α) : Update α :=
  Update.of fun machine =>
    match update.apply machine with
    | (.error error, after) => (.error error, after.remember error)
    | success => success

end Update

namespace Action

/-- The action that runs out of fuel. -/
def exhausted {α : Type} : Action α :=
  Action.of fun _ => none

/-- The action whose failure is remembered. -/
def recorded {α : Type} (action : Action α) : Action α :=
  Action.of fun machine =>
    match action.apply machine with
    | some (.error error, after) => some (.error error, after.remember error)
    | other => other

/-- The action whose failure is a result like any other. -/
def attempt {α : Type} (action : Action α) : Action (Except MachineError α) :=
  Action.of fun machine =>
    (action.apply machine).map fun (result, after) => (.ok result, after)

/-- The action followed by a change of the machine, whatever the outcome. -/
def afterwards {α : Type} (action : Action α) (restore : Machine → Machine) : Action α :=
  Action.of fun machine =>
    (action.apply machine).map fun (result, after) => (result, restore after)

end Action

end StackMachine
