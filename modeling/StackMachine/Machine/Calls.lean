import StackMachine.Machine.Builtins
import StackMachine.Machine.Coercion
import StackMachine.Machine.Interpreter

/-!
# Calling natives

A native runs with its arguments converted by its signature, and the converted arguments are kept
in the scratch area, where a collection finds them, until it returns. Natives of the host call the
machine again, so a call is given fuel: each native under way takes one unit, and a run without a
limit may take as many steps as there are units left. More fuel never changes an answer.
-/

namespace StackMachine

namespace Machine

/-- Calls the native of a name. -/
def callNativeWith (invoke : Invoker) (name : String) (arguments : List Value) : Action Value :=
  Action.recorded do
    let machine : Machine ← get
    match machine.natives.getBytes? machine.heap (Utf8.encode name.toList) with
    | some entry => invoke entry arguments
    | none => throw (.notFound "native" name)

/-- The action that changes the machine and cannot fail. -/
def changing {α : Type} (change : Machine → α × Machine) : Action α :=
  Action.of fun machine =>
    let (result, after) := change machine
    some (.ok result, after)

/-- Makes a call of the interface. -/
def performWith (invoke : Invoker) (fuel : Nat) : (call : Call) → Action call.Reply
  | .load image => Action.attempt (load image)
  | .loadProgram program => Action.attempt (loadProgram program)
  | .reset => Action.attempt reset
  | .step => Action.attempt (stepWith invoke)
  | .run limit => Action.attempt (runWith invoke fuel limit)
  | .push value => Action.attempt (push value)
  | .pop => changing pop
  | .getGlobal name => Action.attempt (getGlobal name)
  | .setGlobal name value => Action.attempt (setGlobal name value)
  | .newString bytes => Action.attempt (newString bytes)
  | .intern text => Action.attempt (intern text)
  | .unregister name => changing fun machine => machine.unregister name
  | .hasNative name => changing fun machine => (machine.hasNative name, machine)
  | .callNative name arguments => Action.attempt (callNativeWith invoke name arguments)
  | .collect => changing collect
  | .setMode mode => changing fun machine => ((), machine.setMode mode)
  | .setThreshold threshold => changing fun machine => ((), machine.setThreshold threshold)
  | .clearError => changing fun machine => ((), machine.clearError)
  | .text value => changing fun machine => (machine.text value, machine)
  | .bytes value => changing fun machine => (machine.bytes? value, machine)
  | .equal left right => changing fun machine => (left.isEqual machine.heap right, machine)
  | .view => changing fun machine => (machine.view, machine)

end Machine

/-- Runs a script, given the way to make calls. -/
def Script.run (perform : (request : Call) → Action request.Reply) : Script → Action Value
  | .finish result => Update.ofExcept result
  | .call request next => do
    let reply ← perform request
    (next reply).run perform
  | .register name signature native next => do
    let outcome ← Action.attempt (Machine.register name signature native)
    (next outcome).run perform

namespace Machine

/-- Runs a native with the arguments it is to see. -/
def runNative (perform : (call : Call) → Action call.Reply) (native : Native)
    (arguments : List Value) : Action Value :=
  match native with
  | .builtin builtin => builtin.run arguments
  | .host body => (body arguments).run perform

/-- Runs a registered native, converting its arguments and its result when it has a signature. -/
def runEntry (perform : (call : Call) → Action call.Reply) (entry : NativeEntry)
    (arguments : List Value) : Action Value :=
  match entry.signature with
  | none => runNative perform entry.native arguments
  | some signature => do
    let base := (← getThe Machine).scratch.length
    let converting : Action Value := do
      let converted ← coerceArguments signature entry.name arguments
      modify fun (machine : Machine) => { machine with scratch := machine.scratch ++ converted }
      let result ← runNative perform entry.native converted
      coerceResult signature entry.name result
    converting.afterwards fun after => { after with scratch := after.scratch.take base }

/-- The way to call natives with a given amount of fuel. -/
def invoke : (fuel : Nat) → Invoker
  | 0, _, _ => Action.exhausted
  | fuel + 1, entry, arguments => runEntry (performWith (invoke fuel) fuel) entry arguments

/-! ## The interface, with fuel -/

/-- Carries out one instruction. -/
def step (fuel : Nat) : Action StepExit :=
  stepWith (invoke fuel)

/-- Carries out instructions up to a limit, or without one when it is zero. -/
def run (fuel limit : Nat) : Action RunExit :=
  runWith (invoke fuel) fuel limit

/-- Calls the native of a name. -/
def callNative (fuel : Nat) (name : String) (arguments : List Value) : Action Value :=
  callNativeWith (invoke fuel) name arguments

/-- Makes a call of the interface. -/
def perform (fuel : Nat) (call : Call) : Action call.Reply :=
  performWith (invoke fuel) fuel call

end Machine

end StackMachine
