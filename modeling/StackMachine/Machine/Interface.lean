import StackMachine.Machine.Update

/-!
# Calls that always end

Loading programs, registering natives, and access to globals, strings and the stack. A failing call
leaves a record of its failure. While a native called by the program is under way, the program can
be neither replaced nor reset.
-/

namespace StackMachine

namespace Machine

/-! ## Strings -/

/-- Allocates a string and tells the collector in a given way. -/
def allocateWith (tell : Collector → StringRef → Nat → Bool × Collector)
    (bytes : List UInt8) : Update StringRef := do
  Update.ofStorage (StringHeap.checkLength bytes)
  modifyGet fun machine =>
    let ref := machine.heap.nextRef
    (ref, { machine with
      heap := machine.heap.store bytes
      collector := (tell machine.collector ref machine.heap.nextSlot).2 })

/-- Allocates a string that is the collector's to look after. -/
def allocate (bytes : List UInt8) : Update StringRef :=
  allocateWith Collector.track bytes

/-- Allocates a string of its own. -/
def newString (bytes : List UInt8) : Update Value :=
  Update.recorded do
    let ref ← allocate bytes
    return .string ref

/-- The string that stands for a text, allocated the first time. -/
def intern (text : String) : Update Value :=
  Update.recorded do
    let machine ← get
    let interned ← Update.ofStorage (machine.pool.intern machine.heap (Utf8.encode text.toList))
    let collector :=
      if interned.fresh then
        (machine.collector.track interned.ref (interned.heap.slotOf interned.ref)).2
      else machine.collector
    set { machine with heap := interned.heap, pool := interned.pool, collector }
    return .string interned.ref

/-- Fails for a string that is gone. -/
def requireLive (value : Value) : Update Unit := do
  match value with
  | .string ref =>
    if !(← get).heap.contains ref then
      throw (.badArgument "string handle is no longer live")
  | _ => return ()

/-! ## Programs -/

/-- Fails while a native called by the program is under way. -/
def requireOutsideNative (what : String) : Update Unit := do
  if (← get).inNative then
    throw (.badArgument ("cannot " ++ what ++ " from inside a native call"))

/-- Puts a constant on the heap and tells the collector that the program is responsible for it. -/
def addConstant (bytes : List UInt8) : Update StringRef := do
  if (← get).sharesConstants then
    let machine ← get
    let interned ← Update.ofStorage (machine.pool.intern machine.heap bytes)
    set { machine with
      heap := interned.heap
      pool := interned.pool
      collector :=
        (machine.collector.trackBorrowed interned.ref (interned.heap.slotOf interned.ref)).2 }
    return interned.ref
  else allocateWith Collector.trackBorrowed bytes

/-- Puts constants on the heap. -/
def addConstants : List (List UInt8) → Update (List StringRef)
  | [] => return []
  | bytes :: rest => do
    let ref ← addConstant bytes
    let refs ← addConstants rest
    return ref :: refs

/-- The collector once it is responsible for constants that are no longer in use. -/
def releaseConstants (collector : Collector) (old current : List StringRef) : Collector :=
  (old.filter fun ref => !current.contains ref).foldl
    (fun collector ref => (collector.adopt ref).2) collector

/-- Makes a program the current one. -/
def install (program : Program) : Update Unit := do
  let constants ← addConstants program.strings
  modify fun machine => { machine with
    program := ⟨program.code, constants⟩
    collector := releaseConstants machine.collector machine.program.constants constants
    stack := machine.stack.clear
    offset := 0
    phase := .ready }

/-- Loads the image of a program. -/
def load (image : List UInt8) : Update Unit :=
  Update.recorded do
    requireOutsideNative "load a program"
    let program ← Update.ofExcept ((Program.load image).mapError .badBytecode)
    install program

/-- Loads a program that is well formed. -/
def loadProgram (program : Program) : Update Unit :=
  Update.recorded do
    requireOutsideNative "load a program"
    Update.ofExcept (program.verify.mapError .badBytecode)
    install program

/-- Goes back to the start of the program with an empty stack. -/
def reset : Update Unit :=
  Update.recorded do
    requireOutsideNative "reset"
    modify fun machine => { machine with
      stack := machine.stack.clear
      offset := 0
      phase := if machine.phase = .empty then .empty else .ready }

/-! ## Natives -/

/-- Puts a native into the table, under the key of an earlier one of that name. -/
def putNative (entry : NativeEntry) : Update Unit := do
  let bytes := Utf8.encode entry.name.toList
  let machine ← get
  let key ←
    match machine.natives.keyOfBytes? machine.heap bytes with
    | some key => pure key
    | none => allocate bytes
  let machine ← get
  let (_, natives) ← Update.ofStorage (machine.natives.put machine.heap key entry)
  set { machine with natives }

/-- Registers a native under a name, with a signature in text form or none. -/
def register (name : String) (signature : Option String) (native : Native) : Update Unit :=
  Update.recorded do
    let signature ←
      match signature with
      | some text => do
        let signature ← Update.ofExcept (Signature.read text)
        pure (some signature)
      | none => pure none
    putNative ⟨name, native, signature⟩

/-- Removes the native of a name, and says whether there was one. -/
def unregister (machine : Machine) (name : String) : Bool × Machine :=
  let (old, natives) := machine.natives.deleteBytes machine.heap (Utf8.encode name.toList)
  (old.isSome, { machine with natives })

/-! ## Globals -/

/-- The value of a global. -/
def getGlobal (name : String) : Update Value :=
  Update.recorded do
    let machine ← get
    match machine.globals.getBytes? machine.heap (Utf8.encode name.toList) with
    | some value => return value
    | none => throw (.notFound "global" name)

/-- Sets a global. -/
def setGlobal (name : String) (value : Value) : Update Unit :=
  Update.recorded do
    requireLive value
    let bytes := Utf8.encode name.toList
    let machine ← get
    let key ←
      match machine.globals.keyOfBytes? machine.heap bytes with
      | some key => pure key
      | none => allocate bytes
    let machine ← get
    let (_, globals) ← Update.ofStorage (machine.globals.put machine.heap key value)
    set { machine with globals }

/-! ## Stack -/

/-- Pushes an operand. -/
def pushOperand (value : Value) : Update Unit := do
  let machine ← get
  let stack ← Update.ofExcept (machine.stack.push value)
  set { machine with stack }

/-- Pushes a value of the host. -/
def push (value : Value) : Update Unit :=
  Update.recorded do
    requireLive value
    pushOperand value

/-- Pops a value for the host. -/
def pop (machine : Machine) : Option Value × Machine :=
  match machine.stack.pop Opcode.pop.mnemonic with
  | .ok (value, stack) => (some value, { machine with stack })
  | .error _ => (none, machine)

/-! ## Collector and errors -/

/-- The machine with its collector in another mode. -/
def setMode (machine : Machine) (mode : CollectionMode) : Machine :=
  { machine with collector := machine.collector.setMode mode }

/-- The machine with another threshold for collections. -/
def setThreshold (machine : Machine) (threshold : Option Nat) : Machine :=
  { machine with collector := machine.collector.setThreshold threshold }

/-- The machine without a record of a failure. -/
def clearError (machine : Machine) : Machine :=
  { machine with lastError := none }

/-- Writes to the output. -/
def write (bytes : List UInt8) : Update Unit := do
  let machine ← get
  let (complete, sink) := machine.sink.write bytes
  set { machine with sink }
  if !complete then throw (.output sink.refusal)

end Machine

end StackMachine
