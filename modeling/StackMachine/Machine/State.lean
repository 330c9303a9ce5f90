import StackMachine.ContentMap
import StackMachine.Native
import StackMachine.OperandStack
import StackMachine.StringPool

/-!
# The state of the machine

The machine owns its strings, stack, globals, natives, loaded program and collector. Its output is
a sink that may have limited room. The strings that the state refers to are the roots of a
collection.
-/

namespace StackMachine

/-- Where output goes. -/
structure Sink where
  /-- The bytes written, the last one first. -/
  reversed : List UInt8 := []
  /-- How many more bytes are accepted, when there is a limit. -/
  room : Option Nat := none
  /-- The reason given when there is no room. -/
  refusal : String := "sink full"
deriving Repr

namespace Sink

/-- The bytes written. -/
def written (sink : Sink) : List UInt8 :=
  sink.reversed.reverse

/-- Writes as many bytes as there is room for, and says whether that was all of them. -/
def write (sink : Sink) (bytes : List UInt8) : Bool × Sink :=
  match sink.room with
  | none => (true, { sink with reversed := bytes.reverse ++ sink.reversed })
  | some room =>
    (bytes.length ≤ room, { sink with
      reversed := (bytes.take room).reverse ++ sink.reversed
      room := some (room - bytes.length) })

end Sink

/-- A program in the machine, its pool being on the heap. -/
structure LoadedProgram where
  /-- The code. -/
  code : List UInt8 := []
  /-- The strings of the pool. -/
  constants : List StringRef := []
deriving Repr

/-- A machine. -/
structure Machine where
  /-- The strings. -/
  heap : StringHeap := {}
  /-- The interned strings. -/
  pool : StringPool := {}
  /-- The operand stack. -/
  stack : OperandStack
  /-- The globals. -/
  globals : ContentMap Value := {}
  /-- The natives by name. -/
  natives : ContentMap NativeEntry := {}
  /-- The loaded program. -/
  program : LoadedProgram := {}
  /-- The offset of the next instruction. -/
  offset : Nat := 0
  /-- Whether the machine can make progress. -/
  phase : Phase := .empty
  /-- The collector. -/
  collector : Collector := {}
  /-- Where output goes. -/
  sink : Sink := {}
  /-- Converted arguments of the natives under way. -/
  scratch : List Value := []
  /-- Whether a native called by the program is under way. -/
  inNative : Bool := false
  /-- What is remembered of the last failure. -/
  lastError : Option LastError := none
  /-- Whether equal constants share one string. -/
  sharesConstants : Bool := false

namespace Machine

/-- The strings among values. -/
def stringsOf (values : List Value) : List StringRef :=
  values.filterMap Value.string?

/-- The strings that the state refers to. -/
def roots (machine : Machine) : List StringRef :=
  stringsOf machine.stack.toList ++ stringsOf machine.scratch ++
    machine.globals.entries.flatMap (fun (key, value) => key :: stringsOf [value]) ++
    machine.natives.keys ++ machine.program.constants

/-- Runs a collection. The pool is purged when a string was freed. -/
def collect (machine : Machine) : CollectionStats × Machine :=
  let (stats, collector, heap) := machine.collector.collect machine.roots machine.heap
  let pool := if 0 < stats.freed then (machine.pool.purge heap).2 else machine.pool
  (stats, { machine with collector, heap, pool })

/-- The text of a value. -/
def text (machine : Machine) (value : Value) : String :=
  String.ofList (value.text machine.heap)

/-- The content of a string value. -/
def bytes? (machine : Machine) (value : Value) : Option (List UInt8) :=
  value.string?.bind machine.heap.bytes?

/-- The text of a string in messages, empty when the string is gone. -/
def nameText (machine : Machine) (ref : StringRef) : String :=
  String.ofList (((machine.heap.bytes? ref).map Utf8.decodeLossy).getD [])

/-- Whether a native is registered under a name. -/
def hasNative (machine : Machine) (name : String) : Bool :=
  (machine.natives.getBytes? machine.heap (Utf8.encode name.toList)).isSome

/-- The globals in the order of the table, by content. -/
def globalValues (machine : Machine) : List (List UInt8 × Value) :=
  machine.globals.entries.filterMap fun (key, value) =>
    (machine.heap.bytes? key).map fun bytes => (bytes, value)

/-- What can be read off a machine. -/
def view (machine : Machine) : MachineView where
  stack := machine.stack.toList
  offset := machine.offset
  phase := machine.phase
  constants := machine.program.constants
  globals := machine.globalValues
  liveStrings := machine.heap.size
  stats := machine.collector.stats
  mode := machine.collector.config.mode
  lastError := machine.lastError

/-- A summary of the state, for diagnosis. -/
def summary (machine : Machine) : String :=
  "Vm \x7b state: " ++ machine.phase.name ++ ", ip: " ++ Numeral.text machine.offset ++
    ", stack: " ++ Numeral.text machine.stack.depth ++
    ", globals: " ++ Numeral.text machine.globals.size ++
    ", natives: " ++ Numeral.text machine.natives.size ++
    ", strings: " ++ Numeral.text machine.heap.size ++ ", .. \x7d"

end Machine

end StackMachine
