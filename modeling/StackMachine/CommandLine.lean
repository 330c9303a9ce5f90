import StackMachine.Assembly.Assembler
import StackMachine.Assembly.Disassembly
import StackMachine.Machine.Calls
import StackMachine.Machine.Create

/-!
# The command line

Three commands assemble a file, disassemble one, and run one. An input file that starts with the
magic number is a program image; any other is assembly text. A command ends with a report of what
it printed, what it wrote and whether it failed.
-/

namespace StackMachine

namespace CommandLine

/-- How to run a program. -/
structure RunOptions where
  /-- The number of steps after which to stop, or zero. -/
  maxSteps : Nat := 0
  /-- The operand stack. -/
  stack : StackConfig := {}
  /-- The collector. -/
  collector : CollectorConfig := {}
deriving DecidableEq, Repr

/-- What to do. -/
inductive Command where
  | assemble (input output : String)
  | disassemble (input : String)
  | run (input : String) (options : RunOptions)
deriving DecidableEq, Repr

/-- What a command did. -/
structure Report where
  /-- Whether the command failed. -/
  failed : Bool := false
  /-- The bytes printed. -/
  printed : List UInt8 := []
  /-- The lines of diagnosis, each with its line feed. -/
  diagnosis : String := ""
  /-- The bytes written to the output file. -/
  written : Option (List UInt8) := none
deriving Repr

/-- How files answer: with their bytes or the reason they cannot be read, and with the reason they
cannot be written, if there is one. -/
structure Files where
  /-- The bytes of a file. -/
  read : String → Except String (List UInt8)
  /-- Whether a file can be written. -/
  write : String → Except String Unit

/-! ## Messages -/

/-- The message that a file cannot be read. -/
def readFailure (path reason : String) : String :=
  "error reading '" ++ path ++ "': " ++ reason

/-- The message that a file cannot be written. -/
def writeFailure (path reason : String) : String :=
  "error writing '" ++ path ++ "': " ++ reason

/-- The message of a failure outside a run. -/
def failureText (error : MachineError) : String :=
  error.status.text ++ ": " ++ error.message

/-- The report of a failure. -/
def failure (message : String) : Report :=
  { failed := true, diagnosis := message ++ "\n" }

/-! ## Commands -/

/-- The program in a file of which the bytes are known. -/
def programOfBytes (path : String) (bytes : List UInt8) : Except String Program :=
  if Program.hasMagic bytes then
    (Program.load bytes).mapError fun reason => "bad bytecode: " ++ reason.message
  else
    match Utf8.decode? bytes with
    | none => .error ("'" ++ path ++ "' is neither a program nor UTF-8 text")
    | some source => (assemble source).mapError fun error => path ++ ": " ++ error.message

/-- The program in a file. -/
def loadFile (files : Files) (path : String) : Except String Program :=
  match files.read path with
  | .error reason => .error (readFailure path reason)
  | .ok bytes => programOfBytes path bytes

/-- A machine with a program loaded. -/
def prepare (options : RunOptions) (program : Program) : Except MachineError Machine := do
  let machine ← Machine.create { stack := options.stack, collector := options.collector }
  let (result, machine) := (Machine.loadProgram program).apply machine
  result
  return machine

/-- The report of a run that left a machine behind. -/
def runReport (options : RunOptions) (result : Except MachineError RunExit) (machine : Machine) :
    Report :=
  let printed := machine.sink.written
  let offset := Numeral.text machine.offset
  match result with
  | .ok .halted => { printed }
  | .ok .stepLimit =>
    { printed
      diagnosis := "stopped after " ++ Numeral.text options.maxSteps ++ " steps at offset " ++
        offset ++ "\n" }
  | .error _ =>
    let message := (machine.lastError.map LastError.text).getD "runtime error"
    { failure (message ++ " (at offset " ++ offset ++ ")") with printed }

/-- Runs a program, with an amount of fuel. -/
def runProgram (fuel : Nat) (options : RunOptions) (program : Program) : Option Report :=
  match prepare options program with
  | .error error => some (failure (failureText error))
  | .ok machine =>
    ((Machine.run fuel options.maxSteps).apply machine).map fun (result, machine) =>
      runReport options result machine

/-- Carries out a command, with an amount of fuel. -/
def execute (fuel : Nat) (files : Files) : Command → Option Report
  | .assemble input output =>
    match loadFile files input with
    | .error message => some (failure message)
    | .ok program =>
      match files.write output with
      | .error reason => some (failure (writeFailure output reason))
      | .ok () => some { written := some program.image }
  | .disassemble input =>
    match loadFile files input with
    | .error message => some (failure message)
    | .ok program => some { printed := Utf8.encode (disassemble program).toList }
  | .run input options =>
    match loadFile files input with
    | .error message => some (failure message)
    | .ok program => runProgram fuel options program

/-! ## Arguments -/

/-- How the program is used. -/
def usage : String :=
  "usage: pila asm <INPUT> --output <OUTPUT>\n" ++
  "       pila dis <INPUT>\n" ++
  "       pila run <INPUT> [--max-steps <N>] [--stack <N>] [--growable-stack] [--gc-own]" ++
  " [--gc-threshold <N>]"

/-- A natural number below `2^64`. -/
def number? (text : String) : Option Nat :=
  Numeral.unsigned? 10 UInt64.size text.toList

/-- Reads the arguments of `asm`. -/
def readAssemble : (input output : Option String) → List String → Option Command
  | some input, some output, [] => some (.assemble input output)
  | input, none, "-o" :: path :: rest => readAssemble input (some path) rest
  | input, none, "--output" :: path :: rest => readAssemble input (some path) rest
  | none, output, path :: rest => readAssemble (some path) output rest
  | _, _, _ => none

/-- Reads the arguments of `run`. -/
def readRun : (input : Option String) → RunOptions → List String → Option Command
  | some input, options, [] => some (.run input options)
  | input, options, "--max-steps" :: value :: rest =>
    (number? value).bind fun maxSteps => readRun input { options with maxSteps } rest
  | input, options, "--stack" :: value :: rest =>
    (number? value).bind fun capacity =>
      readRun input { options with stack.capacity := capacity } rest
  | input, options, "--growable-stack" :: rest =>
    readRun input { options with stack.growable := true } rest
  | input, options, "--gc-own" :: rest =>
    readRun input { options with collector.mode := .own } rest
  | input, options, "--gc-threshold" :: value :: rest =>
    (number? value).bind fun threshold =>
      readRun input { options with collector.threshold := some threshold } rest
  | none, options, path :: rest => readRun (some path) options rest
  | _, _, _ => none

/-- The command that arguments spell. -/
def readArguments : List String → Option Command
  | "asm" :: rest => readAssemble none none rest
  | ["dis", input] => some (.disassemble input)
  | "run" :: rest => readRun none {} rest
  | _ => none

end CommandLine

end StackMachine
