import StackMachine.CommandLine

/-!
# The program `pila`

Reads and writes files, runs programs a stretch at a time so that their output appears as they go,
and leaves every decision to `StackMachine.CommandLine`.
-/

namespace StackMachine

namespace CommandLine

/-- A description with the number of the system error, which some calls give negated. -/
def systemReason (description : String) (code : UInt32) : String :=
  let number := min code.toNat (UInt32.size - code.toNat)
  description ++ " (os error " ++ Numeral.text number ++ ")"

/-- The reason in an error of the operating system. -/
def reasonOf (error : IO.Error) : String :=
  match error with
  | .noFileOrDirectory _ code _ => systemReason "No such file or directory" code
  | .permissionDenied _ code _ => systemReason "Permission denied" code
  | other => other.toString

/-- The bytes of a file, or the reason it cannot be read. -/
def readBytes (path : String) : IO (Except String (List UInt8)) := do
  try
    let bytes ← IO.FS.readBinFile path
    return .ok bytes.data.toList
  catch error => return .error (reasonOf error)

/-- Prints bytes. -/
def printBytes (bytes : List UInt8) : IO Unit := do
  let output ← IO.getStdout
  output.write ⟨bytes.toArray⟩
  output.flush

/-- Prints a report and gives the exit code. -/
def publish (report : Report) : IO UInt32 := do
  printBytes report.printed
  IO.eprint report.diagnosis
  return if report.failed then 1 else 0

/-- The number of steps between two looks at the output. -/
def stretch : Nat := 65536

/-- Runs a machine up to a limit, or without one, a stretch at a time. -/
partial def drive (options : RunOptions) (machine : Machine) (left : Option Nat) : IO UInt32 := do
  let count := min stretch (left.getD stretch)
  match (Machine.run stretch count).apply machine with
  | none => publish (failure "out of fuel")
  | some (.ok .stepLimit, after) =>
    let remaining := left.map (· - count)
    if remaining = some 0 then publish (runReport options (.ok .stepLimit) after)
    else
      printBytes after.sink.written
      drive options { after with sink.reversed := [] } remaining
  | some (result, after) => publish (runReport options result after)

/-- Carries out a command. -/
def carryOut (command : Command) : IO UInt32 := do
  match command with
  | .assemble input output =>
    let bytes ← readBytes input
    match loadFile ⟨fun _ => bytes, fun _ => .ok ()⟩ input with
    | .error message => publish (failure message)
    | .ok program =>
      try
        IO.FS.writeBinFile output ⟨program.image.toArray⟩
        return 0
      catch error => publish (failure (writeFailure output (reasonOf error)))
  | .disassemble input =>
    let bytes ← readBytes input
    match execute stretch ⟨fun _ => bytes, fun _ => .ok ()⟩ command with
    | some report => publish report
    | none => publish (failure "out of fuel")
  | .run input options =>
    let bytes ← readBytes input
    match loadFile ⟨fun _ => bytes, fun _ => .ok ()⟩ input with
    | .error message => publish (failure message)
    | .ok program =>
      match prepare options program with
      | .error error => publish (failure (failureText error))
      | .ok machine =>
        drive options machine (if options.maxSteps = 0 then none else some options.maxSteps)

/-- Reads the arguments and carries out the command. -/
def start (arguments : List String) : IO UInt32 := do
  match readArguments arguments with
  | some command => carryOut command
  | none =>
    IO.eprintln usage
    return 2

end CommandLine

end StackMachine

/-- The entry point. -/
def main (arguments : List String) : IO UInt32 :=
  StackMachine.CommandLine.start arguments
