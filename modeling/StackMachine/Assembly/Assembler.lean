import StackMachine.Assembly.Statement
import StackMachine.Builder
import StackMachine.Text.Lines

/-!
# Assembling

Lines are assembled in order. A jump to a label that is not defined yet waits for the definition;
a name that is still waited for at the end is undefined, and the one waited for longest is
reported. The program must be well formed.
-/

namespace StackMachine

/-- The jumps that wait for the definition of one label. -/
structure Waiting where
  /-- The label. -/
  name : List Char
  /-- The line of the first jump to it. -/
  line : Nat
  /-- The jumps to it. -/
  jumps : List Label
deriving DecidableEq, Repr

/-- What has been assembled so far. -/
structure Assembler where
  /-- The program under construction. -/
  builder : Builder := {}
  /-- The labels defined, with their offsets. -/
  labels : List (List Char × UInt32) := []
  /-- The labels waited for, in the order of their first use. -/
  waiting : List Waiting := []
deriving DecidableEq, Repr

namespace Assembler

/-- Adds a jump to those that wait for a name. -/
def await (name : List Char) (line : Nat) (jump : Label) : List Waiting → List Waiting
  | [] => [⟨name, line, [jump]⟩]
  | entry :: rest =>
    if entry.name = name then { entry with jumps := entry.jumps ++ [jump] } :: rest
    else entry :: await name line jump rest

/-- Defines a label at the current offset and directs the jumps that wait for it there. -/
def define (assembler : Assembler) (name : List Char) : Except AssemblyFault Assembler :=
  match assembler.labels.lookup name with
  | some _ => .error (.duplicateLabel (String.ofList name))
  | none =>
    let (found, others) := assembler.waiting.partition fun entry => entry.name == name
    .ok {
      builder := (found.flatMap Waiting.jumps).foldl Builder.bind assembler.builder
      labels := (name, assembler.builder.offset) :: assembler.labels
      waiting := others }

/-- Carries out a statement found on a line. -/
def execute (assembler : Assembler) (line : Nat) : Statement → Assembler
  | .constant bytes =>
    { assembler with builder := (assembler.builder.pushString bytes).2 }
  | .plain instruction =>
    { assembler with builder := assembler.builder.emit instruction }
  | .pooled (.content bytes) instruction =>
    { assembler with builder := assembler.builder.emitInterned bytes instruction }
  | .pooled (.index value) instruction =>
    { assembler with builder := assembler.builder.emit (instruction value) }
  | .jump (.offset value) instruction =>
    { assembler with builder := assembler.builder.emit (instruction value) }
  | .jump (.label name) instruction =>
    match assembler.labels.lookup name with
    | some value => { assembler with builder := assembler.builder.emit (instruction value) }
    | none =>
      let (jump, builder) := assembler.builder.emitPending instruction
      { assembler with builder, waiting := await name line jump assembler.waiting }

/-- Assembles one line. -/
def assembleLine (assembler : Assembler) (line : Nat) (text : List Char) :
    Except AssemblyFault Assembler := do
  let tokens ← Token.readLine text
  let (names, remaining) := Statement.splitLabels tokens
  let assembler ← names.foldlM define assembler
  match ← Statement.ofTokens remaining with
  | some statement => return assembler.execute line statement
  | none => return assembler

/-- Assembles lines of which the first has a given number. -/
def assembleLines : (assembler : Assembler) → (line : Nat) → List (List Char) →
    Except AssemblyError Assembler
  | assembler, _, [] => .ok assembler
  | assembler, line, text :: rest =>
    match assembler.assembleLine line text with
    | .error fault => .error ⟨line, fault⟩
    | .ok assembler => assembleLines assembler (line + 1) rest

/-- The program assembled, once every label waited for is defined. -/
def finish (assembler : Assembler) : Except AssemblyError Program :=
  match assembler.waiting with
  | entry :: _ => .error ⟨entry.line, .undefinedLabel (String.ofList entry.name)⟩
  | [] =>
    let program := assembler.builder.program
    match program.verify with
    | .error reason => .error ⟨0, .malformed reason⟩
    | .ok () => .ok program

end Assembler

/-- Assembles text to a well-formed program. -/
def assemble (source : String) : Except AssemblyError Program := do
  let assembler ← Assembler.assembleLines {} 1 (Text.lines source.toList)
  assembler.finish

end StackMachine
