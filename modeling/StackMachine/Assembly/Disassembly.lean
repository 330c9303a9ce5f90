import StackMachine.Assembly.Token
import StackMachine.Program
import StackMachine.Text.Lines

/-!
# Canonical assembly text

A program is written one instruction to a line. A string operand is written by content when its
index is the first with that content, and as `#n` otherwise. When the pool is not what assembling
these lines alone would build, it is spelled out first, one entry to a line.

Any assembly text has a normal form: comments and blank lines dropped, single spaces between
tokens, strings and the operands of `push_int` and `push_float` spelled as a disassembly writes
them. A line that cannot be read as tokens is kept, trimmed.
-/

namespace StackMachine

namespace Disassembly

/-- The operand that refers to a pool index. -/
def poolToken (program : Program) (index : UInt32) : Token :=
  match program.string? index with
  | none => .index index
  | some bytes =>
    if program.strings.idxOf? bytes = some index.toNat then .quoted bytes else .index index

/-- A number as a token. -/
def numberToken (value : Nat) : Token :=
  .word (Numeral.decimal value)

/-- The operands of an instruction as tokens. -/
def operandTokens (program : Program) : Instruction → List Token
  | .pushInt value => [.word (Numeral.integer value.toInt)]
  | .pushFloat value => [.word value.operandText]
  | .pushBool value => [.word (Instruction.booleanText value)]
  | .pushString index | .storeGlobal index | .loadGlobal index => [poolToken program index]
  | .callNative index argumentCount =>
    [poolToken program index, numberToken argumentCount.toNat]
  | .jump target | .jumpIfFalse target => [numberToken target.toNat]
  | _ => []

/-- The line of an instruction. -/
def instructionTokens (program : Program) (instruction : Instruction) : List Token :=
  .word instruction.opcode.mnemonic.toList :: operandTokens program instruction

/-- The line of a pool entry. -/
def constantTokens (bytes : List UInt8) : List Token :=
  [.word ".str".toList, .quoted bytes]

/-- A pool with a content added unless it is there already. -/
def addContent (pool : List (List UInt8)) (bytes : List UInt8) : List (List UInt8) :=
  if pool.contains bytes then pool else pool ++ [bytes]

/-- The distinct contents that instructions refer to, in order of first appearance. -/
def impliedPool (program : Program) (instructions : List Instruction) : List (List UInt8) :=
  ((instructions.filterMap Instruction.poolIndex?).filterMap program.string?).foldl addContent []

/-- The lines of a program, as tokens. -/
def programTokens (program : Program) : List (List Token) :=
  let instructions := program.listing.instructions.map Prod.snd
  let constants :=
    if impliedPool program instructions = program.strings then []
    else program.strings.map constantTokens
  constants ++ instructions.map (instructionTokens program)

/-- A line with its line feed. -/
def terminate (line : List Char) : List Char :=
  line ++ ['\n']

/-- The operand of a push, in canonical spelling when it is a number. -/
def canonicalOperand (head operand : List Char) : List Char :=
  if head = Opcode.pushInt.mnemonic.toList then
    match Numeral.int64? operand with
    | some value => Numeral.integer value.toInt
    | none => operand
  else if head = Opcode.pushFloat.mnemonic.toList then
    match Binary64.ofOperand? operand with
    | some value => value.operandText
    | none => operand
  else operand

/-- Tokens with the number they push in canonical spelling. -/
def canonicalTokens : List Token → List Token
  | [.word head, .word operand] => [.word head, .word (canonicalOperand head operand)]
  | tokens => tokens

/-- The normal form of a line. -/
def normalizeLine (line : List Char) : List Char :=
  match Token.readLine line with
  | .ok tokens => Token.renderLine (canonicalTokens tokens)
  | .error _ => Text.trimBy Text.isWhiteSpace line

end Disassembly

/-- The canonical text of a program. -/
def disassemble (program : Program) : String :=
  String.ofList ((Disassembly.programTokens program).flatMap fun tokens =>
    Disassembly.terminate (Token.renderLine tokens))

/-- The normal form of assembly text. -/
def normalize (source : String) : String :=
  String.ofList ((((Text.lines source.toList).map Disassembly.normalizeLine).filter
    (fun line => !line.isEmpty)).flatMap Disassembly.terminate)

end StackMachine
