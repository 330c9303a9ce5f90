import StackMachine.Assembly.Token
import StackMachine.Instruction

/-!
# Statements of assembly text

A line defines any number of labels, each a word that ends with a colon, and then holds at most one
statement: a pool entry or an instruction whose string operand may be given by content and whose
jump target may be given by a label.
-/

namespace StackMachine

/-- A string operand. -/
inductive PoolOperand where
  /-- The pool entry with this content. -/
  | content (bytes : List UInt8)
  /-- The pool entry at this index. -/
  | index (value : UInt32)
deriving DecidableEq, Repr

/-- Where a jump leads. -/
inductive Target where
  | offset (value : UInt32)
  | label (name : List Char)
deriving DecidableEq, Repr

/-- What a line asks for. -/
inductive Statement where
  /-- A pool entry of its own. -/
  | constant (bytes : List UInt8)
  /-- An instruction that needs neither the pool nor a label. -/
  | plain (instruction : Instruction)
  /-- An instruction that takes the index of a pool entry. -/
  | pooled (operand : PoolOperand) (instruction : UInt32 → Instruction)
  /-- An instruction that takes a code offset. -/
  | jump (target : Target) (instruction : UInt32 → Instruction)

namespace Statement

/-- Takes a word off the operands. -/
def takeWord (op : Opcode) : List Token → Except AssemblyFault (List Char × List Token)
  | .word text :: rest => .ok (text, rest)
  | token :: _ => .error (.unexpectedOperand (String.ofList token.render))
  | [] => .error (.missingOperand op.mnemonic)

/-- Takes a string off the operands. -/
def takePool (op : Opcode) : List Token → Except AssemblyFault (PoolOperand × List Token)
  | .quoted bytes :: rest => .ok (.content bytes, rest)
  | .index value :: rest => .ok (.index value, rest)
  | .word _ :: _ => .error .expectedString
  | [] => .error (.missingOperand op.mnemonic)

/-- A value read from a word, or the fault of the word. -/
def required {α : Type} (value : Option α) (fault : String → AssemblyFault) (text : List Char) :
    Except AssemblyFault α :=
  match value with
  | some value => .ok value
  | none => .error (fault (String.ofList text))

/-- The boolean that a word spells. -/
def boolean? (text : List Char) : Option Bool :=
  if text = "true".toList then some true
  else if text = "false".toList then some false
  else none

/-- The target that a word names: an offset, or a label when the word does not start with a
digit. -/
def target (text : List Char) : Except AssemblyFault Target :=
  match Numeral.uint32? text with
  | some value => .ok (.offset value)
  | none =>
    match text with
    | c :: _ =>
      if DecimalNumeral.isDigit c then .error (.invalidInt (String.ofList text))
      else .ok (.label text)
    | [] => .ok (.label text)

/-- A statement with a given opcode, and the operands it leaves. -/
def ofOperands (op : Opcode) (operands : List Token) :
    Except AssemblyFault (Statement × List Token) := do
  match op with
  | .pushInt =>
    let (text, rest) ← takeWord op operands
    let value ← required (Numeral.int64? text) .invalidInt text
    return (plain (.pushInt value), rest)
  | .pushFloat =>
    let (text, rest) ← takeWord op operands
    let value ← required (Binary64.ofOperand? text) .invalidFloat text
    return (plain (.pushFloat value), rest)
  | .pushBool =>
    let (text, rest) ← takeWord op operands
    let value ← required (boolean? text) .invalidBool text
    return (plain (.pushBool value), rest)
  | .pushString =>
    let (operand, rest) ← takePool op operands
    return (pooled operand .pushString, rest)
  | .storeGlobal =>
    let (operand, rest) ← takePool op operands
    return (pooled operand .storeGlobal, rest)
  | .loadGlobal =>
    let (operand, rest) ← takePool op operands
    return (pooled operand .loadGlobal, rest)
  | .callNative =>
    let (operand, rest) ← takePool op operands
    let (text, rest) ← takeWord op rest
    let argumentCount ← required (Numeral.uint8? text) .invalidInt text
    return (pooled operand (.callNative · argumentCount), rest)
  | .jump =>
    let (text, rest) ← takeWord op operands
    let target ← target text
    return (jump target .jump, rest)
  | .jumpIfFalse =>
    let (text, rest) ← takeWord op operands
    let target ← target text
    return (jump target .jumpIfFalse, rest)
  | .pushNil => return (plain .pushNil, operands)
  | .add => return (plain .add, operands)
  | .sub => return (plain .sub, operands)
  | .mul => return (plain .mul, operands)
  | .div => return (plain .div, operands)
  | .eq => return (plain .eq, operands)
  | .neq => return (plain .neq, operands)
  | .lt => return (plain .lt, operands)
  | .gt => return (plain .gt, operands)
  | .le => return (plain .le, operands)
  | .ge => return (plain .ge, operands)
  | .print => return (plain .print, operands)
  | .pop => return (plain .pop, operands)
  | .dup => return (plain .dup, operands)
  | .swap => return (plain .swap, operands)
  | .halt => return (plain .halt, operands)

/-- The directive that adds a pool entry. -/
def constantDirective : List Char := ".str".toList

/-- The statement that tokens spell, if there are any. -/
def ofTokens : List Token → Except AssemblyFault (Option Statement)
  | [] => .ok none
  | .word head :: operands =>
    if head = constantDirective then
      match operands with
      | [.quoted bytes] => .ok (some (constant bytes))
      | _ => .error .expectedString
    else
      match Opcode.ofMnemonic? (String.ofList head) with
      | none => .error (.unknownMnemonic (String.ofList head))
      | some op => do
        let (statement, rest) ← ofOperands op operands
        match rest with
        | [] => return some statement
        | extra :: _ => throw (.unexpectedOperand (String.ofList extra.render))
  | token :: _ => .error (.unknownMnemonic (String.ofList token.render))

/-- The names of the labels that a line starts with, and the tokens after them. -/
def splitLabels : List Token → List (List Char) × List Token
  | .word text :: rest =>
    if text.getLast? = some ':' then
      let (names, remaining) := splitLabels rest
      (text.dropLast :: names, remaining)
    else ([], .word text :: rest)
  | tokens => ([], tokens)

end Statement

end StackMachine
