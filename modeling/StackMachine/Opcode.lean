/-!
# Opcodes

Every instruction is one opcode byte followed by operands whose layout depends on the opcode
alone. An opcode is determined by its byte and by its mnemonic, so both tables are read backwards
by searching the list of all opcodes.
-/

namespace StackMachine

/-- The operation an instruction performs. -/
inductive Opcode where
  | pushInt
  | pushFloat
  | pushString
  | pushNil
  | pushBool
  | add
  | sub
  | mul
  | div
  | eq
  | neq
  | lt
  | gt
  | le
  | ge
  | print
  | pop
  | dup
  | swap
  | storeGlobal
  | loadGlobal
  | callNative
  | jump
  | jumpIfFalse
  | halt
deriving DecidableEq, Repr

namespace Opcode

/-- Every opcode, in the order of the opcode bytes. -/
def all : List Opcode :=
  [pushInt, pushFloat, pushString, pushNil, pushBool, add, sub, mul, div, eq, neq, lt, gt, le, ge,
    print, pop, dup, swap, storeGlobal, loadGlobal, callNative, jump, jumpIfFalse, halt]

/-- The byte that stands for an opcode in code. -/
def byte : Opcode → UInt8
  | pushInt => 0x01
  | pushFloat => 0x02
  | pushString => 0x03
  | pushNil => 0x04
  | pushBool => 0x05
  | add => 0x10
  | sub => 0x11
  | mul => 0x12
  | div => 0x13
  | eq => 0x20
  | neq => 0x21
  | lt => 0x22
  | gt => 0x23
  | le => 0x24
  | ge => 0x25
  | print => 0x30
  | pop => 0x31
  | dup => 0x32
  | swap => 0x33
  | storeGlobal => 0x40
  | loadGlobal => 0x41
  | callNative => 0x50
  | jump => 0x60
  | jumpIfFalse => 0x61
  | halt => 0xff

/-- The word that stands for an opcode in assembly text. -/
def mnemonic : Opcode → String
  | pushInt => "push_int"
  | pushFloat => "push_float"
  | pushString => "push_str"
  | pushNil => "push_nil"
  | pushBool => "push_bool"
  | add => "add"
  | sub => "sub"
  | mul => "mul"
  | div => "div"
  | eq => "eq"
  | neq => "neq"
  | lt => "lt"
  | gt => "gt"
  | le => "le"
  | ge => "ge"
  | print => "print"
  | pop => "pop"
  | dup => "dup"
  | swap => "swap"
  | storeGlobal => "store_global"
  | loadGlobal => "load_global"
  | callNative => "call_native"
  | jump => "jmp"
  | jumpIfFalse => "jmp_if_false"
  | halt => "halt"

/-- The name of an opcode in error messages. -/
def name : Opcode → String
  | pushInt => "PushInt"
  | pushFloat => "PushFloat"
  | pushString => "PushStr"
  | pushNil => "PushNil"
  | pushBool => "PushBool"
  | add => "Add"
  | sub => "Sub"
  | mul => "Mul"
  | div => "Div"
  | eq => "Eq"
  | neq => "Neq"
  | lt => "Lt"
  | gt => "Gt"
  | le => "Le"
  | ge => "Ge"
  | print => "Print"
  | pop => "Pop"
  | dup => "Dup"
  | swap => "Swap"
  | storeGlobal => "StoreGlobal"
  | loadGlobal => "LoadGlobal"
  | callNative => "CallNative"
  | jump => "Jump"
  | jumpIfFalse => "JumpIfFalse"
  | halt => "Halt"

/-- The number of operand bytes after the opcode byte. -/
def operandLength : Opcode → Nat
  | pushInt | pushFloat => 8
  | pushString | storeGlobal | loadGlobal | jump | jumpIfFalse => 4
  | callNative => 5
  | pushBool => 1
  | _ => 0

/-- The size of an instruction with this opcode, the opcode byte included. -/
def encodedLength (op : Opcode) : Nat :=
  1 + op.operandLength

/-- Whether the first operand is an index into the string pool. -/
def hasPoolOperand : Opcode → Bool
  | pushString | storeGlobal | loadGlobal | callNative => true
  | _ => false

/-- Whether the operand is a code offset to continue at. -/
def isJump : Opcode → Bool
  | jump | jumpIfFalse => true
  | _ => false

/-- The opcode that a byte stands for. -/
def ofByte? (code : UInt8) : Option Opcode :=
  all.find? (fun op => op.byte == code)

/-- The opcode that a word of assembly text stands for. -/
def ofMnemonic? (word : String) : Option Opcode :=
  all.find? (fun op => op.mnemonic == word)

theorem mem_all (op : Opcode) : op ∈ all := by
  cases op <;> decide

@[simp]
theorem ofByte?_byte (op : Opcode) : ofByte? op.byte = some op := by
  cases op <;> rfl

theorem byte_of_ofByte? {code : UInt8} {op : Opcode} (found : ofByte? code = some op) :
    op.byte = code := by
  simpa using List.find?_some found

@[simp]
theorem ofMnemonic?_mnemonic (op : Opcode) : ofMnemonic? op.mnemonic = some op := by
  cases op <;> decide

theorem mnemonic_of_ofMnemonic? {word : String} {op : Opcode}
    (found : ofMnemonic? word = some op) : op.mnemonic = word := by
  simpa using List.find?_some found

end Opcode

end StackMachine
