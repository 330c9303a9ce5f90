import StackMachine.Binary64.Text
import StackMachine.LittleEndian
import StackMachine.Opcode

/-!
# Instructions

An instruction is an opcode with its operands. Pool operands are indices into the string pool of a
program and jump operands are absolute offsets into its code. An instruction is encoded as its
opcode byte and its operands, lowest byte first, and `ofOperands?` reads the operands back.
-/

namespace StackMachine

/-- An opcode together with its operands. -/
inductive Instruction where
  | pushInt (value : Int64)
  | pushFloat (value : Binary64)
  | pushString (index : UInt32)
  | pushNil
  | pushBool (value : Bool)
  | add
  | sub
  | mul
  | div
  | eq
  | neq
  | lt
  | gt
  | le
  | ge
  | print
  | pop
  | dup
  | swap
  | storeGlobal (index : UInt32)
  | loadGlobal (index : UInt32)
  | callNative (index : UInt32) (argumentCount : UInt8)
  | jump (target : UInt32)
  | jumpIfFalse (target : UInt32)
  | halt
deriving DecidableEq, Repr

namespace Instruction

/-- The opcode of an instruction. -/
def opcode : Instruction → Opcode
  | pushInt _ => .pushInt
  | pushFloat _ => .pushFloat
  | pushString _ => .pushString
  | pushNil => .pushNil
  | pushBool _ => .pushBool
  | add => .add
  | sub => .sub
  | mul => .mul
  | div => .div
  | eq => .eq
  | neq => .neq
  | lt => .lt
  | gt => .gt
  | le => .le
  | ge => .ge
  | print => .print
  | pop => .pop
  | dup => .dup
  | swap => .swap
  | storeGlobal _ => .storeGlobal
  | loadGlobal _ => .loadGlobal
  | callNative _ _ => .callNative
  | jump _ => .jump
  | jumpIfFalse _ => .jumpIfFalse
  | halt => .halt

/-- The size of the encoding. -/
def encodedLength (instruction : Instruction) : Nat :=
  instruction.opcode.encodedLength

/-- The pool index an instruction refers to. -/
def poolIndex? : Instruction → Option UInt32
  | pushString index | storeGlobal index | loadGlobal index | callNative index _ => some index
  | _ => none

/-- The code offset an instruction may continue at. -/
def jumpTarget? : Instruction → Option UInt32
  | jump target | jumpIfFalse target => some target
  | _ => none

/-! ## Encoding -/

/-- The bytes of the operands. -/
def operandBytes : Instruction → List UInt8
  | pushInt value => LittleEndian.bytes 8 value.toUInt64.toNat
  | pushFloat value => LittleEndian.bytes 8 value.bits.toNat
  | pushBool value => [if value then 1 else 0]
  | pushString index | storeGlobal index | loadGlobal index => LittleEndian.bytes 4 index.toNat
  | callNative index argumentCount => LittleEndian.bytes 4 index.toNat ++ [argumentCount]
  | jump target | jumpIfFalse target => LittleEndian.bytes 4 target.toNat
  | _ => []

/-- The bytes of an instruction. -/
def encode (instruction : Instruction) : List UInt8 :=
  instruction.opcode.byte :: instruction.operandBytes

/-- The instruction with an opcode and its operand bytes. Only a boolean has bytes it refuses. -/
def ofOperands? (op : Opcode) (operands : List UInt8) : Option Instruction :=
  let word := LittleEndian.number operands
  match op with
  | .pushInt => some (pushInt (UInt64.ofNat word).toInt64)
  | .pushFloat => some (pushFloat ⟨UInt64.ofNat word⟩)
  | .pushString => some (pushString (UInt32.ofNat word))
  | .pushNil => some pushNil
  | .pushBool =>
    match word with
    | 0 => some (pushBool false)
    | 1 => some (pushBool true)
    | _ => none
  | .add => some add
  | .sub => some sub
  | .mul => some mul
  | .div => some div
  | .eq => some eq
  | .neq => some neq
  | .lt => some lt
  | .gt => some gt
  | .le => some le
  | .ge => some ge
  | .print => some print
  | .pop => some pop
  | .dup => some dup
  | .swap => some swap
  | .storeGlobal => some (storeGlobal (UInt32.ofNat word))
  | .loadGlobal => some (loadGlobal (UInt32.ofNat word))
  | .callNative =>
    some (callNative (UInt32.ofNat (LittleEndian.number (operands.take 4)))
      (UInt8.ofNat (LittleEndian.number (operands.drop 4))))
  | .jump => some (jump (UInt32.ofNat word))
  | .jumpIfFalse => some (jumpIfFalse (UInt32.ofNat word))
  | .halt => some halt

@[simp]
theorem length_operandBytes (instruction : Instruction) :
    instruction.operandBytes.length = instruction.opcode.operandLength := by
  cases instruction <;> simp [operandBytes, opcode, Opcode.operandLength]

@[simp]
theorem length_encode (instruction : Instruction) :
    instruction.encode.length = instruction.encodedLength := by
  simp [encode, encodedLength, Opcode.encodedLength, Nat.add_comm]

/-! ## Text -/

/-- The text of a boolean. -/
def booleanText (value : Bool) : List Char :=
  (if value then "true" else "false").toList

/-- The texts of the operands, pool indices being written `#n`. -/
def operandTexts : Instruction → List (List Char)
  | pushInt value => [Numeral.integer value.toInt]
  | pushFloat value => [value.text]
  | pushBool value => [booleanText value]
  | pushString index | storeGlobal index | loadGlobal index =>
    ['#' :: Numeral.decimal index.toNat]
  | callNative index argumentCount =>
    ['#' :: Numeral.decimal index.toNat, Numeral.decimal argumentCount.toNat]
  | jump target | jumpIfFalse target => [Numeral.decimal target.toNat]
  | _ => []

/-- The mnemonic and the operands, separated by spaces. -/
def text (instruction : Instruction) : String :=
  String.ofList (instruction.opcode.mnemonic.toList ++
    instruction.operandTexts.flatMap fun operand => ' ' :: operand)

end Instruction

end StackMachine
