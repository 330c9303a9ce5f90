import StackMachine.Numeral
import StackMachine.Opcode

/-!
# Reasons a program image is refused

Each reason carries what its message needs: lengths, offsets into the image or the code, and the
opcode concerned.
-/

namespace StackMachine

/-- Why bytes are not a program. -/
inductive DecodeError where
  /-- The image cannot hold a magic number and a version. -/
  | tooShort (length least : Nat)
  /-- The image starts with another magic number. -/
  | badMagic
  /-- The image has an unknown version. -/
  | unsupportedVersion (version : UInt8)
  /-- The input ends inside a field of fixed size. -/
  | unexpectedEnd (what : String) (offset : Nat)
  /-- A length stored in the image exceeds what is left of it. -/
  | lengthPastEnd (what : String) (length : UInt32) (offset remaining : Nat)
  /-- Bytes follow the code. -/
  | trailingBytes (count : Nat)
  /-- A byte where an instruction starts is no opcode. -/
  | unknownOpcode (byte : UInt8) (offset : Nat)
  /-- The code ends inside an instruction. -/
  | truncatedInstruction (op : Opcode) (offset : Nat)
  /-- An operand is out of its range. -/
  | invalidOperand (op : Opcode) (offset : Nat)
  /-- An operand points past the string pool. -/
  | stringIndexOutOfRange (index : UInt32) (length offset : Nat)
  /-- A jump does not lead to the start of an instruction. -/
  | badJumpTarget (target : UInt32) (offset : Nat)
deriving DecidableEq, Repr

namespace DecodeError

/-- The wording of a reason. -/
def message : DecodeError → String
  | tooShort length least =>
    "program is too short: " ++ Numeral.text length ++ " bytes, need at least " ++
      Numeral.text least
  | badMagic => "bad magic header"
  | unsupportedVersion version => "unsupported format version " ++ Numeral.text version.toNat
  | unexpectedEnd what offset =>
    "unexpected end of input reading " ++ what ++ " at offset " ++ Numeral.text offset
  | lengthPastEnd what length offset remaining =>
    what ++ " length " ++ Numeral.text length.toNat ++ " at offset " ++ Numeral.text offset ++
      " runs past the end of the input (" ++ Numeral.text remaining ++ " bytes left)"
  | trailingBytes count => Numeral.text count ++ " trailing bytes after the code section"
  | unknownOpcode byte offset =>
    "unknown opcode 0x" ++ String.ofList (Numeral.paddedHexadecimal 2 byte.toNat) ++
      " at offset " ++ Numeral.text offset
  | truncatedInstruction op offset =>
    "truncated " ++ op.name ++ " instruction at offset " ++ Numeral.text offset
  | invalidOperand op offset =>
    "invalid operand for " ++ op.name ++ " at offset " ++ Numeral.text offset
  | stringIndexOutOfRange index length offset =>
    "string index " ++ Numeral.text index.toNat ++ " out of range (pool has " ++
      Numeral.text length ++ ") at offset " ++ Numeral.text offset
  | badJumpTarget target offset =>
    "jump at offset " ++ Numeral.text offset ++ " targets " ++ Numeral.text target.toNat ++
      ", which is not an instruction boundary"

end DecodeError

end StackMachine
