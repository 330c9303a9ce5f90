import StackMachine.DecodeError
import StackMachine.Instruction

/-!
# Decoding code

`decodeAt` decodes the instruction at one offset. A listing is the result of decoding code from its
start: the instructions with their offsets, and the reason the decoding stopped early, if it did. A
decoder gives the same one after the other; where no instruction can be read it gives the reason and
goes to the end of the code, so that nothing follows a failure.
-/

namespace StackMachine

namespace Instruction

/-- Decodes the instruction at the front of the bytes, which stand at a given offset. -/
def decodeFront (offset : Nat) : List UInt8 → Except DecodeError Instruction
  | [] => .error (.unexpectedEnd "opcode" offset)
  | byte :: rest =>
    match Opcode.ofByte? byte with
    | none => .error (.unknownOpcode byte offset)
    | some op =>
      let operands := rest.take op.operandLength
      if operands.length < op.operandLength then .error (.truncatedInstruction op offset)
      else
        match ofOperands? op operands with
        | none => .error (.invalidOperand op offset)
        | some instruction => .ok instruction

/-- Decodes the instruction at an offset of the code. -/
def decodeAt (code : List UInt8) (offset : Nat) : Except DecodeError Instruction :=
  decodeFront offset (code.drop offset)

end Instruction

/-- What code decodes to. -/
structure Listing where
  /-- The instructions decoded, with their offsets. -/
  instructions : List (Nat × Instruction)
  /-- Why decoding stopped before the end of the code. -/
  failure : Option DecodeError
deriving DecidableEq, Repr

namespace Listing

/-- A listing with one more instruction in front. -/
def cons (offset : Nat) (instruction : Instruction) (rest : Listing) : Listing :=
  ⟨(offset, instruction) :: rest.instructions, rest.failure⟩

/-- Decodes bytes that stand at a given offset. -/
def decodeFrom (offset : Nat) (bytes : List UInt8) : Listing :=
  if bytes.isEmpty then ⟨[], none⟩
  else
    match Instruction.decodeFront offset bytes with
    | .error reason => ⟨[], some reason⟩
    | .ok instruction =>
      cons offset instruction
        (decodeFrom (offset + instruction.encodedLength) (bytes.drop instruction.encodedLength))
termination_by bytes.length
decreasing_by
  rename_i nonempty
  have positive : 0 < bytes.length := by
    cases bytes with
    | nil => simp at nonempty
    | cons => simp
  simp only [List.length_drop, Instruction.encodedLength, Opcode.encodedLength]
  omega

/-- Decodes code from its start. -/
def ofCode (code : List UInt8) : Listing :=
  decodeFrom 0 code

/-- The offset after the last instruction decoded, or the end of the code after a failure. -/
def endOffset (code : List UInt8) (listing : Listing) : Nat :=
  match listing.failure with
  | some _ => code.length
  | none =>
    match listing.instructions.getLast? with
    | some (offset, instruction) => offset + instruction.encodedLength
    | none => 0

end Listing

/-! ## Decoding step by step -/

/-- A place in code that is being decoded. -/
structure Decoder where
  /-- The code. -/
  code : List UInt8
  /-- The offset of what is decoded next. -/
  offset : Nat := 0
deriving DecidableEq, Repr

namespace Decoder

/-- Whether there is nothing more to decode. -/
def isAtEnd (decoder : Decoder) : Bool :=
  decoder.code.length ≤ decoder.offset

/-- Decodes the next instruction, and gives the decoder that goes on after it. -/
def next? (decoder : Decoder) : Option (Except DecodeError (Nat × Instruction) × Decoder) :=
  if decoder.isAtEnd then none
  else
    match Instruction.decodeAt decoder.code decoder.offset with
    | .ok instruction =>
      some (.ok (decoder.offset, instruction),
        { decoder with offset := decoder.offset + instruction.encodedLength })
    | .error reason => some (.error reason, { decoder with offset := decoder.code.length })

/-- Every step takes a decoder closer to the end of the code. -/
theorem remaining_lt {decoder after : Decoder} {item : Except DecodeError (Nat × Instruction)}
    (given : decoder.next? = some (item, after)) :
    after.code.length - after.offset < decoder.code.length - decoder.offset := by
  unfold next? at given
  split at given
  · cases given
  · rename_i unfinished
    have inside : decoder.offset < decoder.code.length := by simpa [isAtEnd] using unfinished
    split at given
    · cases given
      simp only [Instruction.encodedLength, Opcode.encodedLength]
      omega
    · cases given
      simp only [Nat.sub_self]
      omega

/-- Everything that a decoder gives, and the decoder when there is nothing more. -/
def drain (decoder : Decoder) : List (Except DecodeError (Nat × Instruction)) × Decoder :=
  match _given : decoder.next? with
  | none => ([], decoder)
  | some (item, after) =>
    let later := after.drain
    (item :: later.1, later.2)
termination_by decoder.code.length - decoder.offset
decreasing_by exact remaining_lt _given

end Decoder

end StackMachine
