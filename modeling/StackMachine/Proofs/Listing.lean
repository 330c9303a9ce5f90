import StackMachine.Program
import StackMachine.Proofs.LittleEndian

/-!
# Decoding inverts encoding

Decoding the front of some bytes gives an instruction exactly when the bytes start with its
encoding.  So code that decodes without failure is the encodings of its instructions, one after the
other.
-/

namespace StackMachine

namespace Instruction

theorem ofOperands?_operandBytes (instruction : Instruction) :
    ofOperands? instruction.opcode instruction.operandBytes = some instruction := by
  have word32 (value : UInt32) :
      UInt32.ofNat (LittleEndian.number (LittleEndian.bytes 4 value.toNat)) = value :=
    (LittleEndian.uint32_number_eq_iff (LittleEndian.length_bytes 4 _)).mpr rfl
  have word64 (value : UInt64) :
      UInt64.ofNat (LittleEndian.number (LittleEndian.bytes 8 value.toNat)) = value :=
    (LittleEndian.uint64_number_eq_iff (LittleEndian.length_bytes 8 _)).mpr rfl
  cases instruction with
  | pushInt value => simp [ofOperands?, opcode, operandBytes, word64]
  | pushFloat value => simp [ofOperands?, opcode, operandBytes, word64]
  | pushBool value => cases value <;> rfl
  | callNative index argumentCount =>
      simp [ofOperands?, opcode, operandBytes, word32, List.take_left', List.drop_left',
        LittleEndian.number]
  | pushString index => simp [ofOperands?, opcode, operandBytes, word32]
  | storeGlobal index => simp [ofOperands?, opcode, operandBytes, word32]
  | loadGlobal index => simp [ofOperands?, opcode, operandBytes, word32]
  | jump target => simp [ofOperands?, opcode, operandBytes, word32]
  | jumpIfFalse target => simp [ofOperands?, opcode, operandBytes, word32]
  | _ => rfl

theorem operandBytes_of_ofOperands? {op : Opcode} {operands : List UInt8}
    {instruction : Instruction} (length : operands.length = op.operandLength)
    (read : ofOperands? op operands = some instruction) :
    instruction.opcode = op ∧ instruction.operandBytes = operands := by
  have word32 (four : operands.length = 4) :
      LittleEndian.bytes 4 (UInt32.ofNat (LittleEndian.number operands)).toNat = operands :=
    ((LittleEndian.uint32_number_eq_iff four).mp rfl).symm
  have word64 (eight : operands.length = 8) :
      LittleEndian.bytes 8 (UInt64.ofNat (LittleEndian.number operands)).toNat = operands :=
    ((LittleEndian.uint64_number_eq_iff eight).mp rfl).symm
  cases op with
  | pushInt =>
      cases read
      exact ⟨rfl, by simpa [operandBytes] using word64 length⟩
  | pushFloat =>
      cases read
      exact ⟨rfl, word64 length⟩
  | pushBool =>
      obtain ⟨byte, rfl⟩ := List.length_eq_one_iff.mp length
      simp only [ofOperands?, LittleEndian.number, Nat.mul_zero, Nat.add_zero] at read
      split at read
      · rename_i zero
        cases read
        have byte_eq : byte = 0 := UInt8.toNat_inj.mp zero
        exact ⟨rfl, by simp [operandBytes, byte_eq]⟩
      · rename_i one
        cases read
        have byte_eq : byte = 1 := UInt8.toNat_inj.mp one
        exact ⟨rfl, by simp [operandBytes, byte_eq]⟩
      · cases read
  | callNative =>
      cases read
      refine ⟨rfl, ?_⟩
      have first : (operands.take 4).length = 4 := List.length_take_of_le (by rw [length]; decide)
      obtain ⟨count, last⟩ : ∃ count, operands.drop 4 = [count] := by
        apply List.length_eq_one_iff.mp
        rw [List.length_drop, length]
        rfl
      simp only [operandBytes, ← (LittleEndian.uint32_number_eq_iff first).mp rfl, last,
        LittleEndian.number, Nat.mul_zero, Nat.add_zero, UInt8.ofNat_toNat]
      rw [← last, List.take_append_drop]
  | pushString | storeGlobal | loadGlobal | jump | jumpIfFalse =>
      cases read
      exact ⟨rfl, word32 length⟩
  | _ =>
      cases read
      exact ⟨rfl, (List.length_eq_zero_iff.mp length).symm⟩

/-- An instruction is decoded exactly from the bytes that start with its encoding. -/
theorem decodeFront_eq_ok_iff {offset : Nat} {bytes : List UInt8} {instruction : Instruction} :
    decodeFront offset bytes = .ok instruction ↔ instruction.encode <+: bytes := by
  constructor
  · intro decoded
    unfold decodeFront at decoded
    split at decoded
    · cases decoded
    rename_i byte rest
    split at decoded
    · cases decoded
    rename_i op known
    simp only [] at decoded
    split at decoded
    · cases decoded
    rename_i enough
    split at decoded
    · cases decoded
    rename_i found read
    cases decoded
    have length : (rest.take op.operandLength).length = op.operandLength := by
      have shorter := List.length_take_le op.operandLength rest
      omega
    obtain ⟨opcode_eq, operands_eq⟩ := operandBytes_of_ofOperands? length read
    rw [encode, opcode_eq, operands_eq, Opcode.byte_of_ofByte? known]
    exact (List.prefix_cons_inj byte).mpr (List.take_prefix _ rest)
  · rintro ⟨rest, rfl⟩
    have taken : (instruction.operandBytes ++ rest).take instruction.opcode.operandLength =
        instruction.operandBytes := List.take_left' (length_operandBytes instruction)
    simp [encode, decodeFront, taken, ofOperands?_operandBytes]

end Instruction

namespace Listing

/-- Code that decodes without failure is the encodings of its instructions. -/
theorem flatMap_encode_decodeFrom {offset : Nat} {bytes : List UInt8}
    (whole : (decodeFrom offset bytes).failure = none) :
    ((decodeFrom offset bytes).instructions.map Prod.snd).flatMap Instruction.encode = bytes := by
  fun_induction decodeFrom offset bytes with
  | case1 offset bytes empty => simp_all
  | case2 offset bytes nonempty reason failed => simp at whole
  | case3 offset bytes nonempty instruction decoded induction =>
      obtain ⟨rest, rfl⟩ := Instruction.decodeFront_eq_ok_iff.mp decoded
      rw [List.drop_left' (Instruction.length_encode instruction)] at induction whole ⊢
      simp only [cons, List.map_cons, List.flatMap_cons]
      rw [induction whole]

/-- The encodings of instructions decode to these instructions. -/
theorem instructions_decodeFrom_flatMap_encode (offset : Nat) (instructions : List Instruction) :
    (decodeFrom offset (instructions.flatMap Instruction.encode)).instructions.map Prod.snd =
      instructions := by
  induction instructions generalizing offset with
  | nil => simp [decodeFrom]
  | cons instruction rest induction =>
      have decoded : Instruction.decodeFront offset
          (instruction.encode ++ rest.flatMap Instruction.encode) = .ok instruction :=
        Instruction.decodeFront_eq_ok_iff.mpr (List.prefix_append _ _)
      rw [List.flatMap_cons, decodeFrom, if_neg (by simp [Instruction.encode]), decoded]
      simp only [cons, List.map_cons]
      rw [List.drop_left' (Instruction.length_encode instruction), induction]

/-- The instruction at a listed offset is the listed one. -/
theorem decodeAt_of_mem_decodeFrom {code bytes : List UInt8} {offset : Nat}
    {entry : Nat × Instruction} (rest : code.drop offset = bytes)
    (listed : entry ∈ (decodeFrom offset bytes).instructions) :
    Instruction.decodeAt code entry.1 = .ok entry.2 := by
  fun_induction decodeFrom offset bytes with
  | case1 offset bytes empty => cases listed
  | case2 offset bytes nonempty reason failed => cases listed
  | case3 offset bytes nonempty instruction decoded induction =>
      rcases List.mem_cons.mp listed with rfl | later
      · rw [Instruction.decodeAt, rest]
        exact decoded
      · exact induction (by rw [← rest, List.drop_drop]) later

/-- A listing of the whole of some bytes starts at their start. -/
theorem start_mem_decodeFrom {bytes : List UInt8} {offset : Nat} (nonempty : bytes ≠ [])
    (whole : (decodeFrom offset bytes).failure = none) :
    offset ∈ (decodeFrom offset bytes).instructions.map Prod.fst := by
  unfold decodeFrom at whole ⊢
  rw [if_neg (by simpa using nonempty)] at whole ⊢
  split at whole
  · cases whole
  · exact List.mem_cons_self

/-- What follows a listed instruction is another one or the end of the code. -/
theorem following_mem_decodeFrom {bytes : List UInt8} {offset : Nat} {entry : Nat × Instruction}
    (whole : (decodeFrom offset bytes).failure = none)
    (listed : entry ∈ (decodeFrom offset bytes).instructions) :
    entry.1 + entry.2.encodedLength ∈ (decodeFrom offset bytes).instructions.map Prod.fst ∨
      entry.1 + entry.2.encodedLength = offset + bytes.length := by
  fun_induction decodeFrom offset bytes with
  | case1 offset bytes empty => cases listed
  | case2 offset bytes nonempty reason failed => cases whole
  | case3 offset bytes nonempty instruction decoded induction =>
      obtain ⟨rest, rfl⟩ := Instruction.decodeFront_eq_ok_iff.mp decoded
      rw [List.drop_left' (Instruction.length_encode instruction)] at *
      rw [List.length_append, Instruction.length_encode, ← Nat.add_assoc]
      rcases List.mem_cons.mp listed with rfl | later
      · cases rest with
        | nil => exact .inr rfl
        | cons byte rest =>
            exact .inl (List.mem_cons_of_mem _ (start_mem_decodeFrom (List.cons_ne_nil _ _) whole))
      · exact (induction whole later).imp_left (List.mem_cons_of_mem _)

end Listing

namespace Program

theorem poolFault?_eq_none_iff {length : Nat} {entry : Nat × Instruction} :
    poolFault? length entry = none ↔
      ∀ index, entry.2.poolIndex? = some index → index.toNat < length := by
  obtain ⟨offset, instruction⟩ := entry
  cases uses : instruction.poolIndex? <;> simp [poolFault?, uses]

theorem jumpFault?_eq_none_iff {starts : List Nat} {entry : Nat × Instruction} :
    jumpFault? starts entry = none ↔
      ∀ target, entry.2.jumpTarget? = some target → target.toNat ∈ starts := by
  obtain ⟨offset, instruction⟩ := entry
  cases leads : instruction.jumpTarget? <;> simp [jumpFault?, leads]

/-- A program is well formed when its code decodes, its pool operands are inside the pool and its
jumps lead to instructions. -/
theorem verify_eq_ok_iff {program : Program} :
    program.verify = .ok () ↔
      program.listing.failure = none ∧
        (∀ entry ∈ program.listing.instructions, ∀ index,
          entry.2.poolIndex? = some index → index.toNat < program.strings.length) ∧
        ∀ entry ∈ program.listing.instructions, ∀ target,
          entry.2.jumpTarget? = some target →
            target.toNat ∈ program.listing.instructions.map Prod.fst := by
  have accepted : program.verify = .ok () ↔ program.fault? = none := by
    unfold verify
    cases program.fault? <;> simp
  rw [accepted, fault?]
  simp only [Option.or_eq_none_iff, List.findSome?_eq_none_iff, poolFault?_eq_none_iff,
    jumpFault?_eq_none_iff]
  rw [and_left_comm]

end Program

end StackMachine
