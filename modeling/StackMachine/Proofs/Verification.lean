import StackMachine.Proofs.Listing

/-!
# Verification is exact

A program is accepted exactly when its code is the encodings of some instructions, one after the
other, whose pool operands are inside the pool and whose jumps lead to the start of one of them.  No
two lists of instructions have the same encoding.  A program that is refused has its first fault
reported: the one at the least offset where an instruction is expected and none can be read, or one
whose pool operand is outside the pool; and only when there is no such offset, the first jump
astray.
-/

namespace StackMachine

namespace Instruction

/-! ## Instructions in their places -/

/-- Instructions with the offsets at which they start when they are encoded one after the other from
a given offset on. -/
def placed : (offset : Nat) → List Instruction → List (Nat × Instruction)
  | _, [] => []
  | offset, instruction :: rest =>
    (offset, instruction) :: placed (offset + instruction.encodedLength) rest

@[simp]
theorem map_snd_placed (offset : Nat) (instructions : List Instruction) :
    (placed offset instructions).map Prod.snd = instructions := by
  induction instructions generalizing offset with
  | nil => rfl
  | cons instruction rest induction => rw [placed, List.map_cons, induction]

/-- An instruction starts where the ones before it end. -/
theorem mem_placed_iff {offset start : Nat} {instruction : Instruction}
    {instructions : List Instruction} :
    (start, instruction) ∈ placed offset instructions ↔
      ∃ before after, instructions = before ++ instruction :: after ∧
        start = offset + (before.flatMap encode).length := by
  induction instructions generalizing offset with
  | nil => simp [placed]
  | cons first rest induction =>
      rw [placed, List.mem_cons, induction]
      constructor
      · rintro (here | ⟨before, after, rfl, rfl⟩)
        · cases here
          exact ⟨[], rest, rfl, rfl⟩
        · refine ⟨first :: before, after, rfl, ?_⟩
          rw [List.flatMap_cons, List.length_append, length_encode, Nat.add_assoc]
      · rintro ⟨_ | ⟨_, before⟩, after, split, rfl⟩
        · cases split
          exact .inl rfl
        · cases split
          refine .inr ⟨before, after, rfl, ?_⟩
          rw [List.flatMap_cons, List.length_append, length_encode, Nat.add_assoc]

theorem le_of_mem_placed {offset : Nat} {instructions : List Instruction}
    {entry : Nat × Instruction} (member : entry ∈ placed offset instructions) :
    offset ≤ entry.1 := by
  obtain ⟨before, _, _, start_eq⟩ := mem_placed_iff.mp member
  omega

theorem lt_of_mem_placed {offset : Nat} {instructions : List Instruction}
    {entry : Nat × Instruction} (member : entry ∈ placed offset instructions) :
    entry.1 < offset + (instructions.flatMap encode).length := by
  obtain ⟨before, after, rfl, start_eq⟩ := mem_placed_iff.mp member
  simp only [start_eq, List.flatMap_append, List.flatMap_cons, List.length_append, encode,
    List.length_cons]
  omega

theorem encodedLength_pos (instruction : Instruction) : 0 < instruction.encodedLength := by
  rw [encodedLength, Opcode.encodedLength]
  omega

/-- Instructions start one after the other. -/
theorem pairwise_placed (offset : Nat) (instructions : List Instruction) :
    (placed offset instructions).Pairwise fun left right => left.1 < right.1 := by
  induction instructions generalizing offset with
  | nil => exact .nil
  | cons instruction rest induction =>
      refine .cons (fun later member => ?_) (induction _)
      have after := le_of_mem_placed member
      have positive := encodedLength_pos instruction
      show offset < later.1
      omega

/-! ## Reading encodings back -/

/-- Bytes that start with two encodings start with the same one twice. -/
theorem eq_of_encode_prefix {left right : Instruction} {bytes : List UInt8}
    (first : left.encode <+: bytes) (second : right.encode <+: bytes) : left = right := by
  have decoded : decodeFront 0 bytes = .ok left := decodeFront_eq_ok_iff.mpr first
  exact Except.ok.inj (decoded.symm.trans (decodeFront_eq_ok_iff.mpr second))

/-- No instruction can be read off the front of the bytes. -/
def Unreadable (bytes : List UInt8) : Prop :=
  ∀ instruction : Instruction, ¬ instruction.encode <+: bytes

theorem unreadable_nil : Unreadable [] := by
  intro instruction none
  simp [encode] at none

theorem unreadable_of_decodeFront {offset : Nat} {bytes : List UInt8} {reason : DecodeError}
    (failed : decodeFront offset bytes = .error reason) : Unreadable bytes := by
  intro instruction start
  cases failed.symm.trans (decodeFront_eq_ok_iff.mpr start)

/-- Why no instruction can be read off the front of bytes at an offset: the first one is no opcode,
they end inside the operands, or the operands are out of their range. -/
inductive Refused (offset : Nat) : List UInt8 → DecodeError → Prop
  | unknown {byte : UInt8} {rest : List UInt8} (unknown : ∀ op : Opcode, op.byte ≠ byte) :
      Refused offset (byte :: rest) (.unknownOpcode byte offset)
  | truncated {op : Opcode} {rest : List UInt8} (short : rest.length < op.operandLength) :
      Refused offset (op.byte :: rest) (.truncatedInstruction op offset)
  | invalid {op : Opcode} {rest : List UInt8} (enough : op.operandLength ≤ rest.length)
      (unreadable : Unreadable (op.byte :: rest)) :
      Refused offset (op.byte :: rest) (.invalidOperand op offset)

theorem decodeFront_byte_cons (offset : Nat) (op : Opcode) (rest : List UInt8) :
    decodeFront offset (op.byte :: rest) =
      if rest.length < op.operandLength then .error (.truncatedInstruction op offset)
      else
        match ofOperands? op (rest.take op.operandLength) with
        | none => .error (.invalidOperand op offset)
        | some instruction => .ok instruction := by
  have short_iff : (rest.take op.operandLength).length < op.operandLength ↔
      rest.length < op.operandLength := by
    rw [List.length_take]
    omega
  split
  · rename_i short
    simp only [decodeFront, Opcode.ofByte?_byte, short_iff, if_pos short]
  · rename_i long
    cases read : ofOperands? op (rest.take op.operandLength) with
    | none => simp only [decodeFront, Opcode.ofByte?_byte, short_iff, if_neg long, read]
    | some instruction => simp only [decodeFront, Opcode.ofByte?_byte, short_iff, if_neg long, read]

theorem decodeFront_eq_error_iff {offset : Nat} {bytes : List UInt8} {reason : DecodeError}
    (nonempty : bytes ≠ []) :
    decodeFront offset bytes = .error reason ↔ Refused offset bytes reason := by
  obtain ⟨byte, rest, rfl⟩ := List.exists_cons_of_ne_nil nonempty
  constructor
  · intro failed
    cases known : Opcode.ofByte? byte with
    | none =>
        simp only [decodeFront, known, Except.error.injEq] at failed
        subst failed
        refine .unknown fun op same => ?_
        cases known.symm.trans (same ▸ Opcode.ofByte?_byte op)
    | some op =>
        obtain rfl := Opcode.byte_of_ofByte? known
        have unreadable := unreadable_of_decodeFront failed
        rw [decodeFront_byte_cons] at failed
        split at failed
        · rename_i short
          cases failed
          exact .truncated short
        · rename_i enough
          split at failed
          · cases failed
            exact .invalid (Nat.not_lt.mp enough) unreadable
          · cases failed
  · rintro (unknown | short | ⟨enough, unreadable⟩)
    · cases known : Opcode.ofByte? byte with
      | none => simp only [decodeFront, known]
      | some op => exact absurd (Opcode.byte_of_ofByte? known) (unknown op)
    · rw [decodeFront_byte_cons, if_pos short]
    · cases decoded : decodeFront offset _ with
      | ok instruction => exact absurd (decodeFront_eq_ok_iff.mp decoded) (unreadable instruction)
      | error other =>
          rw [decodeFront_byte_cons, if_neg (Nat.not_lt.mpr enough)] at decoded
          split at decoded <;> cases decoded
          rfl

theorem Refused.unreadable {offset : Nat} {bytes : List UInt8} {reason : DecodeError}
    (refused : Refused offset bytes reason) : Unreadable bytes := by
  have nonempty : bytes ≠ [] := by
    cases refused <;> exact List.cons_ne_nil _ _
  exact unreadable_of_decodeFront ((decodeFront_eq_error_iff nonempty).mpr refused)

/-- Instructions read off the front of bytes are the first ones of those read as far as possible. -/
theorem prefix_of_flatMap_encode_append {before instructions : List Instruction}
    {rest rest' : List UInt8} (unreadable : Unreadable rest)
    (same : before.flatMap encode ++ rest' = instructions.flatMap encode ++ rest) :
    before <+: instructions := by
  induction before generalizing instructions with
  | nil => exact List.nil_prefix
  | cons first before induction =>
      rw [List.flatMap_cons, List.append_assoc] at same
      have start : first.encode <+: instructions.flatMap encode ++ rest := ⟨_, same⟩
      cases instructions with
      | nil => exact absurd start (unreadable first)
      | cons instruction instructions =>
          rw [List.flatMap_cons, List.append_assoc] at same start
          obtain rfl := eq_of_encode_prefix start (List.prefix_append _ _)
          exact (List.prefix_cons_inj first).mpr (induction (List.append_cancel_left same))

/-- No two lists of instructions have the same encoding. -/
theorem flatMap_encode_injective : Function.Injective (List.flatMap encode) := by
  intro left right same
  rw [← Listing.instructions_decodeFrom_flatMap_encode 0 left, same,
    Listing.instructions_decodeFrom_flatMap_encode]

end Instruction

namespace Listing

/-- How decoding ends at an offset: with the bytes, or where no instruction can be read. -/
inductive Stops (offset : Nat) : List UInt8 → Option DecodeError → Prop
  | finished : Stops offset [] none
  | failed {rest : List UInt8} {reason : DecodeError} (left : rest ≠ [])
      (refused : Instruction.decodeFront offset rest = .error reason) :
      Stops offset rest (some reason)

theorem Stops.unreadable {offset : Nat} {rest : List UInt8} {failure : Option DecodeError}
    (stops : Stops offset rest failure) : Instruction.Unreadable rest := by
  cases stops with
  | finished => exact Instruction.unreadable_nil
  | failed left refused => exact Instruction.unreadable_of_decodeFront refused

theorem Stops.failure_eq_some_iff {offset : Nat} {rest : List UInt8} {failure : Option DecodeError}
    {reason : DecodeError} (stops : Stops offset rest failure) :
    rest ≠ [] ∧ Instruction.decodeFront offset rest = .error reason ↔ failure = some reason := by
  cases stops with
  | finished => simp
  | failed left refused => simp [left, refused]

theorem Stops.failure_eq_none_iff {offset : Nat} {rest : List UInt8} {failure : Option DecodeError}
    (stops : Stops offset rest failure) : failure = none ↔ rest = [] := by
  cases stops with
  | finished => simp
  | failed left refused => simp [left]

/-- Decoding reads as many instructions as there are, and says where they start. -/
theorem exists_decodeFrom_eq (offset : Nat) (bytes : List UInt8) :
    ∃ instructions rest, bytes = instructions.flatMap Instruction.encode ++ rest ∧
      (decodeFrom offset bytes).instructions = Instruction.placed offset instructions ∧
      Stops (offset + (instructions.flatMap Instruction.encode).length) rest
        (decodeFrom offset bytes).failure := by
  fun_induction decodeFrom offset bytes with
  | case1 offset bytes empty =>
      obtain rfl := List.isEmpty_iff.mp empty
      exact ⟨[], [], rfl, rfl, .finished⟩
  | case2 offset bytes nonempty reason failed =>
      exact ⟨[], bytes, rfl, rfl, .failed (mt List.isEmpty_iff.mpr nonempty) failed⟩
  | case3 offset bytes nonempty instruction decoded induction =>
      obtain ⟨tail, rfl⟩ := Instruction.decodeFront_eq_ok_iff.mp decoded
      obtain ⟨instructions, rest, rest_eq, listed, stops⟩ := induction
      rw [List.drop_left' (Instruction.length_encode instruction)] at rest_eq listed stops ⊢
      refine ⟨instruction :: instructions, rest, ?_, ?_, ?_⟩
      · rw [rest_eq, List.flatMap_cons, List.append_assoc]
      · rw [cons, listed, Instruction.placed]
      · rw [List.flatMap_cons, List.length_append, Instruction.length_encode, ← Nat.add_assoc]
        exact stops

/-- The encodings of instructions decode to these instructions, each at its place. -/
theorem decodeFrom_flatMap_encode (offset : Nat) (instructions : List Instruction) :
    decodeFrom offset (instructions.flatMap Instruction.encode) =
      ⟨Instruction.placed offset instructions, none⟩ := by
  induction instructions generalizing offset with
  | nil => rw [List.flatMap_nil, decodeFrom, if_pos List.isEmpty_nil, Instruction.placed]
  | cons instruction rest induction =>
      have decoded : Instruction.decodeFront offset
          (instruction.encode ++ rest.flatMap Instruction.encode) = .ok instruction :=
        Instruction.decodeFront_eq_ok_iff.mpr (List.prefix_append _ _)
      rw [List.flatMap_cons, decodeFrom, if_neg (by simp [Instruction.encode]), decoded]
      dsimp only
      rw [List.drop_left' (Instruction.length_encode instruction), induction, cons,
        Instruction.placed]

end Listing

namespace Program

/-! ## What verification decides -/

/-- Instructions that make up a program: one after the other they are its code, their pool operands
are inside the pool, and their jumps lead to the start of one of them. -/
structure Comprises (program : Program) (instructions : List Instruction) : Prop where
  code : instructions.flatMap Instruction.encode = program.code
  pooled : ∀ instruction ∈ instructions, ∀ index, instruction.poolIndex? = some index →
    index.toNat < program.strings.length
  jumps : ∀ instruction ∈ instructions, ∀ target, instruction.jumpTarget? = some target →
    target.toNat ∈ (Instruction.placed 0 instructions).map Prod.fst

/-- An instruction is expected at an offset inside the code: instructions fill the code up to
there. -/
def Expects (program : Program) (offset : Nat) : Prop :=
  ∃ (before : List Instruction) (rest : List UInt8),
    program.code = before.flatMap Instruction.encode ++ rest ∧ rest ≠ [] ∧
      offset = (before.flatMap Instruction.encode).length

/-- What is wrong with the instruction at an offset by itself: there is none, or its pool operand is
outside the pool. -/
inductive FaultAt (program : Program) (offset : Nat) : DecodeError → Prop
  | unreadable {reason : DecodeError}
      (refused : Instruction.Refused offset (program.code.drop offset) reason) :
      FaultAt program offset reason
  | pool {instruction : Instruction} {index : UInt32}
      (there : instruction.encode <+: program.code.drop offset)
      (uses : instruction.poolIndex? = some index)
      (outside : program.strings.length ≤ index.toNat) :
      FaultAt program offset (.stringIndexOutOfRange index program.strings.length offset)

/-- The instruction at an offset is a jump that leads to no instruction. -/
inductive AstrayAt (program : Program) (offset : Nat) : DecodeError → Prop
  | jump {instruction : Instruction} {target : UInt32}
      (there : instruction.encode <+: program.code.drop offset)
      (leads : instruction.jumpTarget? = some target) (astray : ¬ program.Expects target.toNat) :
      AstrayAt program offset (.badJumpTarget target offset)

/-- The fault at the least of the offsets with a fault of some kind. -/
def First (program : Program) (faultAt : Nat → DecodeError → Prop) (reason : DecodeError) : Prop :=
  ∃ offset, program.Expects offset ∧ faultAt offset reason ∧
    ∀ earlier < offset, program.Expects earlier → ∀ other, ¬ faultAt earlier other

/-! ## Faults in the listing -/

section Parsed

variable {program : Program} {instructions : List Instruction} {rest : List UInt8}

/-- An instruction is expected where one was read, and where the reading failed. -/
theorem expects_iff (code_eq : program.code = instructions.flatMap Instruction.encode ++ rest)
    (unreadable : Instruction.Unreadable rest) {offset : Nat} :
    program.Expects offset ↔
      offset ∈ (Instruction.placed 0 instructions).map Prod.fst ∨
        rest ≠ [] ∧ offset = (instructions.flatMap Instruction.encode).length := by
  rw [List.mem_map]
  constructor
  · rintro ⟨before, others, split, left, rfl⟩
    obtain ⟨later, rfl⟩ :=
      Instruction.prefix_of_flatMap_encode_append unreadable (split.symm.trans code_eq)
    cases later with
    | nil =>
        rw [List.append_nil] at code_eq ⊢
        obtain rfl := List.append_cancel_left (split.symm.trans code_eq)
        exact .inr ⟨left, rfl⟩
    | cons instruction later =>
        refine .inl ⟨(_, instruction), Instruction.mem_placed_iff.mpr ⟨before, later, rfl, ?_⟩, rfl⟩
        exact (Nat.zero_add _).symm
  · rintro (⟨⟨start, instruction⟩, member, rfl⟩ | ⟨left, rfl⟩)
    · obtain ⟨before, later, rfl, start_eq⟩ := Instruction.mem_placed_iff.mp member
      refine ⟨before, (instruction :: later).flatMap Instruction.encode ++ rest, ?_, ?_, ?_⟩
      · rw [code_eq, List.flatMap_append, List.append_assoc]
      · simp [Instruction.encode]
      · rw [start_eq, Nat.zero_add]
    · exact ⟨instructions, rest, code_eq, left, rfl⟩

theorem encode_prefix_of_mem_placed
    (code_eq : program.code = instructions.flatMap Instruction.encode ++ rest)
    {entry : Nat × Instruction} (member : entry ∈ Instruction.placed 0 instructions) :
    entry.2.encode <+: program.code.drop entry.1 := by
  obtain ⟨before, later, rfl, start_eq⟩ := Instruction.mem_placed_iff.mp member
  rw [code_eq, List.flatMap_append, List.append_assoc, start_eq, Nat.zero_add, List.drop_left,
    List.flatMap_cons, List.append_assoc]
  exact List.prefix_append _ _

theorem faultAt_iff_poolFault?
    (code_eq : program.code = instructions.flatMap Instruction.encode ++ rest)
    {entry : Nat × Instruction} (member : entry ∈ Instruction.placed 0 instructions)
    {reason : DecodeError} :
    program.FaultAt entry.1 reason ↔ poolFault? program.strings.length entry = some reason := by
  have read := encode_prefix_of_mem_placed code_eq member
  obtain ⟨offset, instruction⟩ := entry
  constructor
  · rintro (refused | ⟨there, uses, outside⟩)
    · exact absurd read (refused.unreadable instruction)
    · obtain rfl := Instruction.eq_of_encode_prefix there read
      simp [poolFault?, uses, Nat.not_lt.mpr outside]
  · intro faulty
    cases uses : instruction.poolIndex? with
    | none => simp [poolFault?, uses] at faulty
    | some index =>
        by_cases inside : index.toNat < program.strings.length
        · simp [poolFault?, uses, inside] at faulty
        · simp only [poolFault?, uses, if_neg inside, Option.some.injEq] at faulty
          exact faulty ▸ .pool read uses (Nat.not_lt.mp inside)

theorem astrayAt_iff_jumpFault?
    (code_eq : program.code = instructions.flatMap Instruction.encode)
    {entry : Nat × Instruction} (member : entry ∈ Instruction.placed 0 instructions)
    {reason : DecodeError} :
    program.AstrayAt entry.1 reason ↔
      jumpFault? ((Instruction.placed 0 instructions).map Prod.fst) entry = some reason := by
  rw [← List.append_nil (instructions.flatMap _)] at code_eq
  have read := encode_prefix_of_mem_placed code_eq member
  have expects_iff {offset : Nat} : program.Expects offset ↔
      offset ∈ (Instruction.placed 0 instructions).map Prod.fst := by
    simpa using expects_iff code_eq Instruction.unreadable_nil
  obtain ⟨offset, instruction⟩ := entry
  constructor
  · rintro ⟨there, leads, astray⟩
    obtain rfl := Instruction.eq_of_encode_prefix there read
    rw [expects_iff] at astray
    simp only [jumpFault?, leads, List.contains_iff_mem, if_neg astray]
  · intro faulty
    cases leads : instruction.jumpTarget? with
    | none => simp [jumpFault?, leads] at faulty
    | some target =>
        by_cases expected : program.Expects target.toNat
        · have listed := List.contains_iff_mem.mpr (expects_iff.mp expected)
          simp only [jumpFault?, leads, if_pos listed, reduceCtorEq] at faulty
        · have unlisted := mt List.contains_iff_mem.mp (mt expects_iff.mpr expected)
          simp only [jumpFault?, leads, if_neg unlisted, Option.some.injEq] at faulty
          exact faulty ▸ .jump read leads expected

/-- In a list that is ordered by offset, the first find is the one at the least offset. -/
theorem findSome?_eq_some_iff_least {entries : List (Nat × Instruction)}
    (increasing : entries.Pairwise fun left right => left.1 < right.1)
    {fault? : Nat × Instruction → Option DecodeError} {reason : DecodeError} :
    entries.findSome? fault? = some reason ↔
      ∃ entry ∈ entries, fault? entry = some reason ∧
        ∀ earlier ∈ entries, earlier.1 < entry.1 → fault? earlier = none := by
  induction increasing with
  | nil => simp
  | @cons first rest before increasing induction =>
      rw [List.findSome?_cons]
      cases found : fault? first with
      | some other =>
          constructor
          · rintro ⟨⟩
            refine ⟨first, List.mem_cons_self, found, fun earlier member less => ?_⟩
            rcases List.mem_cons.mp member with rfl | later
            · exact absurd less (Nat.lt_irrefl _)
            · exact absurd (before earlier later) (Nat.lt_asymm less)
          · rintro ⟨entry, member, faulty, least⟩
            rcases List.mem_cons.mp member with rfl | later
            · exact found.symm.trans faulty
            · cases found.symm.trans (least first List.mem_cons_self (before entry later))
      | none =>
          rw [induction]
          constructor
          · rintro ⟨entry, member, faulty, least⟩
            exact ⟨entry, List.mem_cons_of_mem _ member, faulty,
              List.forall_mem_cons.mpr ⟨fun _ => found, least⟩⟩
          · rintro ⟨entry, member, faulty, least⟩
            rcases List.mem_cons.mp member with rfl | later
            · cases found.symm.trans faulty
            · exact ⟨entry, later, faulty, (List.forall_mem_cons.mp least).2⟩

/-- The fault at the end of what can be read is the one that decoding stops with. -/
theorem faultAt_end_iff (code_eq : program.code = instructions.flatMap Instruction.encode ++ rest)
    (unreadable : Instruction.Unreadable rest) (left : rest ≠ []) {reason : DecodeError} :
    program.FaultAt (instructions.flatMap Instruction.encode).length reason ↔
      Instruction.decodeFront (instructions.flatMap Instruction.encode).length rest =
        .error reason := by
  have rest_eq : program.code.drop (instructions.flatMap Instruction.encode).length = rest := by
    rw [code_eq, List.drop_left]
  rw [Instruction.decodeFront_eq_error_iff left]
  constructor
  · rintro (refused | ⟨there, _, _⟩)
    · exact rest_eq ▸ refused
    · exact absurd (rest_eq ▸ there) (unreadable _)
  · intro refused
    exact .unreadable (rest_eq ▸ refused)

/-- The first of the faults of some kind is the first in the listing, or else the one that decoding
stops with. -/
theorem first_iff {faultAt : Nat → DecodeError → Prop}
    {fault? : Nat × Instruction → Option DecodeError} {failure : Option DecodeError}
    (code_eq : program.code = instructions.flatMap Instruction.encode ++ rest)
    (unreadable : Instruction.Unreadable rest)
    (listed : ∀ entry ∈ Instruction.placed 0 instructions, ∀ reason,
      faultAt entry.1 reason ↔ fault? entry = some reason)
    (ended : ∀ reason, rest ≠ [] ∧ faultAt (instructions.flatMap Instruction.encode).length reason ↔
      failure = some reason) {reason : DecodeError} :
    program.First faultAt reason ↔
      ((Instruction.placed 0 instructions).findSome? fault?).or failure = some reason := by
  have expected_iff (offset : Nat) : program.Expects offset ↔ _ := expects_iff code_eq unreadable
  have blameless_iff {entry : Nat × Instruction}
      (member : entry ∈ Instruction.placed 0 instructions) :
      fault? entry = none ↔ ∀ other, ¬ faultAt entry.1 other := by
    rw [Option.eq_none_iff_forall_ne_some]
    exact forall_congr' fun other => not_congr (listed entry member other).symm
  have before_end {entry : Nat × Instruction} (member : entry ∈ Instruction.placed 0 instructions) :
      entry.1 < (instructions.flatMap Instruction.encode).length := by
    simpa using Instruction.lt_of_mem_placed member
  rw [Option.or_eq_some_iff, findSome?_eq_some_iff_least
    (Instruction.pairwise_placed 0 instructions),
    List.findSome?_eq_none_iff]
  constructor
  · rintro ⟨offset, expected, faulty, least⟩
    have blameless (entry : Nat × Instruction) (member : entry ∈ Instruction.placed 0 instructions)
        (earlier : entry.1 < offset) : fault? entry = none :=
      (blameless_iff member).mpr
        (least entry.1 earlier ((expected_iff _).mpr (.inl (List.mem_map_of_mem member))))
    rcases (expected_iff _).mp expected with start | ⟨left, rfl⟩
    · obtain ⟨entry, member, rfl⟩ := List.mem_map.mp start
      exact .inl ⟨entry, member, (listed entry member reason).mp faulty, blameless⟩
    · exact .inr ⟨fun entry member => blameless entry member (before_end member),
        (ended reason).mp ⟨left, faulty⟩⟩
  · rintro (⟨entry, member, faulty, least⟩ | ⟨blameless, failed⟩)
    · refine ⟨entry.1, (expected_iff _).mpr (.inl (List.mem_map_of_mem member)),
        (listed entry member reason).mpr faulty, fun earlier less expected => ?_⟩
      rcases (expected_iff _).mp expected with start | ⟨_, rfl⟩
      · obtain ⟨other, there, rfl⟩ := List.mem_map.mp start
        exact (blameless_iff there).mp (least other there less)
      · exact absurd less (Nat.lt_asymm (before_end member))
    · obtain ⟨left, faulty⟩ := (ended reason).mpr failed
      refine ⟨_, (expected_iff _).mpr (.inr ⟨left, rfl⟩), faulty, fun earlier less expected => ?_⟩
      rcases (expected_iff _).mp expected with start | ⟨_, rfl⟩
      · obtain ⟨other, there, rfl⟩ := List.mem_map.mp start
        exact (blameless_iff there).mp (blameless other there)
      · exact absurd less (Nat.lt_irrefl _)

end Parsed

/-- Where there are faults of some kind, there is a first one. -/
theorem exists_first {program : Program} {faultAt : Nat → DecodeError → Prop} {offset : Nat}
    {reason : DecodeError} (expected : program.Expects offset) (faulty : faultAt offset reason) :
    ∃ first, program.First faultAt first := by
  induction offset using Nat.strongRecOn generalizing reason with
  | ind offset induction =>
      by_cases earlier : ∃ less < offset, program.Expects less ∧ ∃ other, faultAt less other
      · obtain ⟨less, before, expected, other, faulty⟩ := earlier
        exact induction less before expected faulty
      · refine ⟨reason, offset, expected, faulty, fun less before expected other faulty => ?_⟩
        exact earlier ⟨less, before, expected, other, faulty⟩

theorem verify_eq_error_iff {program : Program} {reason : DecodeError} :
    program.verify = .error reason ↔ program.fault? = some reason := by
  unfold verify
  cases program.fault? <;> simp

/-- What a refused program is refused for. -/
theorem fault?_eq_some_iff_first {program : Program} {reason : DecodeError} :
    program.fault? = some reason ↔
      program.First program.FaultAt reason ∨
        (∀ offset, program.Expects offset → ∀ other, ¬ program.FaultAt offset other) ∧
          program.First program.AstrayAt reason := by
  obtain ⟨instructions, rest, code_eq, listed, stops⟩ := Listing.exists_decodeFrom_eq 0 program.code
  rw [Nat.zero_add] at stops
  have faults {reason : DecodeError} : program.First program.FaultAt reason ↔
      ((Instruction.placed 0 instructions).findSome? (poolFault? program.strings.length)).or
        (Listing.decodeFrom 0 program.code).failure = some reason := by
    refine first_iff code_eq stops.unreadable
      (fun entry member reason => faultAt_iff_poolFault? code_eq member) fun reason => ?_
    rw [← stops.failure_eq_some_iff]
    exact and_congr_right fun left => faultAt_end_iff code_eq stops.unreadable left
  have blameless : (∀ offset, program.Expects offset → ∀ other, ¬ program.FaultAt offset other) ↔
      ((Instruction.placed 0 instructions).findSome? (poolFault? program.strings.length)).or
        (Listing.decodeFrom 0 program.code).failure = none := by
    rw [Option.eq_none_iff_forall_ne_some]
    constructor
    · rintro none reason found
      obtain ⟨offset, expected, faulty, _⟩ := faults.mpr found
      exact none offset expected reason faulty
    · intro none offset expected other faulty
      obtain ⟨first, found⟩ := exists_first expected faulty
      exact none first (faults.mp found)
  rw [fault?, listing, Listing.ofCode, listed, ← Option.or_assoc, Option.or_eq_some_iff, ← faults,
    ← blameless]
  refine or_congr_right (and_congr_right fun none => ?_)
  have finished : rest = [] :=
    stops.failure_eq_none_iff.mp (Option.or_eq_none_iff.mp (blameless.mp none)).2
  subst finished
  have astray : program.First program.AstrayAt reason ↔
      ((Instruction.placed 0 instructions).findSome?
        (jumpFault? ((Instruction.placed 0 instructions).map Prod.fst))).or Option.none =
          some reason :=
    first_iff code_eq Instruction.unreadable_nil (fun entry member reason =>
      astrayAt_iff_jumpFault? (code_eq.trans (List.append_nil _)) member) (by simp)
  rw [astray, Option.or_none]

/-- The instructions that a program is accepted for are the ones that decoding reads. -/
theorem verify_eq_ok_iff_comprises {program : Program} :
    program.verify = .ok () ↔ ∃ instructions, program.Comprises instructions := by
  obtain ⟨instructions, rest, code_eq, listed, stops⟩ := Listing.exists_decodeFrom_eq 0 program.code
  have listing_eq : program.listing.instructions = Instruction.placed 0 instructions := listed
  have whole_iff : program.listing.failure = none ↔ rest = [] := stops.failure_eq_none_iff
  have forall_iff {condition : Instruction → Prop} :
      (∀ entry ∈ Instruction.placed 0 instructions, condition entry.2) ↔
        ∀ instruction ∈ instructions, condition instruction := by
    rw [← List.forall_mem_map, Instruction.map_snd_placed]
  rw [verify_eq_ok_iff, listing_eq, whole_iff]
  constructor
  · rintro ⟨rfl, pooled, jumps⟩
    exact ⟨instructions, (code_eq.trans (List.append_nil _)).symm, forall_iff.mp pooled,
      forall_iff.mp jumps⟩
  · rintro ⟨others, code, pooled, jumps⟩
    -- Whatever instructions make up the code, decoding reads all of them and nothing is left.
    obtain ⟨later, rfl⟩ := Instruction.prefix_of_flatMap_encode_append stops.unreadable
      (((List.append_nil _).trans code).trans code_eq)
    have nothing : later.flatMap Instruction.encode ++ rest = [] := by
      rw [← code, List.flatMap_append, List.append_assoc] at code_eq
      exact List.self_eq_append_right.mp code_eq
    obtain ⟨unencoded, rfl⟩ := List.append_eq_nil_iff.mp nothing
    cases later with
    | cons instruction later => cases unencoded
    | nil =>
        rw [List.append_nil] at forall_iff ⊢
        exact ⟨rfl, forall_iff.mpr pooled, forall_iff.mpr jumps⟩

/-- A program is accepted exactly when instructions make it up, no other instructions have its code,
and a refused one is refused for its first fault. -/
theorem verify_exact (program : Program) :
    (program.verify = .ok () ↔ ∃ instructions, program.Comprises instructions) ∧
      (∀ left right : List Instruction, left.flatMap Instruction.encode = program.code →
        right.flatMap Instruction.encode = program.code → left = right) ∧
      ∀ reason, program.verify = .error reason ↔
        program.First program.FaultAt reason ∨
          (∀ offset, program.Expects offset → ∀ other, ¬ program.FaultAt offset other) ∧
            program.First program.AstrayAt reason := by
  refine ⟨verify_eq_ok_iff_comprises, fun left right first second => ?_, fun reason => ?_⟩
  · exact Instruction.flatMap_encode_injective (first.trans second.symm)
  · rw [verify_eq_error_iff, fault?_eq_some_iff_first]

/-- A jump into the middle of an instruction is not reported when a pool operand after it is outside
the pool. -/
theorem verify_exact_pool_after_jump :
    let instructions : List Instruction := [.jump 3, .pushString 0]
    let program : Program := ⟨[], instructions.flatMap Instruction.encode⟩
    (∀ others : List Instruction,
        others.flatMap Instruction.encode = program.code → others = instructions) ∧
      program.First program.FaultAt (.stringIndexOutOfRange 0 0 5) := by
  intro instructions program
  obtain ⟨-, unique, refused_iff⟩ := verify_exact program
  have refused : program.verify = .error (.stringIndexOutOfRange 0 0 5) :=
    verify_eq_error_iff.mpr (by decide +kernel)
  refine ⟨fun others same => unique others instructions same rfl, ?_⟩
  rcases (refused_iff _).mp refused with first | ⟨_, _, _, astray, _⟩
  · exact first
  · cases astray

end Program

end StackMachine
