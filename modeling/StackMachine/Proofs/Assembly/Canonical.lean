import StackMachine.Proofs.Assembly.Meaning
import StackMachine.Proofs.Verification

/-!
# Disassemblies are canonical

The text of any program, well formed or not, is its own normal form.  Each of its lines can be read.
The first ones spell out the pool, unless it is what the instructions refer to in order of first
appearance, and the others are the instructions that can be decoded, one to a line.
-/

namespace StackMachine

namespace Disassembly

/-! ## Pools in order of first appearance -/

/-- Adding contents one by one keeps the first occurrence of each that is not there yet. -/
theorem foldl_addContent_eq (pool contents : List (List UInt8)) :
    contents.foldl addContent pool = pool ++ (contents.removeAll pool).eraseDups := by
  induction contents generalizing pool with
  | nil => simp [List.removeAll]
  | cons bytes rest induction =>
      rw [List.foldl_cons, induction, addContent]
      by_cases known : bytes ∈ pool
      · rw [if_pos (List.contains_iff_mem.mpr known)]
        simp [List.removeAll, known]
      · rw [if_neg (mt List.contains_iff_mem.mp known)]
        have later : rest.removeAll (pool ++ [bytes]) =
            (rest.removeAll pool).filter fun other => !other == bytes := by
          rw [List.removeAll, List.removeAll, List.filter_filter]
          refine List.filter_congr fun other _ => ?_
          by_cases same : other = bytes <;> simp [same]
        have first : (bytes :: rest).removeAll pool = bytes :: rest.removeAll pool := by
          simp [List.removeAll, known]
        rw [later, first, List.eraseDups_cons, List.append_assoc, List.singleton_append]

theorem impliedPool_eq_eraseDups (program : Program) (instructions : List Instruction) :
    impliedPool program instructions = (contents program instructions).eraseDups := by
  have added := foldl_addContent_eq [] (contents program instructions)
  rw [List.nil_append] at added
  rw [impliedPool, ← contents, added]
  simp [List.removeAll]

/-! ## Lines -/

/-- A disassembly spells the numbers that are pushed as a normal form does. -/
theorem canonicalTokens_instructionTokens (program : Program) (instruction : Instruction) :
    canonicalTokens (instructionTokens program instruction) =
      instructionTokens program instruction := by
  cases instruction with
  | pushInt value =>
      simp only [instructionTokens, operandTokens, Instruction.opcode, canonicalTokens,
        canonicalOperand, if_true, Numeral.int64?_integer]
  | pushFloat value =>
      have other : Opcode.pushFloat.mnemonic.toList ≠ Opcode.pushInt.mnemonic.toList := by decide
      simp only [instructionTokens, operandTokens, Instruction.opcode, canonicalTokens,
        canonicalOperand, if_neg other, if_true, Binary64.ofOperand?_operandText]
  | pushBool value | jump target | jumpIfFalse target =>
      exact canonicalTokens_word _ (by simp [Instruction.opcode])
  | pushString index | storeGlobal index | loadGlobal index | callNative index argumentCount =>
      simp only [instructionTokens, operandTokens, poolToken]
      split
      · rfl
      · split <;> rfl
  | _ => rfl

theorem canonicalTokens_programTokens {program : Program} {tokens : List Token}
    (line : tokens ∈ programTokens program) : canonicalTokens tokens = tokens := by
  obtain ⟨bytes, rfl⟩ | ⟨instruction, rfl⟩ := programTokens_cases line
  · rfl
  · exact canonicalTokens_instructionTokens program instruction

theorem programTokens_ne_nil {program : Program} {tokens : List Token}
    (line : tokens ∈ programTokens program) : tokens ≠ [] := by
  obtain ⟨bytes, rfl⟩ | ⟨instruction, rfl⟩ := programTokens_cases line
  · exact List.cons_ne_nil _ _
  · exact List.cons_ne_nil _ _

/-- The lines of a disassembly can be read, and give the tokens they were rendered from. -/
theorem map_readLine_disassemble (program : Program) :
    (Text.lines (disassemble program).toList).map Token.readLine =
      (programTokens program).map .ok := by
  rw [lines_disassemble, List.map_map]
  exact List.map_congr_left fun tokens line =>
    Token.readLine_renderLine (readable_programTokens line)

theorem normalize_disassemble (program : Program) :
    normalize (disassemble program) = disassemble program := by
  have lexed : ∀ text ∈ Text.lines (disassemble program).toList,
      ∃ tokens, Token.readLine text = .ok tokens := by
    intro text member
    have read := List.mem_map_of_mem (f := Token.readLine) member
    rw [map_readLine_disassemble] at read
    obtain ⟨tokens, _, read_eq⟩ := List.mem_map.mp read
    exact ⟨tokens, read_eq.symm⟩
  have fixed : (programTokens program).map canonicalTokens = programTokens program := by
    rw [List.map_congr_left fun tokens line => canonicalTokens_programTokens line, List.map_id']
  refine ((disassemble_eq_normalize_iff_tokens program lexed).mpr ?_).symm
  rw [lines_disassemble, tokenLines_map_renderLine (fun _ => readable_programTokens)
    (fun _ => programTokens_ne_nil), fixed]

/-- The lines of a program as tokens, given its instructions: the pool is spelled out unless it is
the distinct contents that the instructions refer to, in order of first appearance. -/
def canonicalLines (program : Program) (instructions : List Instruction) : List (List Token) :=
  (if (contents program instructions).eraseDups = program.strings then []
    else program.strings.map constantTokens) ++ instructions.map (instructionTokens program)

theorem programTokens_eq {program : Program} {instructions : List Instruction}
    (listed : program.listing.instructions = Instruction.placed 0 instructions) :
    programTokens program = canonicalLines program instructions := by
  simp only [programTokens, canonicalLines, listed, Instruction.map_snd_placed,
    impliedPool_eq_eraseDups]

end Disassembly

open Disassembly

/-- A disassembly is its own normal form.  It is one line after the other, all of which can be read:
the pool, if it has to be spelled out, and the instructions up to the first place where none can be
decoded. -/
theorem disassemble_canonical (program : Program) :
    normalize (disassemble program) = disassemble program ∧
      ∃ instructions rest,
        program.code = instructions.flatMap Instruction.encode ++ rest ∧
        Instruction.Unreadable rest ∧
        program.listing.instructions = Instruction.placed 0 instructions ∧
        (disassemble program).toList =
          (Text.lines (disassemble program).toList).flatMap terminate ∧
        (Text.lines (disassemble program).toList).map Token.readLine =
          (canonicalLines program instructions).map .ok := by
  obtain ⟨instructions, rest, code_eq, listed, stops⟩ := Listing.exists_decodeFrom_eq 0 program.code
  refine ⟨normalize_disassemble program, instructions, rest, code_eq, stops.unreadable, listed,
    ?_, ?_⟩
  · rw [lines_disassemble, disassemble, String.toList_ofList, List.flatMap_map]
  · rw [map_readLine_disassemble, programTokens_eq listed]

end StackMachine
