import StackMachine.Assembly.Assembler
import StackMachine.Assembly.Disassembly
import StackMachine.Proofs.Assembly.Token
import StackMachine.Proofs.Binary64.Text
import StackMachine.Proofs.Listing
import StackMachine.Proofs.Outcome

/-!
# Disassembly inverts assembly

The text of a well-formed program assembles to the program itself, pool and code byte for byte, and
no other program has this property.  Each line reads back as the statement of its instruction; the
pool built along the way is a prefix of the program's own, whether it was spelled out first or
arises from the operands, so that every string found by content gets its old index.
-/

namespace StackMachine

namespace Disassembly

/-! ## Words -/

/-- The characters of the words that a disassembly writes. -/
def isBareChar (c : Char) : Bool :=
  c.isAlphanum || "._-".toList.contains c

theorem continuesWord_of_isBareChar {c : Char} (bare : isBareChar c = true) :
    Token.continuesWord c = true := by
  by_contra stops
  have special : c ∈ " \t\n\x0c\r;".toList := by
    simp only [Token.continuesWord, Text.isAsciiBlank] at stops
    simp
    grind
  have plain : " \t\n\x0c\r;".toList.all (fun c => !isBareChar c) = true := by decide
  have unbare := List.all_eq_true.mp plain c special
  simp [bare] at unbare

theorem readable_word {text : List Char} (nonempty : text ≠ [])
    (bare : text.all isBareChar = true) : (Token.word text).Readable := by
  rw [List.all_eq_true] at bare
  refine ⟨nonempty, fun c member => continuesWord_of_isBareChar (bare c member), ?_, ?_⟩
  · intro quoted
    exact absurd (bare '"' (List.mem_of_mem_head? quoted)) (by decide)
  · intro marked
    exact absurd (bare '#' (List.mem_of_mem_head? marked)) (by decide)

theorem isBareChar_digitChar {digit : Nat} (small : digit < 16) :
    isBareChar digit.digitChar = true := by
  have digits : ∀ digit < 16, isBareChar (Nat.digitChar digit) = true := by decide
  exact digits digit small

theorem readable_numberToken (value : Nat) : (numberToken value).Readable := by
  refine readable_word Nat.toDigits_ne_nil (List.all_eq_true.mpr fun c member => ?_)
  obtain ⟨digit, small, rfl⟩ :=
    Numeral.exists_digitChar_of_mem_toDigits (by decide : 1 < 10) member
  exact isBareChar_digitChar (by omega)

theorem isBareChar_of_isTextChar {c : Char} (textual : Binary64.isTextChar c = true) :
    isBareChar c = true := by
  simp only [Binary64.isTextChar, Bool.or_eq_true, List.contains_iff_mem] at textual
  rcases textual with digit | letter
  · simp [isBareChar, Char.isAlphanum, digit]
  · have letters : ".-einfNa".toList.all isBareChar = true := by decide
    exact List.all_eq_true.mp letters c letter

theorem readable_integer (value : Int) : (Token.word (Numeral.integer value)).Readable := by
  refine readable_word ?_ (List.all_eq_true.mpr fun c member =>
    isBareChar_of_isTextChar (Binary64.isTextChar_of_mem_integer member))
  unfold Numeral.integer
  split
  · exact List.cons_ne_nil _ _
  · exact Nat.toDigits_ne_nil

theorem readable_operandText (value : Binary64) : (Token.word value.operandText).Readable := by
  refine readable_word ?_ (List.all_eq_true.mpr fun c member => ?_)
  · intro empty
    have read := Binary64.ofOperand?_operandText value
    rw [empty, show Binary64.ofOperand? [] = none from rfl] at read
    contradiction
  · unfold Binary64.operandText at member
    split at member
    · have hexadecimal : c ∈ Nat.toDigits 16 value.bits.toNat → isBareChar c = true := by
        intro inside
        obtain ⟨digit, small, rfl⟩ :=
          Numeral.exists_digitChar_of_mem_toDigits (by decide : 1 < 16) inside
        exact isBareChar_digitChar small
      simp only [List.mem_cons, Numeral.paddedHexadecimal, List.mem_append, List.mem_replicate]
        at member
      rcases member with rfl | rfl | ⟨_, rfl⟩ | inside
      · decide
      · decide
      · decide
      · exact hexadecimal inside
    · exact isBareChar_of_isTextChar (Binary64.isTextChar_of_mem member)

theorem readable_mnemonic (op : Opcode) : (Token.word op.mnemonic.toList).Readable := by
  have mnemonics : ∀ op ∈ Opcode.all,
      op.mnemonic.toList ≠ [] ∧ op.mnemonic.toList.all isBareChar = true := by decide
  obtain ⟨nonempty, bare⟩ := mnemonics op op.mem_all
  exact readable_word nonempty bare

theorem readable_poolToken (program : Program) (index : UInt32) :
    (poolToken program index).Readable := by
  unfold poolToken
  split
  · trivial
  · split <;> trivial

theorem readable_operandTokens {program : Program} {instruction : Instruction} {token : Token}
    (member : token ∈ operandTokens program instruction) : token.Readable := by
  cases instruction with
  | pushInt value =>
      rw [List.mem_singleton.mp member]
      exact readable_integer value.toInt
  | pushFloat value =>
      rw [List.mem_singleton.mp member]
      exact readable_operandText value
  | pushBool value =>
      rw [List.mem_singleton.mp member]
      cases value <;> exact readable_word (by decide) (by decide)
  | pushString index | storeGlobal index | loadGlobal index =>
      rw [List.mem_singleton.mp member]
      exact readable_poolToken program index
  | callNative index argumentCount =>
      rcases List.mem_pair.mp member with rfl | rfl
      · exact readable_poolToken program index
      · exact readable_numberToken argumentCount.toNat
  | jump target | jumpIfFalse target =>
      rw [List.mem_singleton.mp member]
      exact readable_numberToken target.toNat
  | _ => exact absurd member (List.not_mem_nil)

theorem readable_instructionTokens {program : Program} {instruction : Instruction} {token : Token}
    (member : token ∈ instructionTokens program instruction) : token.Readable := by
  rcases List.mem_cons.mp member with rfl | operand
  · exact readable_mnemonic instruction.opcode
  · exact readable_operandTokens operand

theorem readable_constantTokens {bytes : List UInt8} {token : Token}
    (member : token ∈ constantTokens bytes) : token.Readable := by
  rcases List.mem_pair.mp member with rfl | rfl
  · exact readable_word (by decide) (by decide)
  · trivial

/-- A line of a program is that of a constant or of an instruction. -/
theorem programTokens_cases {program : Program} {tokens : List Token}
    (line : tokens ∈ programTokens program) :
    (∃ bytes, tokens = constantTokens bytes) ∨
      ∃ instruction, tokens = instructionTokens program instruction := by
  rcases List.mem_append.mp line with constant | instruction
  · split at constant
    · cases constant
    · obtain ⟨bytes, _, rfl⟩ := List.mem_map.mp constant
      exact .inl ⟨bytes, rfl⟩
  · obtain ⟨decoded, _, rfl⟩ := List.mem_map.mp instruction
    exact .inr ⟨decoded, rfl⟩

theorem readable_programTokens {program : Program} {tokens : List Token}
    (line : tokens ∈ programTokens program) : ∀ token ∈ tokens, token.Readable := by
  obtain ⟨bytes, rfl⟩ | ⟨instruction, rfl⟩ := programTokens_cases line
  · exact fun _ => readable_constantTokens
  · exact fun _ => readable_instructionTokens

/-- The lines of a disassembly are its rendered tokens. -/
theorem lines_disassemble (program : Program) :
    Text.lines (disassemble program).toList = (programTokens program).map Token.renderLine := by
  rw [disassemble, String.toList_ofList, ← List.flatMap_map]
  refine Text.lines_flatMap_newline fun text member c inside => ?_
  obtain ⟨tokens, line, rfl⟩ := List.mem_map.mp member
  exact Token.staysInLine_of_mem_renderLine (readable_programTokens line) inside

/-! ## Statements -/

/-- The operand that a pool token stands for. -/
def poolOperand (program : Program) (index : UInt32) : PoolOperand :=
  match poolToken program index with
  | .quoted bytes => .content bytes
  | _ => .index index

/-- The statement on the line of an instruction. -/
def statement (program : Program) : Instruction → Statement
  | .pushString index => .pooled (poolOperand program index) .pushString
  | .storeGlobal index => .pooled (poolOperand program index) .storeGlobal
  | .loadGlobal index => .pooled (poolOperand program index) .loadGlobal
  | .callNative index argumentCount =>
      .pooled (poolOperand program index) (.callNative · argumentCount)
  | .jump target => .jump (.offset target) .jump
  | .jumpIfFalse target => .jump (.offset target) .jumpIfFalse
  | instruction => .plain instruction

theorem takePool_poolToken (op : Opcode) (program : Program) (index : UInt32)
    (rest : List Token) :
    Statement.takePool op (poolToken program index :: rest) =
      .ok (poolOperand program index, rest) := by
  unfold poolOperand poolToken
  split
  · rfl
  · split <;> rfl

theorem boolean?_booleanText (value : Bool) :
    Statement.boolean? (Instruction.booleanText value) = some value := by
  cases value <;> rfl

theorem ofOperands_operandTokens (program : Program) (instruction : Instruction) :
    Statement.ofOperands instruction.opcode (operandTokens program instruction) =
      .ok (statement program instruction, []) := by
  cases instruction with
  | pushString index | storeGlobal index | loadGlobal index =>
      simp only [Instruction.opcode, operandTokens, Statement.ofOperands, takePool_poolToken]
      rfl
  | callNative index argumentCount =>
      simp only [Instruction.opcode, operandTokens, Statement.ofOperands, takePool_poolToken]
      simp only [numberToken, Statement.takeWord, Numeral.uint8?_decimal, Statement.required, bind,
        Except.bind]
      rfl
  | jump target | jumpIfFalse target =>
      simp only [Instruction.opcode, operandTokens, Statement.ofOperands, numberToken,
        Statement.takeWord, Statement.target, Numeral.uint32?_decimal, bind, Except.bind]
      rfl
  | pushInt value =>
      simp only [Instruction.opcode, operandTokens, Statement.ofOperands, Statement.takeWord,
        Numeral.int64?_integer, Statement.required, bind, Except.bind]
      rfl
  | pushFloat value =>
      simp only [Instruction.opcode, operandTokens, Statement.ofOperands, Statement.takeWord,
        Binary64.ofOperand?_operandText, Statement.required, bind, Except.bind]
      rfl
  | pushBool value =>
      simp only [Instruction.opcode, operandTokens, Statement.ofOperands, Statement.takeWord,
        boolean?_booleanText, Statement.required, bind, Except.bind]
      rfl
  | _ => rfl

/-- A mnemonic is no directive. -/
theorem ofTokens_mnemonic {op : Opcode} {operands : List Token} {statement : Statement}
    (read : Statement.ofOperands op operands = .ok (statement, [])) :
    Statement.ofTokens (.word op.mnemonic.toList :: operands) = .ok (some statement) := by
  have no_directive : ∀ op ∈ Opcode.all, op.mnemonic.toList ≠ Statement.constantDirective := by
    decide
  simp only [Statement.ofTokens, if_neg (no_directive op op.mem_all), String.ofList_toList,
    Opcode.ofMnemonic?_mnemonic, read, bind, Except.bind]
  rfl

/-- No mnemonic ends like a label. -/
theorem splitLabels_mnemonic (op : Opcode) (operands : List Token) :
    Statement.splitLabels (.word op.mnemonic.toList :: operands) =
      ([], .word op.mnemonic.toList :: operands) := by
  have no_label : ∀ op ∈ Opcode.all, op.mnemonic.toList.getLast? ≠ some ':' := by decide
  rw [Statement.splitLabels, if_neg (no_label op op.mem_all)]

theorem ofTokens_instructionTokens (program : Program) (instruction : Instruction) :
    Statement.ofTokens (instructionTokens program instruction) =
      .ok (some (statement program instruction)) :=
  ofTokens_mnemonic (ofOperands_operandTokens program instruction)

theorem splitLabels_instructionTokens (program : Program) (instruction : Instruction) :
    Statement.splitLabels (instructionTokens program instruction) =
      ([], instructionTokens program instruction) :=
  splitLabels_mnemonic instruction.opcode (operandTokens program instruction)

theorem assembleLine_renderLine {tokens : List Token} {statement : Statement}
    (assembler : Assembler) (line : Nat) (readable : ∀ token ∈ tokens, token.Readable)
    (unlabelled : Statement.splitLabels tokens = ([], tokens))
    (spelled : Statement.ofTokens tokens = .ok (some statement)) :
    assembler.assembleLine line (Token.renderLine tokens) =
      .ok (assembler.execute line statement) := by
  simp only [Assembler.assembleLine, Token.readLine_renderLine readable, bind, Except.bind,
    unlabelled, List.foldlM_nil, pure, Except.pure, spelled]

theorem assembleLine_instructionTokens (program : Program) (instruction : Instruction)
    (assembler : Assembler) (line : Nat) :
    assembler.assembleLine line (Token.renderLine (instructionTokens program instruction)) =
      .ok (assembler.execute line (statement program instruction)) :=
  assembleLine_renderLine assembler line (fun _ => readable_instructionTokens)
    (splitLabels_instructionTokens program instruction)
    (ofTokens_instructionTokens program instruction)

theorem assembleLine_constantTokens (bytes : List UInt8) (assembler : Assembler) (line : Nat) :
    assembler.assembleLine line (Token.renderLine (constantTokens bytes)) =
      .ok (assembler.execute line (.constant bytes)) :=
  assembleLine_renderLine assembler line (fun _ => readable_constantTokens) rfl rfl

theorem assembleLines_append (assembler : Assembler) (line : Nat)
    (first second : List (List Char)) :
    assembler.assembleLines line (first ++ second) =
      assembler.assembleLines line first >>= fun middle =>
        middle.assembleLines (line + first.length) second := by
  induction first generalizing assembler line with
  | nil => rfl
  | cons text rest induction =>
      simp only [List.cons_append, Assembler.assembleLines]
      cases assembler.assembleLine line text with
      | error fault => rfl
      | ok next =>
          have shifted : line + 1 + rest.length = line + (text :: rest).length := by
            rw [List.length_cons]
            omega
          rw [← shifted]
          exact induction next (line + 1)

/-! ## Pools -/

theorem prefix_addContent (pool : List (List UInt8)) (bytes : List UInt8) :
    pool <+: addContent pool bytes := by
  unfold addContent
  split
  · exact List.prefix_rfl
  · exact List.prefix_append pool [bytes]

theorem prefix_foldl_addContent (pool contents : List (List UInt8)) :
    pool <+: contents.foldl addContent pool := by
  induction contents generalizing pool with
  | nil => exact List.prefix_rfl
  | cons bytes rest induction =>
      exact (prefix_addContent pool bytes).trans (induction (addContent pool bytes))

theorem nodup_foldl_addContent {pool : List (List UInt8)} (contents : List (List UInt8))
    (distinct : pool.Nodup) : (contents.foldl addContent pool).Nodup := by
  induction contents generalizing pool with
  | nil => exact distinct
  | cons bytes rest induction =>
      apply induction
      unfold addContent
      split
      · exact distinct
      · rename_i absent
        rw [List.contains_iff_mem] at absent
        exact List.nodup_append.mpr ⟨distinct, List.nodup_singleton bytes,
          fun other member last singleton => by
            rw [List.mem_singleton.mp singleton]
            rintro rfl
            exact absent member⟩

theorem foldl_addContent_of_subset {pool contents : List (List UInt8)}
    (known : ∀ bytes ∈ contents, bytes ∈ pool) : contents.foldl addContent pool = pool := by
  induction contents with
  | nil => rfl
  | cons bytes rest induction =>
      have present : addContent pool bytes = pool := by
        rw [addContent, if_pos (List.contains_iff_mem.mpr (known bytes List.mem_cons_self))]
      rw [List.foldl_cons, present]
      exact induction fun other member => known other (List.mem_cons_of_mem bytes member)

theorem idxOf?_of_extended {pool whole : List (List UInt8)} {bytes : List UInt8} {position : Nat}
    (extended : pool <+: whole) (found : pool.idxOf? bytes = some position) :
    whole.idxOf? bytes = some position := by
  obtain ⟨rest, rfl⟩ := extended
  rw [List.idxOf?] at found ⊢
  rw [List.findIdx?_append, found]
  rfl

theorem idxOf?_append_singleton {pool : List (List UInt8)} {bytes : List UInt8}
    (absent : pool.idxOf? bytes = none) : (pool ++ [bytes]).idxOf? bytes = some pool.length := by
  rw [List.idxOf?] at absent ⊢
  rw [List.findIdx?_append, absent]
  simp

/-- While the pool under construction is a prefix of the final one, a string found by content gets
its final index. -/
theorem intern_eq {builder : Builder} {whole : List (List UInt8)} {bytes : List UInt8}
    {index : UInt32} (extended : addContent builder.strings bytes <+: whole)
    (first : whole.idxOf? bytes = some index.toNat) :
    builder.intern bytes =
      (index, { builder with strings := addContent builder.strings bytes }) := by
  have final {position : Nat}
      (found : (addContent builder.strings bytes).idxOf? bytes = some position) :
      UInt32.ofNat position = index := by
    have equal : some position = some index.toNat :=
      (idxOf?_of_extended extended found).symm.trans first
    rw [Option.some.inj equal, UInt32.ofNat_toNat]
  unfold Builder.intern
  cases found : builder.strings.idxOf? bytes with
  | some position =>
      have member : bytes ∈ builder.strings := by
        by_contra absent
        rw [List.idxOf?_eq_none_iff.mpr absent] at found
        contradiction
      have kept : addContent builder.strings bytes = builder.strings := by
        rw [addContent, if_pos (List.contains_iff_mem.mpr member)]
      rw [kept] at final
      simp only [final found, kept]
  | none =>
      have added : addContent builder.strings bytes = builder.strings ++ [bytes] := by
        rw [addContent, if_neg
          (by rw [List.contains_iff_mem]; exact List.idxOf?_eq_none_iff.mp found)]
      rw [added] at final
      simp only [Builder.pushString, final (idxOf?_append_singleton found), added]

/-! ## Runs of the assembler -/

/-- The contents that instructions refer to, in order. -/
def contents (program : Program) (instructions : List Instruction) : List (List UInt8) :=
  (instructions.filterMap Instruction.poolIndex?).filterMap program.string?

/-- The strings from which assembling instructions builds the pool of a program. -/
structure Supplies (program : Program) (strings : List (List UInt8))
    (instructions : List Instruction) : Prop where
  /-- The contents still to come complete the pool. -/
  completed : (contents program instructions).foldl addContent strings = program.strings
  /-- A string not there yet is referred to by content. -/
  indexed : ∀ index bytes, program.string? index = some bytes →
    bytes ∈ strings ∨ program.strings.idxOf? bytes = some index.toNat

theorem execute_pooled {program : Program} {index : UInt32} {bytes : List UInt8}
    (assembler : Assembler) (line : Nat) (instruction : UInt32 → Instruction)
    (content : program.string? index = some bytes)
    (extended : addContent assembler.builder.strings bytes <+: program.strings)
    (indexed : bytes ∈ assembler.builder.strings ∨
      program.strings.idxOf? bytes = some index.toNat) :
    assembler.execute line (.pooled (poolOperand program index) instruction) =
      { assembler with
        builder := ⟨assembler.builder.code ++ (instruction index).encode,
          addContent assembler.builder.strings bytes⟩ } := by
  by_cases first : program.strings.idxOf? bytes = some index.toNat
  · have by_content : poolOperand program index = .content bytes := by
      simp [poolOperand, poolToken, content, first]
    simp only [by_content, Assembler.execute, Builder.emitInterned, intern_eq extended first,
      Builder.emit]
  · have by_index : poolOperand program index = .index index := by
      simp [poolOperand, poolToken, content, first]
    have kept : addContent assembler.builder.strings bytes = assembler.builder.strings := by
      rw [addContent, if_pos (List.contains_iff_mem.mpr (indexed.resolve_right first))]
    simp only [by_index, Assembler.execute, Builder.emit, kept]

theorem contents_cons (program : Program) (instruction : Instruction)
    (rest : List Instruction) :
    contents program (instruction :: rest) =
      contents program [instruction] ++ contents program rest := by
  rw [contents, contents, contents, ← List.filterMap_append, ← List.filterMap_append]
  rfl

/-- Carrying out the statement of an instruction appends its encoding and its contents. -/
theorem execute_statement {program : Program} {instruction : Instruction}
    {rest : List Instruction} (assembler : Assembler) (line : Nat)
    (supplied : Supplies program assembler.builder.strings (instruction :: rest))
    (inside : ∀ index, instruction.poolIndex? = some index →
      index.toNat < program.strings.length) :
    assembler.execute line (statement program instruction) =
      { assembler with
        builder := ⟨assembler.builder.code ++ instruction.encode,
          (contents program [instruction]).foldl addContent assembler.builder.strings⟩ } := by
  have pooled (index : UInt32) (make : UInt32 → Instruction)
      (uses : instruction.poolIndex? = some index) :
      assembler.execute line (.pooled (poolOperand program index) make) =
        { assembler with
          builder := ⟨assembler.builder.code ++ (make index).encode,
            (contents program [instruction]).foldl addContent assembler.builder.strings⟩ } := by
    obtain ⟨bytes, content⟩ : ∃ bytes, program.string? index = some bytes :=
      ⟨_, List.getElem?_eq_getElem (inside index uses)⟩
    have single : contents program [instruction] = [bytes] := by
      simp [contents, uses, content]
    have completed := supplied.completed
    rw [contents_cons, single, List.singleton_append, List.foldl_cons] at completed
    have extended : addContent assembler.builder.strings bytes <+: program.strings :=
      completed ▸ prefix_foldl_addContent _ _
    rw [execute_pooled assembler line make content extended (supplied.indexed _ _ content), single]
    rfl
  cases instruction with
  | pushString index => exact pooled index .pushString rfl
  | storeGlobal index => exact pooled index .storeGlobal rfl
  | loadGlobal index => exact pooled index .loadGlobal rfl
  | callNative index argumentCount => exact pooled index (.callNative · argumentCount) rfl
  | _ => rfl

theorem Supplies.tail {program : Program} {strings : List (List UInt8)}
    {instruction : Instruction} {rest : List Instruction}
    (supplied : Supplies program strings (instruction :: rest)) :
    Supplies program ((contents program [instruction]).foldl addContent strings) rest := by
  refine ⟨?_, fun index bytes content => ?_⟩
  · rw [← List.foldl_append, ← contents_cons]
    exact supplied.completed
  · rcases supplied.indexed index bytes content with present | first
    · exact .inl ((prefix_foldl_addContent strings _).subset present)
    · exact .inr first

/-- Assembling the lines of instructions appends their encodings and completes the pool. -/
theorem assembleLines_instructions {program : Program} (instructions : List Instruction)
    (assembler : Assembler) (line : Nat)
    (supplied : Supplies program assembler.builder.strings instructions)
    (inside : ∀ instruction ∈ instructions, ∀ index, instruction.poolIndex? = some index →
      index.toNat < program.strings.length) :
    assembler.assembleLines line
        ((instructions.map (instructionTokens program)).map Token.renderLine) =
      .ok { assembler with
        builder := ⟨assembler.builder.code ++ instructions.flatMap Instruction.encode,
          program.strings⟩ } := by
  induction instructions generalizing assembler line with
  | nil =>
      have complete : assembler.builder.strings = program.strings := supplied.completed
      simp only [List.map_nil, Assembler.assembleLines, List.flatMap_nil, List.append_nil,
        ← complete]
  | cons instruction rest induction =>
      have head := execute_statement assembler line supplied (inside instruction List.mem_cons_self)
      simp only [List.map_cons, Assembler.assembleLines, assembleLine_instructionTokens, head]
      rw [induction _ (line + 1) supplied.tail fun other member =>
        inside other (List.mem_cons_of_mem instruction member)]
      simp only [List.flatMap_cons, List.append_assoc]

theorem assembleLines_constants (constants : List (List UInt8)) (assembler : Assembler)
    (line : Nat) :
    assembler.assembleLines line ((constants.map constantTokens).map Token.renderLine) =
      .ok { assembler with
        builder := ⟨assembler.builder.code, assembler.builder.strings ++ constants⟩ } := by
  induction constants generalizing assembler line with
  | nil => simp only [List.map_nil, Assembler.assembleLines, List.append_nil]
  | cons bytes rest induction =>
      simp only [List.map_cons, Assembler.assembleLines, assembleLine_constantTokens,
        Assembler.execute, Builder.pushString]
      rw [induction]
      simp only [List.append_assoc, List.singleton_append]

theorem supplies_of_explicit {program : Program} {instructions : List Instruction} :
    Supplies program program.strings instructions := by
  refine ⟨foldl_addContent_of_subset fun bytes member => ?_, fun index bytes content => .inl ?_⟩
  · obtain ⟨index, _, content⟩ := List.mem_filterMap.mp member
    exact List.mem_of_getElem? content
  · exact List.mem_of_getElem? content

/-- A pool that instructions build by themselves has no duplicates, so its strings are all referred
to by content. -/
theorem supplies_of_implied {program : Program} {instructions : List Instruction}
    (implied : impliedPool program instructions = program.strings) :
    Supplies program [] instructions := by
  refine ⟨implied, fun index bytes content => .inr ?_⟩
  have distinct : program.strings.Nodup := implied ▸ nodup_foldl_addContent _ List.nodup_nil
  obtain ⟨small, rfl⟩ := List.getElem?_eq_some_iff.mp content
  exact List.findIdx?_eq_some_iff_findIdx_eq.mpr ⟨small, distinct.idxOf_getElem index.toNat small⟩

/-- Assembling the lines of a well-formed program rebuilds it. -/
theorem assembleLines_programTokens {program : Program}
    (whole : program.listing.failure = none)
    (inside : ∀ entry ∈ program.listing.instructions, ∀ index,
      entry.2.poolIndex? = some index → index.toNat < program.strings.length) :
    Assembler.assembleLines {} 1 ((programTokens program).map Token.renderLine) =
      .ok { builder := ⟨program.code, program.strings⟩ } := by
  have code_eq := Listing.flatMap_encode_decodeFrom whole
  have ranged : ∀ instruction ∈ program.listing.instructions.map Prod.snd, ∀ index,
      instruction.poolIndex? = some index → index.toNat < program.strings.length := by
    intro instruction member index uses
    obtain ⟨entry, found, rfl⟩ := List.mem_map.mp member
    exact inside entry found index uses
  simp only [programTokens]
  split
  · rename_i implied
    rw [List.nil_append, assembleLines_instructions _ {} 1 (supplies_of_implied implied) ranged]
    simp only [List.nil_append]
    rw [Program.listing, Listing.ofCode, code_eq]
  · rw [List.map_append, assembleLines_append, assembleLines_constants]
    simp only [bind, Except.bind, List.nil_append]
    rw [assembleLines_instructions _ _ _ supplies_of_explicit ranged]
    simp only [List.nil_append]
    rw [Program.listing, Listing.ofCode, code_eq]

end Disassembly

theorem Assembler.verify_of_finish_eq_ok {assembler : Assembler} {program : Program}
    (finished : assembler.finish = .ok program) : program.verify = .ok () := by
  unfold Assembler.finish at finished
  split at finished
  · cases finished
  · simp only [] at finished
    split at finished
    · cases finished
    · rename_i verified
      cases finished
      exact verified

theorem Assembler.waiting_of_finish_eq_ok {assembler : Assembler} {program : Program}
    (finished : assembler.finish = .ok program) :
    assembler.waiting = [] ∧ assembler.builder.program = program := by
  unfold Assembler.finish at finished
  split at finished
  · cases finished
  · rename_i waiting
    simp only [] at finished
    split at finished
    · cases finished
    · cases finished
      exact ⟨waiting, rfl⟩

/-- Disassembly loses nothing: the text of a program assembles to the same pool and code exactly
when the program is well formed. -/
theorem assemble_disassemble_eq_ok_iff (program : Program) :
    assemble (disassemble program) = .ok program ↔ program.verify = .ok () := by
  constructor
  · intro assembled
    obtain ⟨assembler, _, finished⟩ := bind_eq_ok_iff.mp assembled
    exact Assembler.verify_of_finish_eq_ok finished
  · intro verified
    obtain ⟨whole, inside, _⟩ := Program.verify_eq_ok_iff.mp verified
    rw [assemble, Disassembly.lines_disassemble,
      Disassembly.assembleLines_programTokens whole inside]
    simp only [bind, Except.bind, Assembler.finish, Builder.program]
    rw [verified]

end StackMachine
