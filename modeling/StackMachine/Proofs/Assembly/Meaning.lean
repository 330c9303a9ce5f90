import StackMachine.Proofs.Assembly.Normalization

/-!
# What a text means

The number of a line only serves to report errors. Without it, assembling a text is assembling the
token lists of its lines one after the other, and a line in normal form does to the assembler what
the line itself does. A text and its normal form therefore assemble to one program.
-/

namespace StackMachine

open Disassembly

namespace Assembler

/-! ## Line numbers -/

/-- The jumps that wait for a label, without the line of the first. -/
def unnumber (entry : Waiting) : Waiting :=
  { entry with line := 0 }

/-- The assembler without the lines of the jumps that wait. -/
def unnumbered (assembler : Assembler) : Assembler :=
  { assembler with waiting := assembler.waiting.map unnumber }

theorem map_unnumber_await (name : List Char) (line : Nat) (jump : Label) (waiting : List Waiting) :
    (await name line jump waiting).map unnumber = await name 0 jump (waiting.map unnumber) := by
  induction waiting with
  | nil => rfl
  | cons entry rest induction =>
      have name_eq : (unnumber entry).name = entry.name := rfl
      rw [List.map_cons, await, await, name_eq]
      split
      · rfl
      · rw [List.map_cons, induction]

theorem unnumbered_define (assembler : Assembler) (name : List Char) :
    (assembler.define name).map unnumbered = assembler.unnumbered.define name := by
  have jumps_eq (entries : List Waiting) :
      (entries.map unnumber).flatMap Waiting.jumps = entries.flatMap Waiting.jumps := by
    rw [List.flatMap_map]
    rfl
  have labels_eq : assembler.unnumbered.labels = assembler.labels := rfl
  rw [define, define, labels_eq]
  cases assembler.labels.lookup name with
  | some offset => rfl
  | none =>
      simp only [Except.map, unnumbered, List.partition_eq_filter_filter, List.filter_map, jumps_eq]
      rfl

theorem unnumbered_foldlM_define (assembler : Assembler) (names : List (List Char)) :
    (names.foldlM define assembler).map unnumbered = names.foldlM define assembler.unnumbered := by
  induction names generalizing assembler with
  | nil => rfl
  | cons name rest induction =>
      rw [List.foldlM_cons, List.foldlM_cons, ← unnumbered_define]
      cases assembler.define name with
      | error fault => rfl
      | ok next => exact induction next

theorem unnumbered_execute (assembler : Assembler) (line : Nat) (statement : Statement) :
    (assembler.execute line statement).unnumbered = assembler.unnumbered.execute 0 statement := by
  cases statement with
  | constant bytes => rfl
  | plain instruction => rfl
  | pooled operand instruction => cases operand <;> rfl
  | jump target instruction =>
      cases target with
      | offset value => rfl
      | label name =>
          have labels_eq : assembler.unnumbered.labels = assembler.labels := rfl
          rw [execute, execute, labels_eq]
          cases assembler.labels.lookup name with
          | some value => rfl
          | none =>
              simp only [unnumbered, map_unnumber_await]

/-! ## Lines as tokens -/

/-- Assembles the tokens of a line without a number. -/
def assembleTokens (assembler : Assembler) (tokens : List Token) :
    Except AssemblyFault Assembler := do
  let assembler ← (Statement.splitLabels tokens).1.foldlM define assembler
  match ← Statement.ofTokens (Statement.splitLabels tokens).2 with
  | some statement => return assembler.execute 0 statement
  | none => return assembler

theorem unnumbered_assembleLine {text : List Char} {tokens : List Token} (assembler : Assembler)
    (line : Nat) (read : Token.readLine text = .ok tokens) :
    (assembler.assembleLine line text).map unnumbered =
      assembler.unnumbered.assembleTokens tokens := by
  rw [assembleLine, assembleTokens, read, ← unnumbered_foldlM_define]
  simp only [bind, Except.bind]
  cases (Statement.splitLabels tokens).1.foldlM define assembler with
  | error fault => rfl
  | ok defined =>
      cases Statement.ofTokens (Statement.splitLabels tokens).2 with
      | error fault => rfl
      | ok spelled =>
          cases spelled with
          | none => rfl
          | some statement => exact congrArg Except.ok (unnumbered_execute defined line statement)

/-- A blank line does nothing. -/
theorem assembleTokens_nil (assembler : Assembler) :
    assembler.assembleTokens [] = .ok assembler := by
  simp [assembleTokens, Statement.splitLabels, Statement.ofTokens, bind, Except.bind, pure,
    Except.pure]

/-- Lines can be assembled when each can be read and what they hold can be. -/
theorem assembleLines_eq_ok_iff (assembler : Assembler) (line : Nat) (texts : List (List Char))
    {result : Assembler} :
    (∃ final, assembler.assembleLines line texts = .ok final ∧ final.unnumbered = result) ↔
      (∀ text ∈ texts, ∃ tokens, Token.readLine text = .ok tokens) ∧
        (tokenLines texts).foldlM assembleTokens assembler.unnumbered = .ok result := by
  induction texts generalizing assembler line with
  | nil => simp [assembleLines, tokenLines, pure, Except.pure]
  | cons text rest induction =>
      rw [List.forall_mem_cons]
      cases read : Token.readLine text with
      | error fault => simp [assembleLines, assembleLine, read, bind, Except.bind]
      | ok tokens =>
          have folded : (tokenLines (text :: rest)).foldlM assembleTokens assembler.unnumbered =
              assembler.unnumbered.assembleTokens tokens >>=
                (tokenLines rest).foldlM assembleTokens := by
            by_cases empty : tokens = []
            · rw [empty, assembleTokens_nil]
              simp [tokenLines, read, empty, Except.toOption, bind, Except.bind]
            · simp [tokenLines, read, empty, Except.toOption]
          rw [folded, ← unnumbered_assembleLine assembler line read, assembleLines]
          cases assembler.assembleLine line text with
          | error fault => simp [Except.map, bind, Except.bind]
          | ok next =>
              have known : ∃ found, Except.ok (ε := AssemblyFault) tokens = .ok found :=
                ⟨tokens, rfl⟩
              rw [and_iff_right known]
              exact induction next (line + 1)

theorem finish_unnumbered_eq_ok_iff {assembler : Assembler} {program : Program} :
    assembler.unnumbered.finish = .ok program ↔ assembler.finish = .ok program := by
  cases waiting : assembler.waiting with
  | nil => simp [finish, unnumbered, waiting]
  | cons entry rest => simp [finish, unnumbered, waiting]

end Assembler

/-- A text assembles to what its lines of tokens assemble to. -/
theorem assemble_eq_ok_iff {source : String} {program : Program} :
    assemble source = .ok program ↔
      (∀ text ∈ Text.lines source.toList, ∃ tokens, Token.readLine text = .ok tokens) ∧
        ∃ result, (tokenLines (Text.lines source.toList)).foldlM Assembler.assembleTokens {} =
          .ok result ∧ result.finish = .ok program := by
  have numbered := @Assembler.assembleLines_eq_ok_iff {} 1 (Text.lines source.toList)
  rw [assemble, bind_eq_ok_iff]
  constructor
  · rintro ⟨final, ran, finished⟩
    obtain ⟨lexed, folded⟩ := numbered.mp ⟨final, ran, rfl⟩
    exact ⟨lexed, final.unnumbered, folded, Assembler.finish_unnumbered_eq_ok_iff.mpr finished⟩
  · rintro ⟨lexed, result, folded, finished⟩
    obtain ⟨final, ran, rfl⟩ := numbered.mpr ⟨lexed, folded⟩
    exact ⟨final, ran, Assembler.finish_unnumbered_eq_ok_iff.mp finished⟩

namespace Disassembly

/-! ## Normal forms -/

/-- A line in normal form is the line itself, or that of the number it pushes. -/
theorem canonicalTokens_cases (program : Program) (tokens : List Token) :
    canonicalTokens tokens = tokens ∨
      ∃ instruction, canonicalTokens tokens = instructionTokens program instruction ∧
        Statement.splitLabels tokens = ([], tokens) ∧
        Statement.ofTokens tokens = .ok (some (statement program instruction)) := by
  fun_cases canonicalTokens tokens with
  | case2 => exact .inl rfl
  | case1 head operand =>
      fun_cases canonicalOperand head operand with
      | case1 head_eq value read =>
          rw [head_eq]
          apply Or.inr
          have taken : Statement.ofOperands .pushInt [.word operand] =
              .ok (statement program (.pushInt value), []) := by
            simp only [Statement.ofOperands, Statement.takeWord, read, Statement.required, bind,
              Except.bind]
            rfl
          exact ⟨.pushInt value, rfl, splitLabels_mnemonic _ _, ofTokens_mnemonic taken⟩
      | case3 _ head_eq value read =>
          rw [head_eq]
          apply Or.inr
          have taken : Statement.ofOperands .pushFloat [.word operand] =
              .ok (statement program (.pushFloat value), []) := by
            simp only [Statement.ofOperands, Statement.takeWord, read, Statement.required, bind,
              Except.bind]
            rfl
          exact ⟨.pushFloat value, rfl, splitLabels_mnemonic _ _, ofTokens_mnemonic taken⟩
      | case2 => exact .inl rfl
      | case4 => exact .inl rfl
      | case5 => exact .inl rfl

/-- A line in normal form has the effect of the line. -/
theorem assembleTokens_canonicalTokens (assembler : Assembler) (tokens : List Token) :
    assembler.assembleTokens (canonicalTokens tokens) = assembler.assembleTokens tokens := by
  rcases canonicalTokens_cases ⟨[], []⟩ tokens with same |
    ⟨instruction, canonical, unlabelled, spelled⟩
  · rw [same]
  · rw [canonical, Assembler.assembleTokens, Assembler.assembleTokens,
      splitLabels_instructionTokens, unlabelled, ofTokens_instructionTokens, spelled]

/-- Readable lines are read back. -/
theorem tokenLines_map_renderLine {lines : List (List Token)}
    (readable : ∀ tokens ∈ lines, ∀ token ∈ tokens, token.Readable)
    (nonempty : ∀ tokens ∈ lines, tokens ≠ []) :
    tokenLines (lines.map Token.renderLine) = lines := by
  have read_back :
      (lines.map Token.renderLine).filterMap (fun text => (Token.readLine text).toOption) =
      lines := by
    have read_line (tokens : List Token) (line : tokens ∈ lines) :
        (Token.readLine (Token.renderLine tokens)).toOption = some tokens := by
      rw [Token.readLine_renderLine (readable tokens line)]
      rfl
    rw [List.filterMap_map]
    exact (List.filterMap_congr read_line).trans List.filterMap_some
  rw [tokenLines, read_back, List.filter_eq_self]
  intro tokens line
  simpa using nonempty tokens line

/-- The lines of a normal form hold the tokens of the lines of the text, in normal form. -/
theorem lines_normalize {source : String}
    (lexed : ∀ text ∈ Text.lines source.toList, ∃ tokens, Token.readLine text = .ok tokens) :
    (∀ text ∈ Text.lines (normalize source).toList, ∃ tokens, Token.readLine text = .ok tokens) ∧
      tokenLines (Text.lines (normalize source).toList) =
        (tokenLines (Text.lines source.toList)).map canonicalTokens := by
  have readable := readable_of_mem_map_canonicalTokens (Text.lines source.toList)
  have lines_eq : Text.lines (normalize source).toList =
      ((tokenLines (Text.lines source.toList)).map canonicalTokens).map Token.renderLine := by
    rw [normalize, String.toList_ofList, filter_normalizeLine lexed]
    exact lines_flatMap_terminate readable
  rw [lines_eq]
  constructor
  · intro text member
    obtain ⟨tokens, line, rfl⟩ := List.mem_map.mp member
    exact ⟨tokens, Token.readLine_renderLine (readable tokens line)⟩
  · apply tokenLines_map_renderLine readable
    intro tokens line
    obtain ⟨read, member, rfl⟩ := List.mem_map.mp line
    have held : read ≠ [] := by simpa using (List.mem_filter.mp member).2
    exact canonicalTokens_ne_nil held

end Disassembly

/-- A text and its normal form assemble to one program. -/
theorem assemble_normalize {source : String} {program : Program}
    (assembled : assemble source = .ok program) : assemble (normalize source) = .ok program := by
  obtain ⟨lexed, result, folded, finished⟩ := assemble_eq_ok_iff.mp assembled
  obtain ⟨read_again, lines_eq⟩ := lines_normalize lexed
  apply assemble_eq_ok_iff.mpr
  have folded_again : (tokenLines (Text.lines (normalize source).toList)).foldlM
      Assembler.assembleTokens {} = .ok result := by
    rw [lines_eq, List.foldlM_map]
    simpa only [assembleTokens_canonicalTokens] using folded
  exact ⟨read_again, result, folded_again, finished⟩

/-- A text with two labels on a line, jumps both ways, a pool entry, a pool index, comments, a blank
line, neighbours without a space and odd spellings. -/
def oddText : String :=
  ".str \"\\x41\";a\n\n a: b: pop\r\njmp_if_false e;\npush_float 1e3\n" ++
    "call_native \"f\"01\njmp a\ne: push_str #0"

theorem assemble_normalize_oddText :
    ∃ program, assemble oddText = .ok program ∧
      normalize oddText = ".str \"A\"\na: b: pop\njmp_if_false e\npush_float 1000.0\n" ++
        "call_native \"f\" 01\njmp a\ne: push_str #0\n" ∧
      assemble (normalize oddText) = .ok program := by
  have assembled : assemble oddText = .ok ⟨[[65], [102]],
      [49, 97, 26, 0, 0, 0, 2, 0, 0, 0, 0, 0, 64, 143, 64, 80, 1, 0, 0, 0, 1, 96, 0, 0, 0, 0, 3, 0,
        0, 0, 0]⟩ := by
    decide +kernel
  have respelled : normalize oddText =
      ".str \"A\"\na: b: pop\njmp_if_false e\npush_float 1000.0\n" ++
        "call_native \"f\" 01\njmp a\ne: push_str #0\n" := by
    decide +kernel
  exact ⟨_, assembled, respelled, assemble_normalize assembled⟩

end StackMachine
