import StackMachine.Proofs.Assembly.Normalization
import Mathlib.Logic.Function.Iterate

/-!
# Lines without their labels

A line reads as the labels it defines and the statement after them. `SourceLine.unlabel` edits the
text of a line: it deletes the labels and writes a number in place of a label that a jump names. The
line then reads as the same statement with that number.
-/

namespace StackMachine

namespace Text

/-! ## Editing lines -/

/-- The end of a line held backwards. -/
def lineEnd : List Char → List Char
  | '\r' :: _ => ['\r', '\n']
  | _ => ['\n']

/-- Edits the lines of a text that continues a line whose characters are held backwards. -/
def editLinesFrom (edit : List Char → List Char) : (current : List Char) → List Char → List Char
  | current, [] => edit current.reverse
  | current, c :: rest =>
    if c = '\n' then
      edit (dropReturn current).reverse ++ (lineEnd current ++ editLinesFrom edit [] rest)
    else editLinesFrom edit (c :: current) rest

/-- The text with its lines edited and their ends kept. -/
def editLines (edit : List Char → List Char) (text : List Char) : List Char :=
  editLinesFrom edit [] text

/-- Edits that keep lines apart. -/
structure Inline (edit : List Char → List Char) : Prop where
  nil : edit [] = []
  stays : ∀ text c, c ∈ edit text → c = '\n' → '\n' ∈ text
  ends : ∀ text, (edit text).getLast? = some '\r' → text.getLast? = some '\r'

theorem mem_dropReturn {c : Char} {current : List Char} (member : c ∈ dropReturn current) :
    c ∈ current := by
  unfold dropReturn at member
  split at member
  · exact List.mem_cons_of_mem _ member
  · exact member

theorem linesFrom_edited_line {edit : List Char → List Char} (inline : Inline edit)
    {current : List Char} (inside : '\n' ∉ current) (rest : List Char) :
    linesFrom [] (edit (dropReturn current).reverse ++ (lineEnd current ++ rest)) =
      edit (dropReturn current).reverse :: linesFrom [] rest := by
  have stays : ∀ c ∈ edit (dropReturn current).reverse, c ≠ '\n' := by
    rintro c member rfl
    have kept := inline.stays _ _ member rfl
    exact inside (mem_dropReturn (List.mem_reverse.mp kept))
  unfold lineEnd
  split
  · rename_i line
    have stays_return : ∀ c ∈ edit line.reverse ++ ['\r'], c ≠ '\n' := by
      intro c member
      rcases List.mem_append.mp member with edited | last
      · exact stays c edited
      · rw [List.mem_singleton.mp last]
        decide
    have shifted : edit (dropReturn ('\r' :: line)).reverse ++ (['\r', '\n'] ++ rest) =
        (edit line.reverse ++ ['\r']) ++ '\n' :: rest := by
      simp [dropReturn]
    rw [shifted, linesFrom_append_newline [] rest stays_return]
    simp [dropReturn]
  · rename_i not_return
    have kept : dropReturn current = current := by
      unfold dropReturn
      split
      · exact absurd rfl (not_return _)
      · rfl
    rw [kept] at stays ⊢
    have open_ended : (edit current.reverse).getLast? ≠ some '\r' := by
      intro ends
      have before := inline.ends _ ends
      rw [List.getLast?_reverse] at before
      obtain ⟨line, rfl⟩ := List.head?_eq_some_iff.mp before
      exact not_return line rfl
    rw [List.singleton_append, linesFrom_append_newline [] rest stays, List.append_nil,
      dropReturn_reverse open_ended, List.reverse_reverse]

theorem linesFrom_of_stays {line : List Char} (current : List Char) (stays : '\n' ∉ line) :
    linesFrom current line =
      if current = [] ∧ line = [] then [] else [current.reverse ++ line] := by
  induction line generalizing current with
  | nil => cases current <;> simp [linesFrom]
  | cons c line induction =>
      have here : c ≠ '\n' := by
        rintro rfl
        exact stays List.mem_cons_self
      rw [linesFrom, if_neg here, induction _ fun member => stays (List.mem_cons_of_mem c member)]
      simp

/-- Editing a text edits its lines, but for an empty one at the end. -/
theorem lines_editLinesFrom {edit : List Char → List Char} (inline : Inline edit)
    (current text : List Char) (inside : '\n' ∉ current) :
    (linesFrom [] (editLinesFrom edit current text)).filter (· ≠ []) =
      ((linesFrom current text).map edit).filter (· ≠ []) := by
  induction text generalizing current with
  | nil =>
      have stays : '\n' ∉ edit current.reverse := by
        intro member
        exact inside (List.mem_reverse.mp (inline.stays _ _ member rfl))
      rw [editLinesFrom, linesFrom_of_stays [] stays]
      cases current with
      | nil => simp [linesFrom, inline.nil]
      | cons c line =>
          simp only [linesFrom, List.map_cons, List.map_nil]
          split <;> simp_all
  | cons c rest induction =>
      rw [editLinesFrom, linesFrom]
      split
      · rw [linesFrom_edited_line inline inside, List.map_cons, List.filter_cons,
          List.filter_cons, induction [] (by simp)]
      · rename_i other
        apply induction
        simp only [List.mem_cons, not_or]
        exact ⟨fun equal => other equal.symm, inside⟩

theorem lines_editLines {edit : List Char → List Char} (inline : Inline edit) (text : List Char) :
    (lines (editLines edit text)).filter (· ≠ []) = ((lines text).map edit).filter (· ≠ []) :=
  lines_editLinesFrom inline [] text (by simp)

end Text

namespace Token

open Text (isAsciiBlank)

/-! ## Words of a line -/

/-- The text up to the end of its first word. -/
def throughWord (text : List Char) : List Char :=
  text.takeWhile isAsciiBlank ++ (text.dropWhile isAsciiBlank).takeWhile continuesWord

/-- The text after its first word. -/
def afterWord (text : List Char) : List Char :=
  (text.dropWhile isAsciiBlank).dropWhile continuesWord

/-- The text with another first word. -/
def replaceWord (word text : List Char) : List Char :=
  text.takeWhile isAsciiBlank ++ word ++ afterWord text

/-- The text with another second word. -/
def replaceOperand (word text : List Char) : List Char :=
  throughWord text ++ replaceWord word (afterWord text)

theorem readLine_blank_append {blanks : List Char} (blank : ∀ c ∈ blanks, isAsciiBlank c = true)
    (rest : List Char) : readLine (blanks ++ rest) = readLine rest := by
  induction blanks with
  | nil => rfl
  | cons c blanks induction =>
      rw [List.cons_append, readLine, if_pos (blank c List.mem_cons_self),
        induction fun d member => blank d (List.mem_cons_of_mem c member)]

theorem readLine_dropWhile_blank (text : List Char) :
    readLine (text.dropWhile isAsciiBlank) = readLine text := by
  have blank : ∀ c ∈ text.takeWhile isAsciiBlank, isAsciiBlank c = true :=
    List.all_eq_true.mp List.all_takeWhile
  rw [← readLine_blank_append blank, List.takeWhile_append_dropWhile]

theorem endsWord_afterWord (text : List Char) : EndsWord (afterWord text) := by
  intro c head
  have stopped := List.head?_dropWhile_not continuesWord (text.dropWhile isAsciiBlank)
  rw [afterWord, Option.mem_def] at head
  rw [head] at stopped
  simpa using stopped

/-- The first word of a line, and what the rest reads as. -/
theorem readLine_afterWord {text word : List Char} {tokens : List Token}
    (read : readLine text = .ok (.word word :: tokens)) :
    (text.dropWhile isAsciiBlank).takeWhile continuesWord = word ∧
      readLine (afterWord text) = .ok tokens := by
  rw [← readLine_dropWhile_blank] at read
  have first := List.head?_dropWhile_not isAsciiBlank text
  unfold afterWord
  cases body : text.dropWhile isAsciiBlank with
  | nil => simp [body, readLine] at read
  | cons c rest =>
      rw [body] at read first
      have solid : isAsciiBlank c = false := by simpa using first
      rw [readLine, if_neg (by simp [solid])] at read
      split at read
      · cases read
      rename_i uncommented
      have continued : continuesWord c = true := by simp [continuesWord, solid, uncommented]
      split at read
      · split at read
        · cases read
        · obtain ⟨later, _, found⟩ := map_eq_ok_iff.mp read
          cases found
      · rw [List.takeWhile_cons_of_pos continued, List.dropWhile_cons_of_pos continued]
        split at read
        · cases read
        · rename_i token spelled
          obtain ⟨later, lexed, found⟩ := map_eq_ok_iff.mp read
          cases found
          refine ⟨?_, lexed⟩
          unfold ofWord at spelled
          split at spelled
          · split at spelled <;> cases spelled
          · cases spelled
            rfl

theorem readLine_throughWord_append {text word rest : List Char} {tokens : List Token}
    (read : readLine text = .ok (.word word :: tokens)) (ended : EndsWord rest) :
    readLine (throughWord text ++ rest) = (readLine rest).map (.word word :: ·) := by
  have readable := readable_of_readLine read _ List.mem_cons_self
  have blank : ∀ c ∈ text.takeWhile isAsciiBlank, isAsciiBlank c = true :=
    List.all_eq_true.mp List.all_takeWhile
  rw [throughWord, (readLine_afterWord read).1, List.append_assoc, readLine_blank_append blank]
  exact readLine_render_append readable ended

theorem readLine_replaceWord {text word new : List Char} {tokens : List Token}
    (read : readLine text = .ok (.word word :: tokens)) (readable : (Token.word new).Readable) :
    readLine (replaceWord new text) = .ok (.word new :: tokens) := by
  have blank : ∀ c ∈ text.takeWhile isAsciiBlank, isAsciiBlank c = true :=
    List.all_eq_true.mp List.all_takeWhile
  rw [replaceWord, List.append_assoc, readLine_blank_append blank]
  refine (readLine_render_append readable (endsWord_afterWord text)).trans ?_
  rw [(readLine_afterWord read).2]
  rfl

/-- Only blanks stand between two words. -/
theorem endsWord_replaceWord {text word : List Char} {tokens : List Token}
    (read : readLine text = .ok (.word word :: tokens)) (ended : EndsWord text) (new : List Char) :
    EndsWord (replaceWord new text) := by
  cases text with
  | nil => simp [readLine] at read
  | cons c rest =>
      have solid := ended c rfl
      have blank : isAsciiBlank c = true := by
        by_contra other
        have comment : c = ';' := by
          simp only [continuesWord, Bool.not_eq_true] at solid other
          simpa [other] using solid
        rw [readLine, if_neg other, if_pos comment] at read
        cases read
      rw [replaceWord, List.takeWhile_cons_of_pos blank]
      rintro d ⟨⟩
      exact solid

theorem readLine_replaceOperand {text head word new : List Char} {tokens : List Token}
    (read : readLine text = .ok (.word head :: .word word :: tokens))
    (readable : (Token.word new).Readable) :
    readLine (replaceOperand new text) = .ok (.word head :: .word new :: tokens) := by
  have rest := (readLine_afterWord read).2
  rw [replaceOperand, readLine_throughWord_append read
    (endsWord_replaceWord rest (endsWord_afterWord text) new), readLine_replaceWord rest readable]
  rfl

/-- Deleting the labels of a line leaves the tokens after them. -/
theorem readLine_iterate_afterWord {text : List Char} {tokens : List Token}
    (read : readLine text = .ok tokens) :
    readLine (afterWord^[(Statement.splitLabels tokens).1.length] text) =
      .ok (Statement.splitLabels tokens).2 := by
  fun_induction Statement.splitLabels tokens generalizing text with
  | case1 word rest label names remaining split_eq induction =>
      have later := induction (readLine_afterWord read).2
      rw [split_eq] at later
      simpa only [List.length_cons, Function.iterate_succ_apply] using later
  | case2 word rest other => exact read
  | case3 tokens other => exact read

end Token

/-! ## Lines -/

/-- What a line holds. -/
structure SourceLine where
  /-- The labels it defines. -/
  labels : List (List Char)
  /-- The statement after them. -/
  statement : Option Statement

/-- The statement with a number in place of a label. -/
def Statement.resolve (offset : List Char → Nat) : Statement → Statement
  | .jump (.label name) make => .jump (.offset (UInt32.ofNat (offset name))) make
  | statement => statement

namespace SourceLine

/-- Reads a line. -/
def read (text : List Char) : Except AssemblyFault SourceLine := do
  let tokens ← Token.readLine text
  let statement ← Statement.ofTokens (Statement.splitLabels tokens).2
  return ⟨(Statement.splitLabels tokens).1, statement⟩

/-- The text of a line without its labels, and with a number in place of a label that it names. -/
def unlabel (offset : List Char → Nat) (text : List Char) : List Char :=
  match read text with
  | .error _ => text
  | .ok line =>
    let body := Token.afterWord^[line.labels.length] text
    match line.statement with
    | some (.jump (.label name) _) =>
      Token.replaceOperand (Numeral.decimal (offset name)) body
    | _ => body

theorem read_eq_ok_iff {text : List Char} {line : SourceLine} :
    read text = .ok line ↔ ∃ tokens, Token.readLine text = .ok tokens ∧
      (Statement.splitLabels tokens).1 = line.labels ∧
      Statement.ofTokens (Statement.splitLabels tokens).2 = .ok line.statement := by
  obtain ⟨labels, statement⟩ := line
  rw [read, bind_eq_ok_iff]
  refine exists_congr fun tokens => and_congr_right fun _ => ?_
  rw [bind_eq_ok_iff]
  constructor
  · rintro ⟨found, spelled, equal⟩
    cases equal
    exact ⟨rfl, spelled⟩
  · rintro ⟨rfl, spelled⟩
    exact ⟨statement, spelled, rfl⟩

theorem read_nil : read [] = .ok ⟨[], none⟩ :=
  read_eq_ok_iff.mpr ⟨[], by simp [Token.readLine], by simp [Statement.splitLabels],
    by simp [Statement.splitLabels, Statement.ofTokens]⟩

end SourceLine

namespace Disassembly

theorem label_of_target {text name : List Char}
    (found : Statement.target text = .ok (.label name)) : text = name := by
  unfold Statement.target at found
  split at found
  · cases found
  · split at found
    · split at found
      · cases found
      · cases found
        rfl
    · cases found
      rfl

/-- The two instructions that take a target. -/
inductive Jumps : Opcode → (UInt32 → Instruction) → Prop
  | jump : Jumps .jump .jump
  | jumpIfFalse : Jumps .jumpIfFalse .jumpIfFalse

theorem Jumps.of_spelling {op : Opcode} {make : UInt32 → Instruction} (jumps : op.isJump = true)
    (named : ∀ value, (make value).opcode = op)
    (written : ∀ program value, operandTokens program (make value) = [numberToken value.toNat]) :
    Jumps op make := by
  have same (value target : UInt32) (spelled : numberToken target.toNat = numberToken value.toNat) :
      target = value := by
    have read_back := Numeral.uint32?_decimal target
    rw [Token.word.inj spelled, Numeral.uint32?_decimal] at read_back
    exact (Option.some.inj read_back).symm
  have made (value : UInt32) :
      op = .jump ∧ make value = .jump value ∨ op = .jumpIfFalse ∧
        make value = .jumpIfFalse value := by
    have spelled := written ⟨[], []⟩ value
    rw [← named value] at jumps ⊢
    cases instruction : make value with
    | jump target =>
        rw [instruction] at spelled
        exact .inl ⟨rfl, congrArg _ (same value target (List.cons.inj spelled).1)⟩
    | jumpIfFalse target =>
        rw [instruction] at spelled
        exact .inr ⟨rfl, congrArg _ (same value target (List.cons.inj spelled).1)⟩
    | _ => simp [instruction, Instruction.opcode, Opcode.isJump] at jumps
  cases op with
  | jump =>
      have make_eq : make = .jump := funext fun value => by simpa using made value
      rw [make_eq]
      exact .jump
  | jumpIfFalse =>
      have make_eq : make = .jumpIfFalse := funext fun value => by simpa using made value
      rw [make_eq]
      exact .jumpIfFalse
  | _ => cases jumps

theorem Spells.jump_cases {tokens : List Token} {target : Target} {make : UInt32 → Instruction}
    (spells : Spells tokens (.jump target make)) :
    ∃ (op : Opcode) (text : List Char), tokens = [.word op.mnemonic.toList, .word text] ∧
      Statement.target text = .ok target ∧ Jumps op make := by
  cases spells with
  | jump jumps named unpooled written read =>
      exact ⟨_, _, rfl, read, .of_spelling jumps named written⟩

theorem Jumps.ofTokens {op : Opcode} {make : UInt32 → Instruction} (jumps : Jumps op make)
    {text : List Char} {target : Target} (read : Statement.target text = .ok target) :
    Statement.ofTokens [.word op.mnemonic.toList, .word text] = .ok (some (.jump target make)) := by
  apply ofTokens_mnemonic
  cases jumps <;>
    · simp only [Statement.ofOperands, Statement.takeWord, read, bind, Except.bind]
      rfl

end Disassembly

namespace SourceLine

open Disassembly

theorem target_decimal {value : Nat} (small : value < UInt32.size) :
    Statement.target (Numeral.decimal value) = .ok (.offset (UInt32.ofNat value)) := by
  have read := Numeral.uint32?_decimal (UInt32.ofNat value)
  rw [UInt32.toNat_ofNat_of_lt' small] at read
  simp only [Statement.target, read]

/-- No label is left after the labels of a line. -/
theorem splitLabels_snd (tokens : List Token) :
    Statement.splitLabels (Statement.splitLabels tokens).2 =
      ([], (Statement.splitLabels tokens).2) := by
  fun_induction Statement.splitLabels tokens with
  | case1 word rest label names remaining split_eq induction =>
      rw [split_eq] at induction
      exact induction
  | case2 word rest other => rw [Statement.splitLabels, if_neg other]
  | case3 tokens other => rw [Statement.splitLabels]; exact other

/-- The edited line reads as its statement with the number. -/
theorem read_unlabel {offset : List Char → Nat} {text : List Char} {line : SourceLine}
    (found : read text = .ok line) (small : ∀ name, offset name < UInt32.size) :
    read (unlabel offset text) = .ok ⟨[], line.statement.map (Statement.resolve offset)⟩ := by
  obtain ⟨tokens, lexed, labels_eq, spelled⟩ := read_eq_ok_iff.mp found
  have body := Token.readLine_iterate_afterWord lexed
  rw [labels_eq] at body
  rw [unlabel, found]
  dsimp only
  split
  · rename_i name make statement_eq
    rw [statement_eq] at spelled ⊢
    obtain ⟨op, word, remaining_eq, named, jumps⟩ := (spells_of_ofTokens spelled).jump_cases
    obtain rfl := label_of_target named
    rw [remaining_eq] at body
    refine read_eq_ok_iff.mpr ⟨_,
      Token.readLine_replaceOperand body (readable_numberToken _), ?_, ?_⟩
    · rw [splitLabels_mnemonic]
    · rw [splitLabels_mnemonic]
      exact jumps.ofTokens (target_decimal (small word))
  · rename_i unnamed
    have kept : line.statement.map (Statement.resolve offset) = line.statement := by
      cases statement_eq : line.statement with
      | none => rfl
      | some statement =>
          refine congrArg some ?_
          unfold Statement.resolve
          split
          · exact absurd statement_eq (unnamed _ _)
          · rfl
    rw [kept]
    refine read_eq_ok_iff.mpr ⟨_, body, ?_, ?_⟩ <;> rw [splitLabels_snd]
    exact spelled

/-! ## Texts -/

theorem getLast?_of_suffix {last : Char} {part text : List Char} (suffix : part <:+ text)
    (ends : part.getLast? = some last) : text.getLast? = some last := by
  obtain ⟨front, rfl⟩ := suffix
  rw [List.getLast?_append, ends]
  rfl

theorem afterWord_suffix (text : List Char) : Token.afterWord text <:+ text :=
  (List.dropWhile_suffix _).trans (List.dropWhile_suffix _)

theorem iterate_afterWord_suffix (count : Nat) (text : List Char) :
    Token.afterWord^[count] text <:+ text := by
  induction count generalizing text with
  | zero => exact List.suffix_rfl
  | succ count induction =>
      rw [Function.iterate_succ_apply]
      exact (induction (Token.afterWord text)).trans (afterWord_suffix text)

theorem mem_replaceOperand {c : Char} {word text : List Char}
    (member : c ∈ Token.replaceOperand word text) : c ∈ text ∨ c ∈ word := by
  have inside {part : List Char} (within : part <:+ text)
      (found : c ∈ part.takeWhile Text.isAsciiBlank) :
      c ∈ text :=
    within.subset ((List.takeWhile_sublist _).subset found)
  simp only [Token.replaceOperand, Token.throughWord, Token.replaceWord, List.mem_append] at member
  rcases member with (blank | letter) | ((blank | new) | rest)
  · exact .inl (inside List.suffix_rfl blank)
  · exact .inl ((List.dropWhile_suffix _).subset ((List.takeWhile_sublist _).subset letter))
  · exact .inl (inside (afterWord_suffix text) blank)
  · exact .inr new
  · exact .inl (((afterWord_suffix _).trans (afterWord_suffix text)).subset rest)

theorem getLast?_replaceOperand {last : Char} {word text : List Char} (nonempty : word ≠ [])
    (ends : (Token.replaceOperand word text).getLast? = some last) :
    text.getLast? = some last ∨ last ∈ word := by
  have suffix := (afterWord_suffix (Token.afterWord text)).trans (afterWord_suffix text)
  simp only [Token.replaceOperand, Token.replaceWord, List.getLast?_append] at ends
  cases rest : (Token.afterWord (Token.afterWord text)).getLast? with
  | some c =>
      rw [rest] at ends
      exact .inl (getLast?_of_suffix suffix (rest.trans ends))
  | none =>
      rw [rest, List.getLast?_eq_some_getLast nonempty] at ends
      cases ends
      exact .inr (List.getLast_mem nonempty)

theorem inline_unlabel (offset : List Char → Nat) : Text.Inline (unlabel offset) where
  nil := by simp [unlabel, read_nil]
  stays text c member feed := by
    subst feed
    unfold unlabel at member
    split at member
    · exact member
    · rename_i line found
      have within := iterate_afterWord_suffix line.labels.length text
      dsimp only at member
      split at member
      · rcases mem_replaceOperand member with kept | digit
        · exact within.subset kept
        · exact absurd (Token.continuesWord_of_mem_decimal digit) (by decide)
      · exact within.subset member
  ends text ends := by
    unfold unlabel at ends
    split at ends
    · exact ends
    · rename_i line found
      have within := iterate_afterWord_suffix line.labels.length text
      dsimp only at ends
      split at ends
      · rcases getLast?_replaceOperand Nat.toDigits_ne_nil ends with kept | digit
        · exact getLast?_of_suffix within kept
        · exact absurd (Token.continuesWord_of_mem_decimal digit) (by decide)
      · exact getLast?_of_suffix within ends

end SourceLine

end StackMachine
