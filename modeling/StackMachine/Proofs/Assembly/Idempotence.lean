import StackMachine.Proofs.Assembly.Document
import Mathlib.Data.List.DropRight

/-!
# Normal forms of normal forms

A line that can be read is brought into a form that is its own normal form, and any other line is
trimmed.  Trimming goes by a wider class of blanks than reading does, so that a trimmed line may be
one that can be read, and then its normal form may differ from it.  Texts without such lines have
normal forms that are their own, and so has the normal form of any normal form.
-/

namespace StackMachine

namespace Text

/-! ## Lines -/

theorem not_mem_of_mem_linesFrom {current text line : List Char} (inside : '\n' ∉ current)
    (member : line ∈ linesFrom current text) : '\n' ∉ line := by
  fun_induction linesFrom current text with
  | case1 => cases member
  | case2 current _ =>
      rw [List.mem_singleton.mp member, List.mem_reverse]
      exact inside
  | case3 current rest induction =>
      rcases List.mem_cons.mp member with rfl | later
      · exact fun found => inside (mem_dropReturn (List.mem_reverse.mp found))
      · exact induction (by simp) later
  | case4 current c rest other induction =>
      refine induction ?_ member
      simp only [List.mem_cons, not_or]
      exact ⟨fun equal => other equal.symm, inside⟩

theorem not_mem_of_mem_lines {text line : List Char} (member : line ∈ lines text) : '\n' ∉ line :=
  not_mem_of_mem_linesFrom (by simp) member

/-! ## Trimming -/

variable {blank : Char → Bool} {text : List Char}

theorem trimBy_eq_rdropWhile (blank : Char → Bool) (text : List Char) :
    trimBy blank text = (text.dropWhile blank).rdropWhile blank :=
  rfl

theorem mem_of_mem_trimBy {c : Char} (member : c ∈ trimBy blank text) : c ∈ text :=
  List.dropWhile_subset blank ((List.rdropWhile_prefix blank _).subset member)

/-- A trimmed text does not end with a blank. -/
theorem getLast?_trimBy_ne {c : Char} (ends : blank c = true) :
    (trimBy blank text).getLast? ≠ some c := by
  intro last
  have stopped := List.head?_dropWhile_not blank (text.dropWhile blank).reverse
  rw [trimBy, List.getLast?_reverse] at last
  rw [last] at stopped
  exact absurd ends (by simpa using stopped)

theorem dropWhile_trimBy : (trimBy blank text).dropWhile blank = trimBy blank text := by
  rw [trimBy_eq_rdropWhile, List.dropWhile_eq_self_iff]
  intro nonempty
  have front := List.rdropWhile_prefix blank (text.dropWhile blank)
  rw [front.getElem nonempty]
  exact List.dropWhile_eq_self_iff.mp (List.dropWhile_idempotent blank text)
    (Nat.lt_of_lt_of_le nonempty front.length_le)

/-- Trimming a trimmed text changes nothing. -/
theorem trimBy_trimBy : trimBy blank (trimBy blank text) = trimBy blank text := by
  rw [trimBy_eq_rdropWhile, dropWhile_trimBy, trimBy_eq_rdropWhile, List.rdropWhile_idempotent]

theorem isLine_trimBy (inside : '\n' ∉ text) : IsLine (trimBy isWhiteSpace text) :=
  ⟨fun member => inside (mem_of_mem_trimBy member), getLast?_trimBy_ne (by decide)⟩

end Text

namespace Token

open Text (isAsciiBlank)

/-! ## Blanks at the end of a line -/

theorem readQuoted_append {text rest : List Char} {bytes : List UInt8}
    (read : readQuoted text = .ok (bytes, rest)) (more : List Char) :
    readQuoted (text ++ more) = .ok (bytes, rest ++ more) := by
  fun_induction readQuoted text generalizing bytes with
  | case1 => cases read
  | case2 tail =>
      cases read
      rfl
  | case3 => cases read
  | case4 high low tail value hex induction =>
      obtain ⟨inner, found, rfl⟩ := exists_of_prepend_eq_ok read
      simp only [List.cons_append, readQuoted, hex, induction found, prepend_ok]
  | case5 => cases read
  | case6 c tail other byte known induction =>
      obtain ⟨inner, found, rfl⟩ := exists_of_prepend_eq_ok read
      have plain : c ≠ 'x' := by
        rintro rfl
        cases known
      rw [List.cons_append, List.cons_append, readQuoted, known]
      · simp only [induction found, prepend_ok]
      · exact fun _ _ _ hex => absurd hex plain
  | case7 => cases read
  | case8 c tail unmarked alone _ paired induction =>
      obtain ⟨inner, found, rfl⟩ := exists_of_prepend_eq_ok read
      have unescaped : c ≠ '\\' := by
        intro escape
        cases tail with
        | nil => exact alone escape rfl
        | cons d others => exact paired d others escape rfl
      rw [List.cons_append, readQuoted, induction found, prepend_ok]
      · exact unmarked
      · exact fun escape => absurd escape unescaped
      · exact fun _ _ _ escape => absurd escape unescaped
      · exact fun _ _ escape => absurd escape unescaped

theorem endsWord_dropWhile_append (text : List Char) {blanks : List Char}
    (blank : ∀ c ∈ blanks, isAsciiBlank c = true) :
    EndsWord (text.dropWhile continuesWord ++ blanks) := by
  intro c head
  have stopped := List.head?_dropWhile_not continuesWord text
  cases dropped : text.dropWhile continuesWord with
  | nil =>
      rw [dropped, List.nil_append] at head
      simp [continuesWord, blank c (List.mem_of_head? head)]
  | cons d others =>
      rw [dropped] at head stopped
      cases head
      simpa using stopped

/-- A line that can be read stays what it is when blanks follow it. -/
theorem readLine_append_blanks {text blanks : List Char} {tokens : List Token}
    (read : readLine text = .ok tokens) (blank : ∀ c ∈ blanks, isAsciiBlank c = true) :
    readLine (text ++ blanks) = .ok tokens := by
  fun_induction readLine text generalizing tokens with
  | case1 =>
      cases read
      have nothing := readLine_blank_append blank []
      rw [List.append_nil, readLine] at nothing
      exact nothing
  | case2 c rest solid induction =>
      rw [List.cons_append, readLine, if_pos solid, induction read]
  | case3 rest solid =>
      cases read
      rw [List.cons_append, readLine, if_neg solid, if_pos rfl]
  | case4 => cases read
  | case5 rest bytes tail found solid uncommented induction =>
      obtain ⟨later, lexed, rfl⟩ := map_eq_ok_iff.mp read
      have closed := readQuoted_append found blanks
      rw [List.cons_append, readLine, if_neg solid, if_neg uncommented, if_pos rfl]
      split
      · rename_i fault refused
        cases closed.symm.trans refused
      · rename_i bytes' tail' accepted
        cases closed.symm.trans accepted
        rw [induction lexed]
        rfl
  | case6 => cases read
  | case7 c rest solid uncommented unquoted token spelled induction =>
      obtain ⟨later, lexed, rfl⟩ := map_eq_ok_iff.mp read
      have inside : ∀ d ∈ rest.takeWhile continuesWord, continuesWord d = true :=
        List.all_eq_true.mp List.all_takeWhile
      have ended := endsWord_dropWhile_append rest blank
      have split_eq : rest ++ blanks = rest.takeWhile continuesWord ++
          (rest.dropWhile continuesWord ++ blanks) := by
        rw [← List.append_assoc, List.takeWhile_append_dropWhile]
      rw [List.cons_append, readLine, if_neg solid, if_neg uncommented, if_neg unquoted, split_eq,
        takeWhile_continuesWord_append inside ended, dropWhile_continuesWord_append inside ended,
        spelled]
      simp only [induction lexed]
      rfl

/-- A line that cannot be read can still not be read without the blanks at its ends. -/
theorem readLine_trimBy_ne_ok {text : List Char} {fault : AssemblyFault}
    (refused : readLine text = .error fault) (tokens : List Token) :
    readLine (Text.trimBy isAsciiBlank text) ≠ .ok tokens := by
  intro read
  have blank : ∀ c ∈ (text.dropWhile isAsciiBlank).rtakeWhile isAsciiBlank, isAsciiBlank c = true :=
    fun c member => List.mem_rtakeWhile_imp member
  have whole := readLine_append_blanks read blank
  rw [Text.trimBy_eq_rdropWhile, List.rdropWhile_append_rtakeWhile, readLine_dropWhile_blank,
    refused] at whole
  cases whole

end Token

namespace Disassembly

/-! ## Normal lines -/

theorem canonicalOperand_canonicalOperand (head operand : List Char) :
    canonicalOperand head (canonicalOperand head operand) = canonicalOperand head operand := by
  fun_cases canonicalOperand head operand with
  | case1 pushes value read =>
      rw [canonicalOperand, if_pos pushes, Numeral.int64?_integer]
  | case2 pushes unread => rw [canonicalOperand, if_pos pushes, unread]
  | case3 other pushes value read =>
      rw [canonicalOperand, if_neg other, if_pos pushes, Binary64.ofOperand?_operandText]
  | case4 other pushes unread => rw [canonicalOperand, if_neg other, if_pos pushes, unread]
  | case5 other others => rw [canonicalOperand, if_neg other, if_neg others]

theorem canonicalTokens_canonicalTokens (tokens : List Token) :
    canonicalTokens (canonicalTokens tokens) = canonicalTokens tokens := by
  by_cases pair : ∃ head operand, tokens = [.word head, .word operand]
  · obtain ⟨head, operand, rfl⟩ := pair
    rw [canonicalTokens, canonicalTokens, canonicalOperand_canonicalOperand]
  · have kept : canonicalTokens tokens = tokens :=
      canonicalTokens.eq_2 _ fun head operand same => pair ⟨head, operand, same⟩
    rw [kept, kept]

/-- The normal form of a line that can be read is its own normal form. -/
theorem normalizeLine_renderLine {line : List Char} {tokens : List Token}
    (read : Token.readLine line = .ok tokens) :
    normalizeLine (Token.renderLine (canonicalTokens tokens)) =
      Token.renderLine (canonicalTokens tokens) := by
  have readable := readable_canonicalTokens (Token.readable_of_readLine read)
  rw [normalizeLine, Token.readLine_renderLine readable]
  exact congrArg Token.renderLine (canonicalTokens_canonicalTokens tokens)

/-- A line settles when it can be read, or when what trimming leaves of it can still not be read or
is already spelled as the normal form of its tokens. -/
def Settles (line : List Char) : Prop :=
  ∀ fault, Token.readLine line = .error fault →
    ∀ tokens, Token.readLine (Text.trimBy Text.isWhiteSpace line) = .ok tokens →
      Token.renderLine (canonicalTokens tokens) = Text.trimBy Text.isWhiteSpace line

/-- The lines that settle are those whose normal form is its own. -/
theorem normalizeLine_normalizeLine_eq_iff (line : List Char) :
    normalizeLine (normalizeLine line) = normalizeLine line ↔ Settles line := by
  cases read : Token.readLine line with
  | ok tokens =>
      have rendered : normalizeLine line = Token.renderLine (canonicalTokens tokens) := by
        rw [normalizeLine, read]
      simp [rendered, normalizeLine_renderLine read, Settles, read]
  | error fault =>
      have trimmed : normalizeLine line = Text.trimBy Text.isWhiteSpace line := by
        rw [normalizeLine, read]
      rw [trimmed, normalizeLine]
      cases again : Token.readLine (Text.trimBy Text.isWhiteSpace line) with
      | error fault => simp [Text.trimBy_trimBy, Settles, again]
      | ok tokens => simp [Settles, read, again]

/-- A normal form that cannot be read has been trimmed already. -/
theorem settles_normalizeLine (line : List Char) : Settles (normalizeLine line) := by
  intro fault refused tokens read
  cases first : Token.readLine line with
  | ok tokens =>
      have readable := readable_canonicalTokens (Token.readable_of_readLine first)
      rw [normalizeLine, first, Token.readLine_renderLine readable] at refused
      cases refused
  | error fault =>
      rw [normalizeLine, first] at refused read
      rw [Text.trimBy_trimBy, refused] at read
      cases read

theorem settles_of_trimBy_eq {line : List Char}
    (plain : ∀ fault, Token.readLine line = .error fault →
      Text.trimBy Text.isWhiteSpace line = Text.trimBy Text.isAsciiBlank line) :
    Settles line := by
  intro fault refused tokens read
  rw [plain fault refused] at read
  exact absurd read (Token.readLine_trimBy_ne_ok refused tokens)

theorem isLine_normalizeLine {line : List Char} (inside : '\n' ∉ line) :
    Text.IsLine (normalizeLine line) := by
  cases read : Token.readLine line with
  | error fault =>
      rw [normalizeLine, read]
      exact Text.isLine_trimBy inside
  | ok tokens =>
      have readable := readable_canonicalTokens (Token.readable_of_readLine read)
      rw [normalizeLine, read]
      refine ⟨fun member => ?_, fun last => ?_⟩
      · exact (Token.staysInLine_of_mem_renderLine readable member).1 rfl
      · exact (Token.staysInLine_of_mem_renderLine readable (List.mem_of_getLast? last)).2 rfl

/-! ## Normal texts -/

/-- The lines of the normal form of a text. -/
def normalLines (source : String) : List (List Char) :=
  ((Text.lines source.toList).map normalizeLine).filter fun line => !line.isEmpty

theorem lines_normalize_eq (source : String) :
    Text.lines (normalize source).toList = normalLines source := by
  rw [normalize, String.toList_ofList]
  refine Text.lines_flatMap_newline_of_isLine fun line member => ?_
  obtain ⟨original, found, rfl⟩ := List.mem_map.mp (List.mem_filter.mp member).1
  exact isLine_normalizeLine (Text.not_mem_of_mem_lines found)

theorem normalize_eq_iff {first second : String} :
    normalize first = normalize second ↔ normalLines first = normalLines second := by
  constructor
  · intro same
    rw [← lines_normalize_eq, same, lines_normalize_eq]
  · intro same
    exact congrArg (fun lines => String.ofList (lines.flatMap terminate)) same

/-- A normal form is its own exactly when each of its lines is. -/
theorem normalize_normalize_eq_iff_lines (source : String) :
    normalize (normalize source) = normalize source ↔
      ∀ line ∈ normalLines source, normalizeLine line = line := by
  have nonempty : ∀ line ∈ normalLines source, (!line.isEmpty) = true :=
    fun line member => (List.mem_filter.mp member).2
  rw [normalize_eq_iff, normalLines, lines_normalize_eq]
  constructor
  · intro same
    have size : ((normalLines source).map normalizeLine).length = (normalLines source).length :=
      List.length_map normalizeLine
    have complete := (congrArg List.length same).trans size.symm
    rw [List.length_filter_eq_length_iff] at complete
    rw [List.filter_eq_self.mpr complete] at same
    exact List.map_inj_left.mp (same.trans (List.map_id _).symm)
  · intro fixed
    rw [List.map_congr_left fixed, List.map_id', List.filter_eq_self]
    exact nonempty

theorem normalize_normalize_eq_iff_settles (source : String) :
    normalize (normalize source) = normalize source ↔
      ∀ line ∈ Text.lines source.toList, Settles line := by
  rw [normalize_normalize_eq_iff_lines]
  constructor
  · intro fixed line member
    rw [← normalizeLine_normalizeLine_eq_iff]
    by_cases empty : normalizeLine line = []
    -- An empty line is dropped from the normal form, but it is its own normal form as well.
    · rw [empty, normalizeLine, Token.readLine]
      rfl
    · refine fixed _ (List.mem_filter.mpr ⟨List.mem_map_of_mem member, ?_⟩)
      simpa using empty
  · intro settled line member
    obtain ⟨original, found, rfl⟩ := List.mem_map.mp (List.mem_filter.mp member).1
    exact (normalizeLine_normalizeLine_eq_iff original).mpr (settled original found)

end Disassembly

open Disassembly

/-- Bringing a text into normal form twice is the same as doing it once exactly when all its lines
settle: as they do when no line that cannot be read ends in white space that is no blank, and as
they always do when the text is a normal form itself. -/
theorem normalize_normalize_eq_iff (source : String) :
    (normalize (normalize source) = normalize source ↔
      ∀ line ∈ Text.lines source.toList, Settles line) ∧
    ((∀ line ∈ Text.lines source.toList, ∀ fault, Token.readLine line = .error fault →
        Text.trimBy Text.isWhiteSpace line = Text.trimBy Text.isAsciiBlank line) →
      normalize (normalize source) = normalize source) ∧
    normalize (normalize (normalize source)) = normalize (normalize source) := by
  refine ⟨normalize_normalize_eq_iff_settles source, fun plain => ?_, ?_⟩
  · rw [normalize_normalize_eq_iff_settles]
    exact fun line member => settles_of_trimBy_eq (plain line member)
  · rw [normalize_normalize_eq_iff_settles, lines_normalize_eq]
    intro line member
    obtain ⟨original, _, rfl⟩ := List.mem_map.mp (List.mem_filter.mp member).1
    exact settles_normalizeLine original

/-- A line with an unknown escape is kept without the blanks around it. -/
theorem normalize_normalize_of_unknown_escape :
    normalize " push_str \"\\q\" \npush_int +5" = "push_str \"\\q\"\npush_int 5\n" ∧
      normalize (normalize " push_str \"\\q\" \npush_int +5") =
        normalize " push_str \"\\q\" \npush_int +5" := by
  have plain : ∀ line ∈ Text.lines " push_str \"\\q\" \npush_int +5".toList,
      Text.trimBy Text.isWhiteSpace line = Text.trimBy Text.isAsciiBlank line := by
    decide +kernel
  exact ⟨by decide +kernel,
    (normalize_normalize_eq_iff _).2.1 fun line member _ _ => plain line member⟩

/-- A vertical tab is trimmed but is no blank: without it the reference is one that can be read, and
that has a shorter spelling. -/
theorem normalize_normalize_ne_of_vertical_tab :
    normalize (normalize "#+1\x0b") ≠ normalize "#+1\x0b" := by
  decide +kernel

end StackMachine
