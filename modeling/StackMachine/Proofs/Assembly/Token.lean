import StackMachine.Assembly.Token
import StackMachine.Text.Lines
import StackMachine.Proofs.Numeral
import StackMachine.Proofs.Outcome
import Mathlib.Tactic.SplitIfs

/-!
# Rendered tokens read back

A token is readable when its text stands for it and for nothing else: a word must hold no blank and
no semicolon, and must not start like a string or a pool index.  The central theorem says that
reading inverts rendering on exactly the lists of readable tokens and gives no other lists; strings
need no condition, since every byte has an escape.
-/

namespace StackMachine

namespace Text

/-- Characters that neither end a line nor are dropped with its end. -/
def StaysInLine (c : Char) : Prop :=
  c ≠ '\n' ∧ c ≠ '\r'

instance (c : Char) : Decidable (StaysInLine c) :=
  inferInstanceAs (Decidable (c ≠ '\n' ∧ c ≠ '\r'))

theorem linesFrom_append_newline {line : List Char} (current rest : List Char)
    (inside : ∀ c ∈ line, c ≠ '\n') :
    linesFrom current (line ++ '\n' :: rest) =
      (dropReturn (line.reverse ++ current)).reverse :: linesFrom [] rest := by
  induction line generalizing current with
  | nil => cases current <;> simp [linesFrom]
  | cons c line induction =>
      have tail := induction (c :: current) fun d member => inside d (List.mem_cons_of_mem c member)
      rw [List.cons_append, linesFrom, if_neg (inside c List.mem_cons_self), tail,
        List.reverse_cons, List.append_assoc, List.singleton_append]

theorem dropReturn_reverse {line : List Char} (open_ended : line.getLast? ≠ some '\r') :
    dropReturn line.reverse = line.reverse := by
  unfold dropReturn
  split
  · rename_i rest reversed
    rw [← List.head?_reverse, reversed] at open_ended
    exact absurd rfl open_ended
  · rfl

/-- A text that is one line when a line feed follows it, and keeps all of its characters. -/
def IsLine (text : List Char) : Prop :=
  '\n' ∉ text ∧ text.getLast? ≠ some '\r'

/-- Lines written one after the other are read back. -/
theorem lines_flatMap_newline_of_isLine {texts : List (List Char)}
    (apart : ∀ text ∈ texts, IsLine text) : lines (texts.flatMap (· ++ ['\n'])) = texts := by
  induction texts with
  | nil => rfl
  | cons text rest induction =>
      obtain ⟨inside, open_ended⟩ := apart text List.mem_cons_self
      have stays : ∀ c ∈ text, c ≠ '\n' := by
        rintro c member rfl
        exact inside member
      have tail := induction fun other member => apart other (List.mem_cons_of_mem text member)
      rw [lines] at tail ⊢
      rw [List.flatMap_cons, List.append_assoc, List.singleton_append,
        linesFrom_append_newline [] _ stays, tail, List.append_nil, dropReturn_reverse open_ended,
        List.reverse_reverse]

theorem lines_flatMap_newline {texts : List (List Char)}
    (inside : ∀ text ∈ texts, ∀ c ∈ text, StaysInLine c) :
    lines (texts.flatMap (· ++ ['\n'])) = texts :=
  lines_flatMap_newline_of_isLine fun text member =>
    ⟨fun newline => (inside text member '\n' newline).1 rfl,
      fun ends => (inside text member '\r' (List.mem_of_getLast? ends)).2 rfl⟩

end Text

namespace Token

open Text (StaysInLine)

/-! ## Quoted strings -/

@[simp]
theorem prepend_ok (front bytes : List UInt8) (text : List Char) :
    prepend front (.ok (bytes, text)) = .ok (front ++ bytes, text) :=
  rfl

/-- A printable ASCII character is no part of an escape and is its own encoding. -/
theorem ofNat_printable : ∀ code < 0x7f, code ≠ 0x5c → code ≠ 0x22 →
    Char.ofNat code ≠ '\\' ∧ Char.ofNat code ≠ '"' ∧
      String.utf8EncodeChar (Char.ofNat code) = [UInt8.ofNat code] := by
  decide +kernel

theorem readQuoted_printable {byte : UInt8} (printable : byte ≤ 0x7e) (backslash : byte ≠ 0x5c)
    (mark : byte ≠ 0x22) (rest : List Char) :
    readQuoted (Char.ofNat byte.toNat :: rest) = prepend [byte] (readQuoted rest) := by
  have small : byte.toNat < 0x7f := Nat.lt_succ_of_le (UInt8.le_iff_toNat_le.mp printable)
  obtain ⟨no_escape, no_end, encoding⟩ := ofNat_printable byte.toNat small
    (fun equal => backslash (UInt8.toNat_inj.mp equal))
    (fun equal => mark (UInt8.toNat_inj.mp equal))
  rw [readQuoted, encoding, UInt8.ofNat_toNat]
  · exact no_end
  · exact fun only => absurd only no_escape
  · exact fun _ _ _ starts => absurd starts no_escape
  · exact fun _ _ starts => absurd starts no_escape

theorem exists_paddedHexadecimal_two (byte : UInt8) :
    ∃ high low, Numeral.paddedHexadecimal 2 byte.toNat = [high, low] := by
  have width : ∀ value < 256, (Numeral.paddedHexadecimal 2 value).length = 2 := by decide +kernel
  match digits : Numeral.paddedHexadecimal 2 byte.toNat, width byte.toNat byte.toNat_lt with
  | [high, low], _ => exact ⟨high, low, rfl⟩

/-- Reading takes one escaped byte after the other. -/
theorem readQuoted_escape_append (byte : UInt8) (rest : List Char) :
    readQuoted (escape byte ++ rest) = prepend [byte] (readQuoted rest) := by
  unfold escape
  split_ifs with feed tab carriage null backslash mark printable
  · simp [readQuoted, escaped?, feed]
  · simp [readQuoted, escaped?, tab]
  · simp [readQuoted, escaped?, carriage]
  · simp [readQuoted, escaped?, null]
  · simp [readQuoted, escaped?, backslash]
  · simp [readQuoted, escaped?, mark]
  · exact readQuoted_printable printable.2 backslash mark rest
  · obtain ⟨high, low, digits⟩ := exists_paddedHexadecimal_two byte
    have read := Numeral.unsigned?_paddedHexadecimal 2 byte.toNat_lt
    rw [digits] at read
    simp only [digits, List.cons_append, List.nil_append, readQuoted]
    rw [read]
    simp

theorem readQuoted_flatMap_escape (bytes : List UInt8) (rest : List Char) :
    readQuoted (bytes.flatMap escape ++ '"' :: rest) = .ok (bytes, rest) := by
  induction bytes with
  | nil => simp [readQuoted]
  | cons byte bytes induction =>
      rw [List.flatMap_cons, List.append_assoc, readQuoted_escape_append, induction, prepend_ok,
        List.singleton_append]

/-! ## Lines of tokens -/

/-- Tokens whose text is read as themselves. -/
def Readable : Token → Prop
  | word text =>
      text ≠ [] ∧ (∀ c ∈ text, continuesWord c = true) ∧ text.head? ≠ some '"' ∧
        text.head? ≠ some '#'
  | quoted _ => True
  | index _ => True

/-- A text that ends a word before it. -/
def EndsWord (text : List Char) : Prop :=
  ∀ c ∈ text.head?, continuesWord c = false

@[simp]
theorem endsWord_nil : EndsWord [] := by
  rintro c ⟨⟩

@[simp]
theorem endsWord_space (rest : List Char) : EndsWord (' ' :: rest) := by
  rintro c ⟨⟩
  decide

theorem takeWhile_continuesWord_append {text rest : List Char}
    (continued : ∀ c ∈ text, continuesWord c = true) (ended : EndsWord rest) :
    (text ++ rest).takeWhile continuesWord = text := by
  rw [List.takeWhile_append_of_pos continued]
  cases rest with
  | nil => simp
  | cons c rest => simp [ended c rfl]

theorem dropWhile_continuesWord_append {text rest : List Char}
    (continued : ∀ c ∈ text, continuesWord c = true) (ended : EndsWord rest) :
    (text ++ rest).dropWhile continuesWord = rest := by
  rw [List.dropWhile_append_of_pos continued]
  cases rest with
  | nil => simp
  | cons c rest => simp [ended c rfl]

/-- A run of word characters is read as one token. -/
theorem readLine_word_append {text rest : List Char} {token : Token}
    (continued : ∀ c ∈ text, continuesWord c = true) (unquoted : text.head? ≠ some '"')
    (spelled : ofWord text = .ok token) (nonempty : text ≠ []) (ended : EndsWord rest) :
    readLine (text ++ rest) = (readLine rest).map (token :: ·) := by
  obtain ⟨first, others, rfl⟩ := List.exists_cons_of_ne_nil nonempty
  have head : Text.isAsciiBlank first = false ∧ first ≠ ';' := by
    simpa [continuesWord] using continued first List.mem_cons_self
  have others_continued : ∀ c ∈ others, continuesWord c = true :=
    fun c member => continued c (List.mem_cons_of_mem first member)
  have no_mark : first ≠ '"' := by simpa using unquoted
  rw [List.cons_append, readLine, if_neg (by simp [head.1]), if_neg head.2, if_neg no_mark,
    takeWhile_continuesWord_append others_continued ended,
    dropWhile_continuesWord_append others_continued ended, spelled]

theorem readLine_quote_append (bytes : List UInt8) (rest : List Char) :
    readLine (quote bytes ++ rest) = (readLine rest).map (quoted bytes :: ·) := by
  rw [quote, List.cons_append, List.append_assoc, List.singleton_append, readLine]
  rw [if_neg (by decide), if_neg (by decide), if_pos rfl]
  split
  · rename_i fault read
    rw [readQuoted_flatMap_escape] at read
    contradiction
  · rename_i found tail read
    rw [readQuoted_flatMap_escape] at read
    cases read
    rfl

theorem continuesWord_of_mem_decimal {value : Nat} {c : Char}
    (member : c ∈ Numeral.decimal value) : continuesWord c = true := by
  have digits : ∀ digit < 10, continuesWord (Nat.digitChar digit) = true := by decide
  obtain ⟨digit, small, rfl⟩ :=
    Numeral.exists_digitChar_of_mem_toDigits (by decide : 1 < 10) member
  exact digits digit small

theorem readLine_render_append {token : Token} {rest : List Char} (readable : token.Readable)
    (ended : EndsWord rest) :
    readLine (token.render ++ rest) = (readLine rest).map (token :: ·) := by
  cases token with
  | word text =>
      obtain ⟨nonempty, continued, unquoted, unmarked⟩ := readable
      refine readLine_word_append continued unquoted ?_ nonempty ended
      show ofWord text = .ok (word text)
      unfold ofWord
      split
      · exact absurd rfl unmarked
      · rfl
  | quoted bytes => exact readLine_quote_append bytes rest
  | index value =>
      have spelled : ofWord ('#' :: Numeral.decimal value.toNat) = .ok (index value) := by
        simp [ofWord]
      refine readLine_word_append ?_ (by simp [render]) spelled (List.cons_ne_nil _ _) ended
      intro c member
      rcases List.mem_cons.mp member with rfl | digit
      · decide
      · exact continuesWord_of_mem_decimal digit

/-- A rendered line of readable tokens reads back. -/
theorem readLine_renderLine {tokens : List Token} (readable : ∀ token ∈ tokens, token.Readable) :
    readLine (renderLine tokens) = .ok tokens := by
  induction tokens with
  | nil => simp [renderLine, readLine]
  | cons token rest induction =>
      have head := readable token List.mem_cons_self
      have tail := induction fun other member => readable other (List.mem_cons_of_mem token member)
      cases rest with
      | nil =>
          have read := readLine_render_append head endsWord_nil
          rw [List.append_nil] at read
          rw [renderLine, read, readLine]
          rfl
      | cons next others =>
          rw [renderLine, readLine_render_append head (endsWord_space _), readLine,
            if_pos (by decide), tail]
          · rfl
          · exact List.cons_ne_nil next others

theorem readable_of_ofWord {text : List Char} {token : Token} (spelled : ofWord text = .ok token)
    (nonempty : text ≠ []) (continued : ∀ c ∈ text, continuesWord c = true)
    (unquoted : text.head? ≠ some '"') : token.Readable := by
  unfold ofWord at spelled
  split at spelled
  · split at spelled
    · cases spelled
      trivial
    · cases spelled
  · rename_i unmarked
    cases spelled
    refine ⟨nonempty, continued, unquoted, fun marked => ?_⟩
    obtain ⟨rest, rfl⟩ := List.head?_eq_some_iff.mp marked
    exact unmarked rest rfl

/-- The tokens of a line are readable. -/
theorem readable_of_readLine {text : List Char} {tokens : List Token}
    (read : readLine text = .ok tokens) : ∀ token ∈ tokens, token.Readable := by
  fun_induction readLine text generalizing tokens with
  | case1 =>
      cases read
      simp
  | case2 c rest blank induction => exact induction read
  | case3 =>
      cases read
      simp
  | case4 => cases read
  | case5 rest bytes tail found _ _ induction =>
      obtain ⟨later, lexed, rfl⟩ := map_eq_ok_iff.mp read
      exact List.forall_mem_cons.mpr ⟨trivial, induction lexed⟩
  | case6 => cases read
  | case7 c rest solid uncommented unquoted token spelled induction =>
      obtain ⟨later, lexed, rfl⟩ := map_eq_ok_iff.mp read
      refine List.forall_mem_cons.mpr ⟨?_, induction lexed⟩
      refine readable_of_ofWord spelled (List.cons_ne_nil _ _) ?_ (by simpa using unquoted)
      refine List.forall_mem_cons.mpr
        ⟨by simp [continuesWord, solid, uncommented], fun d member => ?_⟩
      exact List.all_eq_true.mp List.all_takeWhile d member

/-- Reading inverts rendering on exactly the lists of readable tokens, a line that can be read gives
such a list, and a quoted string is read back whatever text follows its closing quote. -/
theorem readLine_inverts_renderLine :
    (∀ tokens, readLine (renderLine tokens) = .ok tokens ↔ ∀ token ∈ tokens, token.Readable) ∧
      (∀ text tokens, readLine text = .ok tokens → ∀ token ∈ tokens, token.Readable) ∧
        ∀ bytes rest, ∃ body, quote bytes = '"' :: body ∧
          readQuoted (body ++ rest) = .ok (bytes, rest) := by
  refine ⟨fun tokens => ⟨readable_of_readLine, readLine_renderLine⟩,
    fun text tokens => readable_of_readLine, fun bytes rest => ?_⟩
  refine ⟨bytes.flatMap escape ++ ['"'], rfl, ?_⟩
  rw [List.append_assoc, List.singleton_append, readQuoted_flatMap_escape]

/-- A word with a quote and a mark inside, a string of bytes that need an escape or could end a
token, and the largest index. -/
theorem readLine_inverts_renderLine_at_marks :
    readLine (renderLine [word ['a', '"', '#', '\\'],
        quoted [0x22, 0x5c, 0x3b, 0x0a, 0x00, 0x20, 0x23, 0x7f, 0xff], index 4294967295]) =
      .ok [word ['a', '"', '#', '\\'],
        quoted [0x22, 0x5c, 0x3b, 0x0a, 0x00, 0x20, 0x23, 0x7f, 0xff], index 4294967295] := by
  refine (readLine_inverts_renderLine.1 _).mpr ?_
  rintro token (_ | ⟨_, _ | ⟨_, _ | ⟨_, ⟨⟩⟩⟩⟩)
  · exact ⟨by decide, List.all_eq_true.mp (by decide), by decide, by decide⟩
  · trivial
  · trivial

theorem renderLine_ne_nil {tokens : List Token} (readable : ∀ token ∈ tokens, token.Readable)
    (nonempty : tokens ≠ []) : renderLine tokens ≠ [] := by
  intro empty
  have read := readLine_renderLine readable
  rw [empty, readLine] at read
  cases read
  exact nonempty rfl

/-! ## Line ends -/

theorem staysInLine_of_continuesWord {c : Char} (continued : continuesWord c = true) :
    StaysInLine c := by
  constructor <;> rintro rfl <;> exact absurd continued (by decide)

theorem staysInLine_of_mem_escape {byte : UInt8} {c : Char} (member : c ∈ escape byte) :
    StaysInLine c := by
  have escapes : ∀ value < 256,
      (escape (UInt8.ofNat value)).all (fun c => decide (StaysInLine c)) = true := by
    decide +kernel
  rw [← UInt8.ofNat_toNat (x := byte)] at member
  exact of_decide_eq_true (List.all_eq_true.mp (escapes byte.toNat byte.toNat_lt) c member)

theorem staysInLine_of_mem_render {token : Token} {c : Char} (readable : token.Readable)
    (member : c ∈ token.render) : StaysInLine c := by
  cases token with
  | word text => exact staysInLine_of_continuesWord (readable.2.1 c member)
  | quoted bytes =>
      rcases List.mem_cons.mp member with rfl | inside
      · decide
      rcases List.mem_append.mp inside with escaped | last
      · obtain ⟨byte, _, found⟩ := List.mem_flatMap.mp escaped
        exact staysInLine_of_mem_escape found
      · rw [List.mem_singleton.mp last]
        decide
  | index value =>
      rcases List.mem_cons.mp member with rfl | digit
      · decide
      · exact staysInLine_of_continuesWord (continuesWord_of_mem_decimal digit)

theorem staysInLine_of_mem_renderLine {tokens : List Token} {c : Char}
    (readable : ∀ token ∈ tokens, token.Readable) (member : c ∈ renderLine tokens) :
    StaysInLine c := by
  induction tokens with
  | nil => simp [renderLine] at member
  | cons token rest induction =>
      have head := readable token List.mem_cons_self
      have tail := induction fun other found => readable other (List.mem_cons_of_mem token found)
      cases rest with
      | nil => exact staysInLine_of_mem_render head member
      | cons next others =>
          rw [renderLine, List.mem_append, List.mem_cons] at member
          · rcases member with own | rfl | later
            · exact staysInLine_of_mem_render head own
            · decide
            · exact tail later
          · exact List.cons_ne_nil next others

end Token

end StackMachine
