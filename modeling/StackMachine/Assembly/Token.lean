import StackMachine.Assembly.Error
import StackMachine.Text.Utf8
import StackMachine.Text.Whitespace

/-!
# Tokens of assembly text

A line is a sequence of words, quoted byte strings and pool indices `#n`, separated by ASCII
blanks, up to a semicolon. Rendering puts single spaces between tokens and writes each byte string
with printable ASCII characters only, so that it reads back to the same bytes.
-/

namespace StackMachine

/-- A lexical unit of a line. -/
inductive Token where
  | word (text : List Char)
  | quoted (bytes : List UInt8)
  | index (value : UInt32)
deriving DecidableEq, Repr

namespace Token

/-! ## Rendering -/

/-- A byte inside quotes. -/
def escape (byte : UInt8) : List Char :=
  if byte = 0x0a then ['\\', 'n']
  else if byte = 0x09 then ['\\', 't']
  else if byte = 0x0d then ['\\', 'r']
  else if byte = 0x00 then ['\\', '0']
  else if byte = 0x5c then ['\\', '\\']
  else if byte = 0x22 then ['\\', '"']
  else if 0x20 ≤ byte ∧ byte ≤ 0x7e then [Char.ofNat byte.toNat]
  else '\\' :: 'x' :: Numeral.paddedHexadecimal 2 byte.toNat

/-- A byte string in quotes. -/
def quote (bytes : List UInt8) : List Char :=
  '"' :: (bytes.flatMap escape ++ ['"'])

/-- The text of a token. -/
def render : Token → List Char
  | word text => text
  | quoted bytes => quote bytes
  | index value => '#' :: Numeral.decimal value.toNat

/-- The texts of tokens with a space between neighbours. -/
def renderLine : List Token → List Char
  | [] => []
  | [token] => token.render
  | token :: rest => token.render ++ ' ' :: renderLine rest

/-! ## Reading -/

/-- The byte that a backslash and a character stand for. -/
def escaped? (c : Char) : Option UInt8 :=
  if c = 'n' then some 0x0a
  else if c = 't' then some 0x09
  else if c = 'r' then some 0x0d
  else if c = '0' then some 0x00
  else if c = '\\' then some 0x5c
  else if c = '"' then some 0x22
  else none

/-- A string read, with bytes put in front. -/
def prepend (bytes : List UInt8) :
    Except AssemblyFault (List UInt8 × List Char) → Except AssemblyFault (List UInt8 × List Char)
  | .ok (rest, text) => .ok (bytes ++ rest, text)
  | .error fault => .error fault

/-- Reads a byte string after its opening quote, and gives the text after the closing one. -/
def readQuoted : List Char → Except AssemblyFault (List UInt8 × List Char)
  | [] => .error .unterminatedString
  | '"' :: rest => .ok ([], rest)
  | ['\\'] => .error .unterminatedString
  | '\\' :: 'x' :: high :: low :: rest =>
    match Numeral.unsigned? 16 256 [high, low] with
    | some value => prepend [UInt8.ofNat value] (readQuoted rest)
    | none => .error .invalidEscape
  | '\\' :: c :: rest =>
    match escaped? c with
    | some byte => prepend [byte] (readQuoted rest)
    | none => .error .invalidEscape
  | c :: rest => prepend (String.utf8EncodeChar c) (readQuoted rest)

/-- Whether a character continues a word. -/
def continuesWord (c : Char) : Bool :=
  !Text.isAsciiBlank c && c != ';'

/-- The token that a run of word characters spells. -/
def ofWord (text : List Char) : Except AssemblyFault Token :=
  match text with
  | '#' :: digits =>
    match Numeral.uint32? digits with
    | some value => .ok (index value)
    | none => .error (.invalidInt (String.ofList text))
  | _ => .ok (word text)

theorem exists_of_prepend_eq_ok {bytes all : List UInt8} {text : List Char}
    {result : Except AssemblyFault (List UInt8 × List Char)}
    (read : prepend bytes result = .ok (all, text)) :
    ∃ rest, result = .ok (rest, text) ∧ all = bytes ++ rest := by
  cases result with
  | error fault => simp [prepend] at read
  | ok pair =>
    obtain ⟨rest, remaining⟩ := pair
    simp only [prepend, Except.ok.injEq, Prod.mk.injEq] at read
    exact ⟨rest, by simp [read.2], read.1.symm⟩

/-- Reading a string consumes its closing quote. -/
theorem length_readQuoted_lt {text rest : List Char} {bytes : List UInt8}
    (read : readQuoted text = .ok (bytes, rest)) : rest.length < text.length := by
  fun_induction readQuoted text generalizing bytes with
  | case1 => simp at read
  | case2 tail =>
    simp only [Except.ok.injEq, Prod.mk.injEq] at read
    simp [read.2]
  | case3 => simp at read
  | case4 high low tail value hex hypothesis =>
    obtain ⟨inner, found, _⟩ := exists_of_prepend_eq_ok read
    have shorter := hypothesis found
    simp only [List.length_cons]
    omega
  | case5 => simp at read
  | case6 c tail other byte known hypothesis =>
    obtain ⟨inner, found, _⟩ := exists_of_prepend_eq_ok read
    have shorter := hypothesis found
    simp only [List.length_cons]
    omega
  | case7 => simp at read
  | case8 c tail _ _ _ _ hypothesis =>
    obtain ⟨inner, found, _⟩ := exists_of_prepend_eq_ok read
    have shorter := hypothesis found
    simp only [List.length_cons]
    omega

/-- Dropping characters from the front makes no text longer. -/
theorem length_dropWhile_le (keep : Char → Bool) (text : List Char) :
    (text.dropWhile keep).length ≤ text.length :=
  (List.dropWhile_sublist keep).length_le

/-- The tokens of a line. -/
def readLine : List Char → Except AssemblyFault (List Token)
  | [] => .ok []
  | c :: rest =>
    if Text.isAsciiBlank c then readLine rest
    else if c = ';' then .ok []
    else if c = '"' then
      match _found : readQuoted rest with
      | .error fault => .error fault
      | .ok (bytes, tail) => (readLine tail).map (quoted bytes :: ·)
    else
      match ofWord (c :: rest.takeWhile continuesWord) with
      | .error fault => .error fault
      | .ok token => (readLine (rest.dropWhile continuesWord)).map (token :: ·)
termination_by text => text.length
decreasing_by
  all_goals simp only [List.length_cons]
  · omega
  · have shorter := length_readQuoted_lt _found
    omega
  · have shorter := length_dropWhile_le continuesWord rest
    omega

end Token

end StackMachine
