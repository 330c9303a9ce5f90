import Mathlib.Computability.RegularExpressions
import Mathlib.Data.List.DropRight
import StackMachine.Proofs.Text

/-!
# The grammar of numbers

Which byte strings spell a number is said by regular expressions.  A text is taken apart from the
front, without going back; where each part has to end is settled by its next character, so every
way in which the expressions match a text is the way it is read.
-/

namespace StackMachine

namespace Grammar

/-! ## Expressions -/

/-- Any one of the characters of a text. -/
def oneOf (chars : String) : RegularExpression Char :=
  chars.toList.foldr (fun c rest => .char c + rest) 0

/-- An expression that may be left out. -/
def optional (expression : RegularExpression Char) : RegularExpression Char :=
  1 + expression

/-- An expression once or several times. -/
def oneOrMore (expression : RegularExpression Char) : RegularExpression Char :=
  expression * expression.star

/-- The decimal digits. -/
def decimalDigits : String := "0123456789"

/-- The hexadecimal digits in either case. -/
def hexadecimalDigits : String := "0123456789abcdefABCDEF"

/-- A sign that may be left out: `[+-]?`. -/
def sign : RegularExpression Char :=
  optional (oneOf "+-")

/-- A whole number: `[0-9]+`. -/
def natural : RegularExpression Char :=
  oneOrMore (oneOf decimalDigits)

/-- What a hexadecimal number is marked with: `0[xX]`. -/
def hexadecimalMark : RegularExpression Char :=
  .char '0' * oneOf "xX"

/-- A whole number in hexadecimal: `[0-9a-fA-F]+`. -/
def hexadecimalNatural : RegularExpression Char :=
  oneOrMore (oneOf hexadecimalDigits)

/-- Digits with a point that may be left out: `[0-9]+(\.[0-9]*)?|\.[0-9]+`. -/
def mantissa : RegularExpression Char :=
  natural * optional (.char '.' * (oneOf decimalDigits).star) + .char '.' * natural

/-- An exponent that may be left out: `([eE][+-]?[0-9]+)?`. -/
def exponent : RegularExpression Char :=
  optional (oneOf "eE" * (sign * natural))

/-- A decimal: `[+-]?([0-9]+(\.[0-9]*)?|\.[0-9]+)([eE][+-]?[0-9]+)?`. -/
def decimal : RegularExpression Char :=
  sign * (mantissa * exponent)

/-! ## Matches -/

theorem mem_oneOf {chars : String} {text : List Char} :
    text ∈ (oneOf chars).matches' ↔ ∃ c ∈ chars.toList, text = [c] := by
  rw [oneOf]
  induction chars.toList with
  | nil => simp
  | cons c rest induction =>
      simp only [List.foldr_cons, RegularExpression.matches'_add, Language.mem_add, induction,
        List.exists_mem_cons_iff]
      rfl

theorem mem_optional {expression : RegularExpression Char} {text : List Char} :
    text ∈ (optional expression).matches' ↔ text = [] ∨ text ∈ expression.matches' := by
  rw [optional, RegularExpression.matches'_add, Language.mem_add]
  rfl

theorem mem_mul {left right : RegularExpression Char} {text : List Char} :
    text ∈ (left * right).matches' ↔
      ∃ front ∈ left.matches', ∃ back ∈ right.matches', front ++ back = text := by
  rw [RegularExpression.matches'_mul, Language.mem_mul]

theorem mem_char_mul {c : Char} {expression : RegularExpression Char} {text : List Char} :
    text ∈ (.char c * expression : RegularExpression Char).matches' ↔
      ∃ back ∈ expression.matches', text = c :: back := by
  rw [mem_mul]
  constructor
  · rintro ⟨front, rfl, back, matched, rfl⟩
    exact ⟨back, matched, rfl⟩
  · rintro ⟨back, matched, rfl⟩
    exact ⟨[c], rfl, back, matched, rfl⟩

theorem mem_star_oneOf {chars : String} {text : List Char} :
    text ∈ (oneOf chars).star.matches' ↔ ∀ c ∈ text, c ∈ chars.toList := by
  rw [RegularExpression.matches'_star, Language.mem_kstar]
  constructor
  · rintro ⟨parts, rfl, matched⟩ c member
    obtain ⟨part, inside, within⟩ := List.mem_flatten.mp member
    obtain ⟨d, digit, rfl⟩ := mem_oneOf.mp (matched part inside)
    rwa [List.mem_singleton.mp within]
  · intro within
    have flat : text = (text.map fun c => [c]).flatten := by
      induction text with
      | nil => rfl
      | cons c rest induction =>
          exact congrArg (c :: ·) (induction (List.forall_mem_cons.mp within).2)
    refine ⟨text.map fun c => [c], flat, fun part member => ?_⟩
    obtain ⟨c, inside, rfl⟩ := List.mem_map.mp member
    exact mem_oneOf.mpr ⟨c, within c inside, rfl⟩

theorem mem_oneOrMore_oneOf {chars : String} {text : List Char} :
    text ∈ (oneOrMore (oneOf chars)).matches' ↔ text ≠ [] ∧ ∀ c ∈ text, c ∈ chars.toList := by
  rw [oneOrMore, mem_mul]
  constructor
  · rintro ⟨front, first, back, others, rfl⟩
    obtain ⟨c, digit, rfl⟩ := mem_oneOf.mp first
    exact ⟨List.cons_ne_nil _ _, List.forall_mem_cons.mpr ⟨digit, mem_star_oneOf.mp others⟩⟩
  · rintro ⟨nonempty, within⟩
    obtain ⟨c, rest, rfl⟩ := List.exists_cons_of_ne_nil nonempty
    obtain ⟨first, others⟩ := List.forall_mem_cons.mp within
    exact ⟨[c], mem_oneOf.mpr ⟨c, first, rfl⟩, rest, mem_star_oneOf.mpr others, rfl⟩

theorem mem_sign {text : List Char} :
    text ∈ sign.matches' ↔ text = [] ∨ text = ['+'] ∨ text = ['-'] := by
  rw [sign, mem_optional, mem_oneOf]
  simp

theorem mem_decimalDigits {c : Char} : c ∈ decimalDigits.toList ↔ c.isDigit = true := by
  constructor
  · have all : decimalDigits.toList.all Char.isDigit = true := by decide
    exact List.all_eq_true.mp all c
  · intro digit
    simp only [Char.isDigit, Bool.and_eq_true, decide_eq_true_eq, ge_iff_le] at digit
    have lower : 48 ≤ c.toNat := digit.1
    have upper : c.toNat ≤ 57 := digit.2
    have all : ∀ n ≤ 57, 48 ≤ n → Char.ofNat n ∈ decimalDigits.toList := by decide
    rw [← Char.ofNat_toNat c]
    exact all c.toNat upper lower

theorem mem_natural {text : List Char} :
    text ∈ natural.matches' ↔ text ≠ [] ∧ ∀ c ∈ text, c.isDigit = true := by
  simp only [natural, mem_oneOrMore_oneOf, mem_decimalDigits]

theorem mem_star_decimalDigits {text : List Char} :
    text ∈ (oneOf decimalDigits).star.matches' ↔ ∀ c ∈ text, c.isDigit = true := by
  simp only [mem_star_oneOf, mem_decimalDigits]

theorem mem_hexadecimalMark {text : List Char} :
    text ∈ hexadecimalMark.matches' ↔ text = ['0', 'x'] ∨ text = ['0', 'X'] := by
  rw [hexadecimalMark, mem_char_mul]
  simp [mem_oneOf]

/-- Whether all characters of an expression have a property. -/
def allChars (p : Char → Bool) : RegularExpression Char → Bool
  | .zero | .epsilon => true
  | .char c => p c
  | .plus left right | .comp left right => allChars p left && allChars p right
  | .star expression => allChars p expression

theorem forall_mem_of_allChars {p : Char → Bool} {expression : RegularExpression Char}
    {text : List Char} (all : allChars p expression = true)
    (matched : text ∈ expression.matches') : ∀ c ∈ text, p c = true := by
  induction expression generalizing text with
  | zero => cases matched
  | epsilon =>
      obtain rfl := (Language.mem_one text).mp matched
      nofun
  | char c =>
      obtain rfl : text = [c] := matched
      exact List.forall_mem_singleton.mpr all
  | plus left right left_induction right_induction =>
      rw [allChars, Bool.and_eq_true] at all
      rcases matched with here | there
      · exact left_induction all.1 here
      · exact right_induction all.2 there
  | comp left right left_induction right_induction =>
      rw [allChars, Bool.and_eq_true] at all
      obtain ⟨front, first, back, second, rfl⟩ := Language.mem_mul.mp matched
      exact List.forall_mem_append.mpr
        ⟨left_induction all.1 first, right_induction all.2 second⟩
  | star expression induction =>
      obtain ⟨parts, rfl, each⟩ := Language.mem_kstar.mp matched
      intro c member
      obtain ⟨part, inside, within⟩ := List.mem_flatten.mp member
      exact induction all (each part inside) c within

/-! ## Signs -/

/-- A text that starts with no sign. -/
def Unsigned (text : List Char) : Prop :=
  ∀ c ∈ text.head?, c ≠ '+' ∧ c ≠ '-'

/-- A text with a sign in front, taken apart. -/
def splitSign : List Char → List Char × List Char
  | '+' :: rest => (['+'], rest)
  | '-' :: rest => (['-'], rest)
  | text => ([], text)

theorem unsigned_of_ne {text : List Char} (plus : ∀ rest, text = '+' :: rest → False)
    (minus : ∀ rest, text = '-' :: rest → False) : Unsigned text := by
  intro c first
  obtain ⟨rest, rfl⟩ := List.head?_eq_some_iff.mp first
  constructor <;> rintro rfl
  · exact plus rest rfl
  · exact minus rest rfl

theorem splitSign_of_unsigned {text : List Char} (unsigned : Unsigned text) :
    splitSign text = ([], text) := by
  unfold splitSign
  split
  · exact absurd rfl (unsigned '+' rfl).1
  · exact absurd rfl (unsigned '-' rfl).2
  · rfl

/-- There is one way to take a sign off, when no other one follows. -/
theorem splitSign_append {front back : List Char} (signed : front ∈ sign.matches')
    (unsigned : Unsigned back) : splitSign (front ++ back) = (front, back) := by
  rcases mem_sign.mp signed with rfl | rfl | rfl
  · exact splitSign_of_unsigned unsigned
  · rfl
  · rfl

theorem splitSign_spec (text : List Char) :
    (splitSign text).1 ∈ sign.matches' ∧ (splitSign text).1 ++ (splitSign text).2 = text := by
  unfold splitSign
  split
  · exact ⟨mem_sign.mpr (.inr (.inl rfl)), rfl⟩
  · exact ⟨mem_sign.mpr (.inr (.inr rfl)), rfl⟩
  · exact ⟨mem_sign.mpr (.inl rfl), rfl⟩

theorem mem_sign_mul_iff {expression : RegularExpression Char}
    (unsigned : ∀ text ∈ expression.matches', Unsigned text) {text : List Char} :
    text ∈ (sign * expression).matches' ↔ (splitSign text).2 ∈ expression.matches' := by
  rw [mem_mul]
  constructor
  · rintro ⟨front, signed, back, matched, rfl⟩
    rwa [splitSign_append signed (unsigned back matched)]
  · intro matched
    obtain ⟨signed, split⟩ := splitSign_spec text
    exact ⟨_, signed, _, matched, split⟩

theorem unsigned_of_isDigit {c : Char} (digit : c.isDigit = true) (rest : List Char) :
    Unsigned (c :: rest) := by
  rintro d ⟨⟩
  constructor <;> rintro rfl <;> cases digit

theorem unsigned_of_mem_natural {text : List Char} (matched : text ∈ natural.matches') :
    Unsigned text := by
  obtain ⟨nonempty, digits⟩ := mem_natural.mp matched
  obtain ⟨c, rest, rfl⟩ := List.exists_cons_of_ne_nil nonempty
  exact unsigned_of_isDigit (digits c List.mem_cons_self) rest

/-! ## Values of digits -/

/-- The value of a digit, which is its place among all digits. -/
def digitValue (c : Char) : Nat :=
  "0123456789abcdef".toList.idxOf c.toLower

/-- The value of a string of digits. -/
def digitsValue (base : Nat) (digits : List Char) : Nat :=
  Numeral.ofDigits base (digits.map digitValue)

/-- The characters that are read as digits in a base. -/
def Alphabet (base : Nat) (chars : String) : Prop :=
  ∀ c, Numeral.digit? base c = if c ∈ chars.toList then some (digitValue c) else none

theorem digit?_eq_none_of_not_ascii {c : Char} (base : Nat) (outside : 128 ≤ c.toNat) :
    Numeral.digit? base c = none := by
  have above {last : Char} (ascii : last.toNat < 128) : ¬c ≤ last := by
    intro below
    have : c.toNat ≤ last.toNat := below
    omega
  have digit : ¬c ≤ '9' := above (by decide)
  have lower : ¬c ≤ 'f' := above (by decide)
  have upper : ¬c ≤ 'F' := above (by decide)
  simp [Numeral.digit?, digit, lower, upper]

/-- Only characters in ASCII have to be tried. -/
theorem alphabet_of_ascii {base : Nat} {chars : String}
    (ascii : chars.toList.all (fun c => c.toNat < 128) = true)
    (read : ∀ n < 128, Numeral.digit? base (Char.ofNat n) =
      if Char.ofNat n ∈ chars.toList then some (digitValue (Char.ofNat n)) else none) :
    Alphabet base chars := by
  intro c
  by_cases inside : c.toNat < 128
  · simpa only [Char.ofNat_toNat] using read c.toNat inside
  · rw [if_neg fun member => inside (of_decide_eq_true (List.all_eq_true.mp ascii c member))]
    exact digit?_eq_none_of_not_ascii base (Nat.not_lt.mp inside)

theorem alphabet_decimal : Alphabet 10 decimalDigits :=
  alphabet_of_ascii (by decide) (by decide +kernel)

theorem alphabet_hexadecimal : Alphabet 16 hexadecimalDigits :=
  alphabet_of_ascii (by decide) (by decide +kernel)

theorem Alphabet.mapM_eq_some_iff {base : Nat} {chars : String} (alphabet : Alphabet base chars)
    {text : List Char} {values : List Nat} :
    text.mapM (Numeral.digit? base) = some values ↔
      (∀ c ∈ text, c ∈ chars.toList) ∧ values = text.map digitValue := by
  induction text generalizing values with
  | nil => simp [eq_comm]
  | cons c rest induction =>
      rw [List.mapM_cons, alphabet c]
      by_cases member : c ∈ chars.toList
      · simp only [member, if_true, Option.bind_eq_bind, Option.bind_some, Option.bind_eq_some_iff,
          induction, List.forall_mem_cons, true_and, List.map_cons, Option.pure_def,
          Option.some.injEq]
        constructor
        · rintro ⟨_, ⟨others, rfl⟩, rfl⟩
          exact ⟨others, rfl⟩
        · rintro ⟨others, rfl⟩
          exact ⟨_, ⟨others, rfl⟩, rfl⟩
      · simp [member]

/-- A whole number is read from the digits of its base. -/
theorem Alphabet.natural?_eq_some_iff {base : Nat} {chars : String} (alphabet : Alphabet base chars)
    {text : List Char} {value : Nat} :
    Numeral.natural? base text = some value ↔
      text ∈ (oneOrMore (oneOf chars)).matches' ∧ value = digitsValue base text := by
  rw [mem_oneOrMore_oneOf]
  by_cases empty : text = []
  · simp [empty, Numeral.natural?]
  · rw [Numeral.natural?_eq_map_ofDigits base empty, Option.map_eq_some_iff]
    simp only [alphabet.mapM_eq_some_iff, digitsValue]
    constructor
    · rintro ⟨_, ⟨within, rfl⟩, rfl⟩
      exact ⟨⟨empty, within⟩, rfl⟩
    · rintro ⟨⟨_, within⟩, rfl⟩
      exact ⟨_, ⟨within, rfl⟩, rfl⟩

end Grammar

/-! ## Decimal numerals -/

namespace DecimalNumeral

open Grammar

theorem exists_continueExponent?_iff {text : List Char} {value : Nat} :
    (∃ result, continueExponent? value text = some result) ↔ ∀ c ∈ text, c.isDigit = true := by
  induction text generalizing value with
  | nil => simp [continueExponent?]
  | cons c rest induction =>
      rw [continueExponent?, alphabet_decimal c, List.forall_mem_cons, ← mem_decimalDigits]
      by_cases member : c ∈ decimalDigits.toList
      · simp only [member, if_true, induction, true_and]
      · simp [member]

theorem exists_exponentMagnitude?_iff {text : List Char} :
    (∃ value, exponentMagnitude? text = some value) ↔ text ∈ natural.matches' := by
  rw [mem_natural, ← @exists_continueExponent?_iff text 0]
  cases text with
  | nil => simp [exponentMagnitude?]
  | cons c rest => simp [exponentMagnitude?]

/-- What follows the mark of an exponent. -/
theorem exists_exponent?_iff {text : List Char} :
    (∃ value, exponent? text = some value) ↔ text ∈ (sign * natural).matches' := by
  rw [mem_sign_mul_iff fun _ => unsigned_of_mem_natural, ← exists_exponentMagnitude?_iff]
  unfold exponent?
  split
  · simp [splitSign]
  · simp [splitSign, Option.bind_eq_some_iff]
  · rename_i plus minus
    simp [splitSign_of_unsigned (unsigned_of_ne plus minus)]

/-- The text of an exponent that may be left out. -/
def SpellsExponent (text : List Char) (exponent : Option Int) : Prop :=
  (text = [] ∧ exponent = none) ∨
    ∃ mark tail, text = mark :: tail ∧ (mark = 'e' ∨ mark = 'E') ∧
      ∃ value, exponent? tail = some value ∧ exponent = some value

theorem exists_spellsExponent_iff {text : List Char} :
    (∃ exponent, SpellsExponent text exponent) ↔ text ∈ Grammar.exponent.matches' := by
  rw [Grammar.exponent, mem_optional, mem_mul]
  constructor
  · rintro ⟨exponent, ⟨rfl, _⟩ | ⟨mark, tail, rfl, marked, value, read, _⟩⟩
    · exact .inl rfl
    · refine .inr ⟨[mark], mem_oneOf.mpr ⟨mark, by simpa using marked, rfl⟩, tail, ?_, rfl⟩
      exact exists_exponent?_iff.mp ⟨value, read⟩
  · rintro (rfl | ⟨front, marked, tail, matched, rfl⟩)
    · exact ⟨none, .inl ⟨rfl, rfl⟩⟩
    · obtain ⟨mark, member, rfl⟩ := mem_oneOf.mp marked
      obtain ⟨value, read⟩ := exists_exponent?_iff.mpr matched
      exact ⟨some value, .inr ⟨mark, tail, rfl, by simpa using member, value, read, rfl⟩⟩

theorem finish?_eq_some_iff {front rest : List Char} {fraction : Option (List Char)}
    {numeral : DecimalNumeral} :
    finish? front fraction rest = some numeral ↔
      front ++ fraction.getD [] ≠ [] ∧ numeral.whole = front ∧ numeral.fraction = fraction ∧
        SpellsExponent rest numeral.exponent := by
  obtain ⟨whole, point, exponent⟩ := numeral
  unfold finish? SpellsExponent
  split
  · rename_i empty
    simp_all
  · rename_i nonempty
    have kept : front ++ fraction.getD [] ≠ [] := by simpa using nonempty
    cases rest with
    | nil => simp [kept, eq_comm]
    | cons mark tail =>
        by_cases marked : mark = 'e' ∨ mark = 'E'
        · simp only [marked, if_true, Option.map_eq_some_iff, mk.injEq]
          constructor
          · rintro ⟨value, read, rfl, rfl, rfl⟩
            exact ⟨kept, rfl, rfl, .inr ⟨mark, tail, rfl, marked, value, read, rfl⟩⟩
          · rintro ⟨_, rfl, rfl, ⟨⟨⟩, _⟩ | ⟨_, _, ⟨⟩, _, value, read, rfl⟩⟩
            exact ⟨value, read, rfl, rfl, rfl⟩
        · simp [kept, marked]

theorem SpellsExponent.ended {text : List Char} {exponent : Option Int}
    (spelled : SpellsExponent text exponent) :
    ∀ c ∈ text.head?, c.isDigit = false ∧ c ≠ '.' := by
  rcases spelled with ⟨rfl, _⟩ | ⟨mark, tail, rfl, rfl | rfl, _⟩
  · rintro c ⟨⟩
  · rintro c ⟨⟩
    decide
  · rintro c ⟨⟩
    decide

/-- The point and the digits after it. -/
def pointed (fraction : Option (List Char)) : List Char :=
  (fraction.map ('.' :: ·)).getD []

/-- Every text is taken apart into digits, a point with digits, and a rest. -/
theorem exists_read?_eq_finish? (text : List Char) :
    ∃ whole fraction rest, text = whole ++ (pointed fraction ++ rest) ∧
      (∀ c ∈ whole ++ fraction.getD [], c.isDigit = true) ∧
      read? text = finish? whole fraction rest := by
  have digits (part : List Char) : ∀ c ∈ part.takeWhile isDigit, c.isDigit = true :=
    fun c member => List.mem_takeWhile_imp member
  have joined (part : List Char) : part.takeWhile isDigit ++ part.dropWhile isDigit = part :=
    List.takeWhile_append_dropWhile
  unfold read?
  split
  · rename_i rest dropped
    refine ⟨_, some _, _, ?_, ?_, rfl⟩
    · rw [pointed, Option.map_some, Option.getD_some, List.cons_append, joined, ← dropped, joined]
    · intro c member
      rcases List.mem_append.mp member with before | after
      · exact digits text c before
      · exact digits rest c after
  · refine ⟨_, none, _, (joined text).symm, ?_, rfl⟩
    rw [Option.getD_none, List.append_nil]
    exact digits text

/-- Digits end at the point and at the mark of the exponent. -/
theorem read?_append {whole rest : List Char} {fraction : Option (List Char)}
    {exponent : Option Int} (digits : ∀ c ∈ whole ++ fraction.getD [], c.isDigit = true)
    (spelled : SpellsExponent rest exponent) :
    read? (whole ++ (pointed fraction ++ rest)) = finish? whole fraction rest := by
  have ended : ∀ c ∈ rest.head?, c.isDigit = false := fun c first => (spelled.ended c first).1
  obtain ⟨before, after⟩ := List.forall_mem_append.mp digits
  cases fraction with
  | none =>
      obtain ⟨taken, dropped⟩ := takeWhile_digits before ended
      simp only [pointed, read?, Option.map_none, Option.getD_none, List.nil_append, taken, dropped]
      split
      · exact absurd rfl (spelled.ended '.' rfl).2
      · rfl
  | some fraction =>
      have stops : ∀ c ∈ ('.' :: (fraction ++ rest)).head?, c.isDigit = false := by
        rintro c ⟨⟩
        decide
      obtain ⟨taken, dropped⟩ := takeWhile_digits before stops
      obtain ⟨taken', dropped'⟩ := takeWhile_digits after ended
      rw [Option.getD_some] at taken' dropped'
      simp only [pointed, read?, Option.map_some, Option.getD_some, List.cons_append, taken,
        dropped, taken', dropped']

/-- A numeral is read from its digits, its point and its exponent. -/
theorem read?_eq_some_iff {text : List Char} {numeral : DecimalNumeral} :
    read? text = some numeral ↔ ∃ rest,
      text = numeral.whole ++ (pointed numeral.fraction ++ rest) ∧
        (∀ c ∈ numeral.digits, c.isDigit = true) ∧ numeral.digits ≠ [] ∧
        SpellsExponent rest numeral.exponent := by
  constructor
  · intro read
    obtain ⟨whole, fraction, rest, text_eq, digits, read_eq⟩ := exists_read?_eq_finish? text
    rw [read_eq, finish?_eq_some_iff] at read
    obtain ⟨nonempty, rfl, rfl, spelled⟩ := read
    exact ⟨rest, text_eq, digits, nonempty, spelled⟩
  · rintro ⟨rest, rfl, digits, nonempty, spelled⟩
    rw [read?_append digits spelled]
    exact finish?_eq_some_iff.mpr ⟨nonempty, rfl, rfl, spelled⟩

theorem mem_mantissa_iff {text : List Char} :
    text ∈ mantissa.matches' ↔ ∃ whole fraction, text = whole ++ pointed fraction ∧
      (∀ c ∈ whole ++ fraction.getD [], c.isDigit = true) ∧ whole ++ fraction.getD [] ≠ [] := by
  rw [mantissa, RegularExpression.matches'_add, Language.mem_add, mem_mul, mem_char_mul]
  simp only [mem_optional, mem_char_mul, mem_star_decimalDigits, mem_natural]
  constructor
  · rintro (⟨whole, ⟨nonempty, digits⟩, _, rfl | ⟨fraction, others, rfl⟩, rfl⟩ |
      ⟨fraction, ⟨nonempty, digits⟩, rfl⟩)
    · exact ⟨whole, none, rfl, by simpa using digits, by simpa using nonempty⟩
    · exact ⟨whole, some fraction, rfl, List.forall_mem_append.mpr ⟨digits, others⟩,
        List.append_ne_nil_of_left_ne_nil nonempty _⟩
    · exact ⟨[], some fraction, rfl, digits, nonempty⟩
  · rintro ⟨whole, fraction, rfl, digits, nonempty⟩
    obtain ⟨before, after⟩ := List.forall_mem_append.mp digits
    by_cases empty : whole = []
    · cases fraction with
      | none => exact absurd empty (by simpa using nonempty)
      | some fraction =>
          subst empty
          exact .inr ⟨fraction, ⟨nonempty, after⟩, rfl⟩
    · refine .inl ⟨whole, ⟨empty, before⟩, pointed fraction, ?_, rfl⟩
      cases fraction with
      | none => exact .inl rfl
      | some fraction => exact .inr ⟨fraction, after, rfl⟩

/-- The texts that are read are those of the grammar. -/
theorem exists_read?_iff {text : List Char} :
    (∃ numeral, read? text = some numeral) ↔ text ∈ (mantissa * Grammar.exponent).matches' := by
  simp only [read?_eq_some_iff, mem_mul, mem_mantissa_iff, ← exists_spellsExponent_iff]
  constructor
  · rintro ⟨numeral, rest, rfl, digits, nonempty, spelled⟩
    exact ⟨_, ⟨numeral.whole, numeral.fraction, rfl, digits, nonempty⟩, rest,
      ⟨numeral.exponent, spelled⟩, List.append_assoc _ _ _⟩
  · rintro ⟨_, ⟨whole, fraction, rfl, digits, nonempty⟩, rest, ⟨exponent, spelled⟩, rfl⟩
    exact ⟨⟨whole, fraction, exponent⟩, rest, List.append_assoc _ _ _, digits, nonempty, spelled⟩

/-- A numeral without a point and an exponent is a whole number. -/
theorem read?_isInteger_iff {text : List Char} {numeral : DecimalNumeral} :
    read? text = some numeral ∧ numeral.isInteger = true ↔
      text ∈ natural.matches' ∧ numeral = ⟨text, none, none⟩ := by
  rw [mem_natural, read?_eq_some_iff]
  constructor
  · rintro ⟨⟨rest, rfl, digits, nonempty, spelled⟩, integer⟩
    obtain ⟨whole, fraction, exponent⟩ := numeral
    simp only [isInteger, Bool.and_eq_true, Option.isNone_iff_eq_none] at integer
    obtain ⟨rfl, rfl⟩ := integer
    rcases spelled with ⟨rfl, _⟩ | ⟨_, _, _, _, _, _, ⟨⟩⟩
    simp only [DecimalNumeral.digits, Option.getD_none, List.append_nil] at digits nonempty
    simp only [pointed, Option.map_none, Option.getD_none, List.append_nil]
    exact ⟨⟨nonempty, digits⟩, trivial⟩
  · rintro ⟨⟨nonempty, digits⟩, rfl⟩
    refine ⟨⟨[], (List.append_nil _).symm, ?_, ?_, .inl ⟨rfl, rfl⟩⟩, rfl⟩
    · simpa [DecimalNumeral.digits] using digits
    · simpa [DecimalNumeral.digits] using nonempty

/-- A numeral starts with a digit or a point. -/
theorem exists_cons_of_read? {text : List Char} {numeral : DecimalNumeral}
    (read : read? text = some numeral) : ∃ c rest, text = c :: rest ∧ c ∈ "0123456789.".toList := by
  obtain ⟨rest, rfl, digits, nonempty, _⟩ := read?_eq_some_iff.mp read
  obtain ⟨whole, fraction, exponent⟩ := numeral
  cases whole with
  | cons c others =>
      have digit := mem_decimalDigits.mpr (digits c List.mem_cons_self)
      exact ⟨c, _, rfl, (by decide : decimalDigits.toList ⊆ "0123456789.".toList) digit⟩
  | nil =>
      cases fraction with
      | none => exact absurd rfl nonempty
      | some fraction => exact ⟨'.', _, rfl, by decide⟩

theorem unsigned_of_read? {text : List Char} {numeral : DecimalNumeral}
    (read : read? text = some numeral) : Unsigned text := by
  obtain ⟨c, rest, rfl, first⟩ := exists_cons_of_read? read
  rintro d ⟨⟩
  constructor <;> rintro rfl <;> exact absurd first (by decide)

/-- A numeral is no word. -/
theorem magnitudeOfText?_of_read? {text : List Char} {numeral : DecimalNumeral}
    (read : read? text = some numeral) (negative : Bool) :
    Binary64.magnitudeOfText? negative text =
      some (Binary64.ofDecimal negative numeral.toDecimal) := by
  obtain ⟨c, rest, rfl, first⟩ := exists_cons_of_read? read
  have letters : "0123456789.".toList.all (fun c => c.toLower ≠ 'i' ∧ c.toLower ≠ 'n') = true := by
    decide
  obtain ⟨not_i, not_n⟩ := of_decide_eq_true (List.all_eq_true.mp letters c first)
  simp [Binary64.magnitudeOfText?, read, not_i, not_n]

end DecimalNumeral

/-! ## Numbers -/

namespace Number

open Grammar

/-- The characters of a whole number in either base, and its value. -/
inductive SpellsMagnitude : List Char → Nat → Prop
  | decimal {digits : List Char} (matched : digits ∈ natural.matches') :
      SpellsMagnitude digits (digitsValue 10 digits)
  | hexadecimal {mark digits : List Char} (marked : mark ∈ hexadecimalMark.matches')
      (matched : digits ∈ hexadecimalNatural.matches') :
      SpellsMagnitude (mark ++ digits) (digitsValue 16 digits)

/-- The value of a magnitude after a sign. -/
def withSign (negative : Bool) (magnitude : Nat) : Int :=
  if negative then -magnitude else magnitude

/-- The characters of an integer and its value: a sign that may be left out, and a whole number. -/
inductive SpellsInteger : List Char → Int → Prop
  | signed {front back : List Char} {magnitude : Nat} (signed : front ∈ sign.matches')
      (spelled : SpellsMagnitude back magnitude) :
      SpellsInteger (front ++ back) (withSign (front == ['-']) magnitude)

/-- The number that a text without blanks around it spells. An integer that needs more than 64 bits
is a float when it is in decimal. -/
inductive Spells (text : List Char) : Number → Prop
  | int {value : Int64} (spelled : SpellsInteger text value.toInt) : Spells text (.int value)
  | float {x : Binary64} (matched : text ∈ Grammar.decimal.matches')
      (other : ∀ value : Int64, ¬SpellsInteger text value.toInt)
      (read : Binary64.ofText? (text.dropWhile (· == '+')) = some x) : Spells text (.float x)

/-! ### Magnitudes -/

theorem int64OfInt?_eq_some_iff {value : Int} {result : Int64} :
    Numeral.int64OfInt? value = some result ↔ result.toInt = value := by
  constructor
  · intro read
    unfold Numeral.int64OfInt? at read
    split at read
    · rename_i bounds
      cases read
      exact Int64.toInt_ofInt_of_le bounds.1 (Int.lt_add_one_of_le bounds.2)
    · cases read
  · rintro rfl
    exact Numeral.int64OfInt?_toInt result

/-- The number that a decimal numeral after a sign spells. -/
def ofNumeral (negative : Bool) (numeral : DecimalNumeral) : Number :=
  match Numeral.int64OfInt? (withSign negative numeral.toDecimal.significand) with
  | some value =>
    if numeral.isInteger then int value else float (.ofDecimal negative numeral.toDecimal)
  | none => float (.ofDecimal negative numeral.toDecimal)

theorem ofMagnitude?_eq (negative : Bool) (text : List Char) :
    ofMagnitude? negative text =
      match text with
      | '0' :: 'x' :: digits | '0' :: 'X' :: digits =>
        (Numeral.natural? 16 digits).bind fun value =>
          (Numeral.int64OfInt? (withSign negative value)).map int
      | _ => (DecimalNumeral.read? text).map (ofNumeral negative) :=
  rfl

theorem ofMagnitude?_marked {mark : List Char} (marked : mark ∈ hexadecimalMark.matches')
    (negative : Bool) (digits : List Char) :
    ofMagnitude? negative (mark ++ digits) =
      (Numeral.natural? 16 digits).bind fun value =>
        (Numeral.int64OfInt? (withSign negative value)).map int := by
  rcases mem_hexadecimalMark.mp marked with rfl | rfl <;> rfl

theorem read?_marked {mark : List Char} (marked : mark ∈ hexadecimalMark.matches')
    (digits : List Char) : DecimalNumeral.read? (mark ++ digits) = none := by
  rcases mem_hexadecimalMark.mp marked with rfl | rfl <;>
    simp [DecimalNumeral.read?, DecimalNumeral.finish?, DecimalNumeral.isDigit]

theorem ofMagnitude?_eq_map {text : List Char}
    (unmarked : ∀ mark ∈ hexadecimalMark.matches', ∀ digits, text ≠ mark ++ digits)
    (negative : Bool) :
    ofMagnitude? negative text = (DecimalNumeral.read? text).map (ofNumeral negative) := by
  rw [ofMagnitude?_eq]
  split
  · exact absurd rfl (unmarked _ (mem_hexadecimalMark.mpr (.inl rfl)) _)
  · exact absurd rfl (unmarked _ (mem_hexadecimalMark.mpr (.inr rfl)) _)
  · rfl

theorem ofMagnitude?_of_read? {text : List Char} {numeral : DecimalNumeral}
    (read : DecimalNumeral.read? text = some numeral) (negative : Bool) :
    ofMagnitude? negative text = some (ofNumeral negative numeral) := by
  rw [ofMagnitude?_eq_map, read, Option.map_some]
  rintro mark marked digits rfl
  cases (read?_marked marked digits).symm.trans read

theorem ofNumeral_cases (negative : Bool) (numeral : DecimalNumeral) :
    (numeral.isInteger = true ∧ ∃ value : Int64,
      value.toInt = withSign negative numeral.toDecimal.significand ∧
        ofNumeral negative numeral = int value) ∨
      ofNumeral negative numeral = float (.ofDecimal negative numeral.toDecimal) := by
  unfold ofNumeral
  split
  · rename_i value fits
    split
    · rename_i integer
      exact .inl ⟨integer, value, int64OfInt?_eq_some_iff.mp fits, rfl⟩
    · exact .inr rfl
  · exact .inr rfl

theorem significand_natural {text : List Char} (matched : text ∈ natural.matches') :
    (DecimalNumeral.toDecimal ⟨text, none, none⟩).significand = digitsValue 10 text := by
  have read := alphabet_decimal.natural?_eq_some_iff.mpr ⟨matched, rfl⟩
  simp [DecimalNumeral.toDecimal, DecimalNumeral.digits, read]

/-- What a magnitude is read from: hexadecimal digits after a mark, or a decimal numeral. -/
theorem ofMagnitude?_cases {negative : Bool} {text : List Char} {number : Number}
    (read : ofMagnitude? negative text = some number) :
    (∃ magnitude, SpellsMagnitude text magnitude ∧
      ∃ value : Int64, value.toInt = withSign negative magnitude ∧ number = int value) ∨
      ∃ numeral, DecimalNumeral.read? text = some numeral ∧
        number = float (.ofDecimal negative numeral.toDecimal) := by
  -- After a mark the digits are hexadecimal, and the decimal reader is never asked.
  by_cases marked : ∃ mark ∈ hexadecimalMark.matches', ∃ digits, text = mark ++ digits
  · obtain ⟨mark, marked, digits, rfl⟩ := marked
    rw [ofMagnitude?_marked marked, Option.bind_eq_some_iff] at read
    obtain ⟨magnitude, digits_read, fits⟩ := read
    obtain ⟨matched, rfl⟩ := alphabet_hexadecimal.natural?_eq_some_iff.mp digits_read
    obtain ⟨value, value_eq, rfl⟩ := Option.map_eq_some_iff.mp fits
    exact .inl ⟨_, .hexadecimal marked matched, value, int64OfInt?_eq_some_iff.mp value_eq, rfl⟩
  · have unmarked : ∀ mark ∈ hexadecimalMark.matches', ∀ digits, text ≠ mark ++ digits :=
      fun mark member digits text_eq => marked ⟨mark, member, digits, text_eq⟩
    rw [ofMagnitude?_eq_map unmarked, Option.map_eq_some_iff] at read
    obtain ⟨numeral, read, rfl⟩ := read
    rcases ofNumeral_cases negative numeral with ⟨integer, value, value_eq, number_eq⟩ | number_eq
    · obtain ⟨matched, rfl⟩ := DecimalNumeral.read?_isInteger_iff.mp ⟨read, integer⟩
      rw [significand_natural matched] at value_eq
      exact .inl ⟨_, .decimal matched, value, value_eq, number_eq⟩
    · exact .inr ⟨numeral, read, number_eq⟩

/-- A magnitude is read as an integer when it spells one that fits in 64 bits. -/
theorem ofMagnitude?_eq_int_iff {negative : Bool} {text : List Char} {value : Int64} :
    ofMagnitude? negative text = some (int value) ↔
      ∃ magnitude, SpellsMagnitude text magnitude ∧
        value.toInt = withSign negative magnitude := by
  constructor
  · intro read
    rcases ofMagnitude?_cases read with ⟨magnitude, spelled, _, value_eq, ⟨⟩⟩ | ⟨_, _, ⟨⟩⟩
    exact ⟨magnitude, spelled, value_eq⟩
  · rintro ⟨_, matched | ⟨marked, matched⟩, value_eq⟩
    · have fits := int64OfInt?_eq_some_iff.mpr value_eq
      obtain ⟨read, integer⟩ := DecimalNumeral.read?_isInteger_iff.mpr ⟨matched, rfl⟩
      rw [ofMagnitude?_of_read? read, ofNumeral, significand_natural matched, fits]
      simp [integer]
    · have fits := int64OfInt?_eq_some_iff.mpr value_eq
      have digits_read := alphabet_hexadecimal.natural?_eq_some_iff.mpr ⟨matched, rfl⟩
      rw [ofMagnitude?_marked marked, digits_read, Option.bind_some, fits, Option.map_some]

/-! ### Texts -/

theorem unsigned_of_spellsMagnitude {text : List Char} {magnitude : Nat}
    (spelled : SpellsMagnitude text magnitude) : Unsigned text := by
  rcases spelled with matched | ⟨marked, matched⟩
  · exact unsigned_of_mem_natural matched
  · rcases mem_hexadecimalMark.mp marked with rfl | rfl
    · exact unsigned_of_isDigit (by decide) _
    · exact unsigned_of_isDigit (by decide) _

theorem spellsInteger_iff {text : List Char} {value : Int} :
    SpellsInteger text value ↔ ∃ magnitude, SpellsMagnitude (splitSign text).2 magnitude ∧
      value = withSign ((splitSign text).1 == ['-']) magnitude := by
  constructor
  · rintro ⟨signed, spelled⟩
    rw [splitSign_append signed (unsigned_of_spellsMagnitude spelled)]
    exact ⟨_, spelled, rfl⟩
  · rintro ⟨magnitude, spelled, rfl⟩
    obtain ⟨signed, split⟩ := splitSign_spec text
    have signed := SpellsInteger.signed signed spelled
    rwa [split] at signed

theorem mem_decimal_iff {text : List Char} :
    text ∈ Grammar.decimal.matches' ↔
      ∃ numeral, DecimalNumeral.read? (splitSign text).2 = some numeral := by
  rw [Grammar.decimal, mem_sign_mul_iff, DecimalNumeral.exists_read?_iff]
  intro body matched
  obtain ⟨numeral, read⟩ := DecimalNumeral.exists_read?_iff.mpr matched
  exact DecimalNumeral.unsigned_of_read? read

/-- A sign is taken off once. -/
theorem ofText?_eq (text : List Char) :
    ofText? text =
      let (front, back) := splitSign (Text.trimBy Text.isAsciiBlank text)
      ofMagnitude? (front == ['-']) back := by
  unfold ofText?
  split
  · simp [splitSign, *]
  · simp [splitSign, *]
  · rename_i minus plus
    rw [splitSign_of_unsigned (unsigned_of_ne plus minus)]
    rfl

/-- Without a plus sign, the text of a decimal is read by the nearest binary64 number. -/
theorem ofText?_dropWhile_plus {text : List Char} {numeral : DecimalNumeral}
    (read : DecimalNumeral.read? (splitSign text).2 = some numeral) :
    Binary64.ofText? (text.dropWhile (· == '+')) =
      some (.ofDecimal ((splitSign text).1 == ['-']) numeral.toDecimal) := by
  obtain ⟨signed, split⟩ := splitSign_spec text
  generalize splitSign text = parts at read signed split ⊢
  obtain ⟨front, back⟩ := parts
  subst split
  -- No sign follows the first one, so that a single plus is dropped.
  have unsigned := DecimalNumeral.unsigned_of_read? read
  have kept : back.dropWhile (· == '+') = back := by
    cases back with
    | nil => rfl
    | cons c rest => exact List.dropWhile_cons_of_neg (by simpa using (unsigned c rfl).1)
  have dropped : (front ++ back).dropWhile (· == '+') =
      Binary64.signed (front == ['-']) back := by
    rcases mem_sign.mp signed with rfl | rfl | rfl
    · exact kept
    · exact kept
    · rfl
  rw [dropped, Binary64.ofText?_signed _ unsigned, DecimalNumeral.magnitudeOfText?_of_read? read]

/-! ### Byte strings -/

/-- Space, tab, line feed, form feed and carriage return. -/
def blanks : List UInt8 := [0x20, 0x09, 0x0a, 0x0c, 0x0d]

/-- A byte string without the blanks at its two ends, each byte read as a character. -/
def trimmed (bytes : List UInt8) : List Char :=
  ((bytes.dropWhile (· ∈ blanks)).rdropWhile (· ∈ blanks)).map fun byte => Char.ofNat byte.toNat

theorem isAsciiBlank_ofNat (byte : UInt8) :
    Text.isAsciiBlank (Char.ofNat byte.toNat) = decide (byte ∈ blanks) := by
  have all : ∀ n < 256, Text.isAsciiBlank (Char.ofNat n) = decide (UInt8.ofNat n ∈ blanks) := by
    decide +kernel
  simpa using all byte.toNat byte.toNat_lt

theorem trimBy_map (bytes : List UInt8) :
    Text.trimBy Text.isAsciiBlank (bytes.map fun byte => Char.ofNat byte.toNat) =
      trimmed bytes := by
  have blank : (Text.isAsciiBlank ∘ fun byte : UInt8 => Char.ofNat byte.toNat) =
      fun byte => decide (byte ∈ blanks) :=
    funext isAsciiBlank_ofNat
  rw [Text.trimBy, trimmed, List.rdropWhile, List.dropWhile_map, blank, ← List.map_reverse,
    List.dropWhile_map, blank, ← List.map_reverse]

theorem ofBytes?_eq (bytes : List UInt8) :
    ofBytes? bytes =
      ofMagnitude? ((splitSign (trimmed bytes)).1 == ['-']) (splitSign (trimmed bytes)).2 := by
  rw [ofBytes?, ofText?_eq, trimBy_map]

theorem ofBytes?_eq_int_iff {bytes : List UInt8} {value : Int64} :
    ofBytes? bytes = some (int value) ↔ SpellsInteger (trimmed bytes) value.toInt := by
  rw [ofBytes?_eq, ofMagnitude?_eq_int_iff, spellsInteger_iff]

theorem mem_decimal_of_ofBytes?_eq_float {bytes : List UInt8} {x : Binary64}
    (read : ofBytes? bytes = some (float x)) : trimmed bytes ∈ Grammar.decimal.matches' := by
  rw [ofBytes?_eq] at read
  rcases ofMagnitude?_cases read with ⟨_, _, _, _, ⟨⟩⟩ | ⟨numeral, read, _⟩
  exact mem_decimal_iff.mpr ⟨numeral, read⟩

/-- A text of the decimal grammar is read as an integer or as the nearest binary64 number. -/
theorem ofBytes?_of_mem_decimal {bytes : List UInt8}
    (matched : trimmed bytes ∈ Grammar.decimal.matches') :
    ∃ x, Binary64.ofText? ((trimmed bytes).dropWhile (· == '+')) = some x ∧
      (ofBytes? bytes = some (float x) ∨ ∃ value, ofBytes? bytes = some (int value)) := by
  obtain ⟨numeral, read⟩ := mem_decimal_iff.mp matched
  refine ⟨_, ofText?_dropWhile_plus read, ?_⟩
  rw [ofBytes?_eq, ofMagnitude?_of_read? read]
  rcases ofNumeral_cases _ numeral with ⟨_, value, _, number_eq⟩ | number_eq
  · exact .inr ⟨value, congrArg some number_eq⟩
  · exact .inl (congrArg some number_eq)

theorem ofBytes?_eq_some_iff_spells {bytes : List UInt8} {number : Number} :
    ofBytes? bytes = some number ↔ Spells (trimmed bytes) number := by
  cases number with
  | int value =>
      rw [ofBytes?_eq_int_iff]
      constructor
      · exact .int
      · rintro ⟨spelled⟩
        exact spelled
  | float x =>
      -- A text of the decimal grammar is read as an integer or as one float, so both ways the other
      -- reading has to be excluded.
      constructor
      · intro read
        have matched := mem_decimal_of_ofBytes?_eq_float read
        obtain ⟨y, nearest, float_read | ⟨value, int_read⟩⟩ := ofBytes?_of_mem_decimal matched
        · cases read.symm.trans float_read
          refine .float matched (fun value spelled => ?_) nearest
          cases read.symm.trans (ofBytes?_eq_int_iff.mpr spelled)
        · cases read.symm.trans int_read
      · rintro (_ | ⟨matched, other, read⟩)
        obtain ⟨y, nearest, float_read | ⟨value, int_read⟩⟩ := ofBytes?_of_mem_decimal matched
        · cases read.symm.trans nearest
          exact float_read
        · exact absurd (ofBytes?_eq_int_iff.mp int_read) (other value)

theorem ofBytes?_eq_none_iff {bytes : List UInt8} :
    ofBytes? bytes = none ↔ trimmed bytes ∉ Grammar.decimal.matches' ∧
      ∀ value : Int64, ¬SpellsInteger (trimmed bytes) value.toInt := by
  constructor
  · intro refused
    constructor
    · intro matched
      obtain ⟨_, _, read | ⟨_, read⟩⟩ := ofBytes?_of_mem_decimal matched
      · cases refused.symm.trans read
      · cases refused.symm.trans read
    · intro value spelled
      cases refused.symm.trans (ofBytes?_eq_int_iff.mpr spelled)
  · rintro ⟨unmatched, other⟩
    cases read : ofBytes? bytes with
    | none => rfl
    | some number =>
        cases ofBytes?_eq_some_iff_spells.mp read with
        | int spelled => exact absurd spelled (other _)
        | float matched => exact absurd matched unmatched

/-- Numbers are spelled in ASCII. -/
theorem Spells.ascii {text : List Char} {number : Number} (spells : Spells text number) :
    ∀ c ∈ text, c.toNat < 128 := by
  have ascii (expression : RegularExpression Char)
      (all : allChars (fun c => c.toNat < 128) expression = true) {part : List Char}
      (matched : part ∈ expression.matches') : ∀ c ∈ part, c.toNat < 128 := by
    simpa using forall_mem_of_allChars all matched
  cases spells with
  | float matched => exact ascii Grammar.decimal (by decide) matched
  | int spelled =>
      generalize Int64.toInt _ = value at spelled
      obtain ⟨signed, spelled⟩ := spelled
      refine List.forall_mem_append.mpr ⟨ascii sign (by decide) signed, ?_⟩
      cases spelled with
      | decimal matched => exact ascii natural (by decide) matched
      | hexadecimal marked matched =>
          exact List.forall_mem_append.mpr ⟨ascii hexadecimalMark (by decide) marked,
            ascii hexadecimalNatural (by decide) matched⟩

/-- What is left out at the ends of a byte string is blank. -/
theorem mem_blanks_or_mem_trimmed {bytes : List UInt8} {byte : UInt8} (member : byte ∈ bytes) :
    byte ∈ blanks ∨ Char.ofNat byte.toNat ∈ trimmed bytes := by
  let blank (byte : UInt8) : Bool := decide (byte ∈ blanks)
  have front : bytes.takeWhile blank ++ bytes.dropWhile blank = bytes :=
    List.takeWhile_append_dropWhile
  have back : (bytes.dropWhile blank).rdropWhile blank ++ (bytes.dropWhile blank).rtakeWhile blank =
      bytes.dropWhile blank :=
    List.rdropWhile_append_rtakeWhile
  rw [← front, ← back, List.mem_append, List.mem_append] at member
  rcases member with left | kept | right
  · have : blank byte = true := List.mem_takeWhile_imp left
    exact .inl (of_decide_eq_true this)
  · exact .inr (List.mem_map_of_mem kept)
  · have : blank byte = true := List.mem_rtakeWhile_imp right
    exact .inl (of_decide_eq_true this)

/-- A byte string that spells a number is text. -/
theorem decode?_ne_none_of_spells {bytes : List UInt8} {number : Number}
    (spells : Spells (trimmed bytes) number) : Utf8.decode? bytes ≠ none := by
  have ascii : ∀ byte ∈ bytes, byte.toNat ≤ 127 := by
    intro byte member
    rcases mem_blanks_or_mem_trimmed member with blank | inside
    · have all : blanks.all (fun byte => byte.toNat ≤ 127) = true := by decide
      exact of_decide_eq_true (List.all_eq_true.mp all byte blank)
    · have below := spells.ascii _ inside
      rw [Utf8.toNat_ofNat_toNat] at below
      omega
  have text := Utf8.encode_map_ofNat ascii
  rw [← String.toList_ofList (l := bytes.map _)] at text
  rw [Utf8.decode?_eq_some_iff.mpr text.symm]
  exact Option.some_ne_none _

/-- A byte string is read as the number that it spells by the grammar without the blanks around it,
and it is refused when it spells none. What is not text spells none. -/
theorem ofBytes?_follows_grammar (bytes : List UInt8) :
    (∀ number, ofBytes? bytes = some number ↔ Spells (trimmed bytes) number) ∧
      (ofBytes? bytes = none ↔ trimmed bytes ∉ Grammar.decimal.matches' ∧
        ∀ value : Int64, ¬SpellsInteger (trimmed bytes) value.toInt) ∧
      (Utf8.decode? bytes = none → ofBytes? bytes = none) := by
  refine ⟨fun number => ofBytes?_eq_some_iff_spells, ofBytes?_eq_none_iff, fun invalid => ?_⟩
  cases read : ofBytes? bytes with
  | none => rfl
  | some number =>
      exact absurd invalid (decode?_ne_none_of_spells (ofBytes?_eq_some_iff_spells.mp read))

theorem ofBytes?_follows_grammar_at_least_integer :
    Spells (trimmed (Utf8.encode "\t-0X8000000000000000 ".toList)) (.int Int64.minValue) ∧
      Utf8.decode? [0x31, 0xff] = none ∧ ofBytes? [0x31, 0xff] = none := by
  have read : ofBytes? (Utf8.encode "\t-0X8000000000000000 ".toList) =
      some (.int Int64.minValue) := by
    decide +kernel
  have invalid : Utf8.decode? [0x31, 0xff] = none := by decide +kernel
  exact ⟨((ofBytes?_follows_grammar _).1 _).mp read, invalid,
    (ofBytes?_follows_grammar _).2.2 invalid⟩

example : ["--1", "+", ".", "1e", "inf", "-NaN", "0x8000000000000000"].all
    (fun text => (ofBytes? (Utf8.encode text.toList)).isNone) = true := by
  decide +kernel

end Number

end StackMachine
