import StackMachine.Binary64.Text
import StackMachine.Proofs.Binary64.Decimal
import StackMachine.Proofs.Numeral

/-!
# Binary64 numbers read back

The text of a number that is no NaN reads back to the same bits, and the text of any number as an
operand does.  The digits are those of a decimal that reads back by its very choice; what is left
is the layout, which moves the point and drops zeros without changing the value.
-/

namespace StackMachine

namespace DecimalNumeral

theorem isDigit_eq : isDigit = Char.isDigit := by
  funext c
  rfl

/-- The text of a numeral. -/
def text (numeral : DecimalNumeral) : List Char :=
  numeral.whole ++ ((numeral.fraction.map ('.' :: ·)).getD [] ++
    (numeral.exponent.map fun exponent => 'e' :: Numeral.integer exponent).getD [])

/-- The parts of a numeral are digits where digits belong, the whole part is not empty, and the
exponent is below the limit. -/
structure Spelled (numeral : DecimalNumeral) : Prop where
  nonempty : numeral.whole ≠ []
  whole : ∀ c ∈ numeral.whole, c.isDigit = true
  fraction : ∀ c ∈ numeral.fraction.getD [], c.isDigit = true
  exponent : ∀ exponent ∈ numeral.exponent, exponent.natAbs < exponentLimit

/-! ## Exponents -/

theorem le_ofDigitChars (text : List Char) (value : Nat) :
    value ≤ Nat.ofDigitChars 10 text value := by
  rw [Nat.ofDigitChars_eq_ofDigitChars_zero]
  have positive : 0 < 10 ^ text.length := Nat.pow_pos (by omega)
  exact Nat.le_trans (Nat.le_mul_of_pos_left value positive) (Nat.le_add_right _ _)

theorem continueExponent?_eq {text : List Char} {value : Nat}
    (digits : ∀ c ∈ text, c.isDigit = true)
    (bounded : Nat.ofDigitChars 10 text value < exponentLimit) :
    continueExponent? value text = some (Nat.ofDigitChars 10 text value) := by
  induction text generalizing value with
  | nil => rfl
  | cons c rest induction =>
      have read := Numeral.digit?_ten_of_isDigit (digits c List.mem_cons_self)
      have small : value < exponentLimit := Nat.lt_of_le_of_lt (le_ofDigitChars _ value) bounded
      rw [Nat.ofDigitChars_cons] at bounded ⊢
      simp only [continueExponent?, read, small, if_true]
      exact induction (fun d member => digits d (List.mem_cons_of_mem c member)) bounded

theorem exponentMagnitude?_decimal {value : Nat} (small : value < exponentLimit) :
    exponentMagnitude? (Numeral.decimal value) = some value := by
  have digits : ∀ c ∈ Numeral.decimal value, c.isDigit = true :=
    fun c member => Nat.isDigit_of_mem_toDigits (by decide) (by decide) member
  have spelled : Nat.ofDigitChars 10 (Numeral.decimal value) 0 = value :=
    Nat.ofDigitChars_ten_toDigits
  have read : continueExponent? 0 (Numeral.decimal value) = some value := by
    rw [continueExponent?_eq digits (by rwa [spelled]), spelled]
  cases text_eq : Numeral.decimal value with
  | nil => exact absurd text_eq Nat.toDigits_ne_nil
  | cons c rest => rwa [text_eq] at read

theorem exponent?_integer {value : Int} (small : value.natAbs < exponentLimit) :
    exponent? (Numeral.integer value) = some value := by
  have read := exponentMagnitude?_decimal small
  unfold Numeral.integer
  split
  · rename_i negative
    have restored : -(value.natAbs : Int) = value := by omega
    simp only [exponent?, read, Option.bind_eq_bind, Option.bind_some, Option.pure_def,
      Option.map_some, restored]
  · rename_i nonnegative
    have restored : (value.natAbs : Int) = value := by omega
    unfold exponent?
    split
    · rename_i text_eq
      exact absurd text_eq (Numeral.decimal_ne_sign_cons (.inl rfl))
    · rename_i text_eq
      exact absurd text_eq (Numeral.decimal_ne_sign_cons (.inr rfl))
    · simp only [read, Option.map_some, Int.ofNat_eq_natCast, restored]

/-! ## Numerals -/

theorem takeWhile_digits {front rest : List Char} (digits : ∀ c ∈ front, c.isDigit = true)
    (ended : ∀ c ∈ rest.head?, c.isDigit = false) :
    (front ++ rest).takeWhile isDigit = front ∧ (front ++ rest).dropWhile isDigit = rest := by
  have stops : rest.takeWhile isDigit = [] ∧ rest.dropWhile isDigit = rest := by
    cases rest with
    | nil => exact ⟨rfl, rfl⟩
    | cons c tail =>
        have other : isDigit c = false := isDigit_eq ▸ ended c rfl
        simp [other]
  rw [isDigit_eq] at stops ⊢
  rw [List.takeWhile_append_of_pos digits, List.dropWhile_append_of_pos digits, stops.1, stops.2,
    List.append_nil]
  exact ⟨rfl, rfl⟩

theorem finish?_text {whole : List Char} {fraction : Option (List Char)} {exponent : Option Int}
    (nonempty : whole ≠ []) (small : ∀ value ∈ exponent, value.natAbs < exponentLimit) :
    finish? whole fraction
        ((exponent.map fun exponent => 'e' :: Numeral.integer exponent).getD []) =
      some ⟨whole, fraction, exponent⟩ := by
  have kept : (whole.isEmpty && (fraction.getD []).isEmpty) = false := by
    simp [nonempty]
  cases exponent with
  | none => simp [finish?, kept]
  | some value =>
      have read := exponent?_integer (small value rfl)
      simp [finish?, kept, read]

/-- Reading undoes spelling. -/
theorem read?_text {numeral : DecimalNumeral} (spelled : numeral.Spelled) :
    read? numeral.text = some numeral := by
  obtain ⟨whole, fraction, exponent⟩ := numeral
  obtain ⟨nonempty, whole_digits, fraction_digits, small⟩ := spelled
  have ended : ∀ c ∈ ((exponent.map fun exponent => 'e' :: Numeral.integer exponent).getD []).head?,
      c.isDigit = false := by
    cases exponent with
    | none => simp
    | some value =>
        rintro c ⟨⟩
        rfl
  cases fraction with
  | none =>
      obtain ⟨taken, dropped⟩ := takeWhile_digits whole_digits ended
      simp only [text, read?, Option.map_none, Option.getD_none, List.nil_append, taken, dropped]
      split
      · rename_i rest rest_eq
        cases exponent with
        | none => simp at rest_eq
        | some value => simp at rest_eq
      · exact finish?_text nonempty small
  | some digits =>
      have pointed : ∀ c ∈ ('.' :: (digits ++
          (exponent.map fun exponent => 'e' :: Numeral.integer exponent).getD [])).head?,
          c.isDigit = false := by
        rintro c ⟨⟩
        rfl
      obtain ⟨taken, dropped⟩ := takeWhile_digits whole_digits pointed
      obtain ⟨taken', dropped'⟩ := takeWhile_digits fraction_digits ended
      simp only [Option.getD_some] at taken' dropped'
      simp only [text, read?, Option.map_some, Option.getD_some, taken, dropped, List.cons_append,
        taken', dropped']
      exact finish?_text nonempty small

/-- The digits of a spelled numeral, before and after the point, are its significand. -/
theorem toDecimal_eq {numeral : DecimalNumeral} (spelled : numeral.Spelled) :
    numeral.toDecimal =
      ⟨Nat.ofDigitChars 10 (numeral.whole ++ numeral.fraction.getD []) 0,
        numeral.exponent.getD 0 - (numeral.fraction.getD []).length⟩ := by
  have digits : ∀ c ∈ numeral.whole ++ numeral.fraction.getD [], c.isDigit = true := by
    intro c member
    rcases List.mem_append.mp member with before | after
    · exact spelled.whole c before
    · exact spelled.fraction c after
  have nonempty : numeral.whole ++ numeral.fraction.getD [] ≠ [] := by
    simp [spelled.nonempty]
  simp only [toDecimal, DecimalNumeral.digits, Numeral.natural?_ten_of_isDigit nonempty digits,
    Option.getD_some]

end DecimalNumeral

namespace Binary64

open DecimalNumeral

/-! ## Digits that read back -/

theorem codeOfDecimal_scaled (magnitude : Nat) {exponent : Nat}
    (units : unitExponent = exponent) :
    codeOfDecimal ⟨magnitude * Nat.pow 5 exponent, -(exponent : Int)⟩ = roundCode magnitude 1 := by
  have power : 10 ^ exponent = Nat.pow 5 exponent * unitsInOne := by
    rw [unitsInOne_eq, units, Nat.pow_eq, ← Nat.mul_pow]
  have whole : (-(exponent : Int)).toNat = 0 := by omega
  have places : (- -(exponent : Int)).toNat = exponent := by omega
  have positive : 0 < Nat.pow 5 exponent * unitsInOne :=
    Nat.mul_pos (Nat.pow_pos (by omega)) unitsInOne_pos
  rw [codeOfDecimal_eq]
  simp only [Decimal.numerator, Decimal.denominator, whole, places, pow_zero, Nat.mul_one, power]
  calc
    roundCode (magnitude * Nat.pow 5 exponent * unitsInOne) (Nat.pow 5 exponent * unitsInOne) =
        roundCode (magnitude * (Nat.pow 5 exponent * unitsInOne))
          (1 * (Nat.pow 5 exponent * unitsInOne)) := by rw [Nat.mul_assoc, Nat.one_mul]
    _ = roundCode magnitude 1 := roundCode_mul _ _ positive

/-- The exact expansion of a finite number reads back. -/
theorem codeOfDecimal_exactDecimal {x : Binary64} (finite : x.code < infinityCode) :
    codeOfDecimal x.exactDecimal = x.code := by
  have units : unitExponent = 1074 := rfl
  exact (codeOfDecimal_scaled x.magnitude units).trans (roundCode_magnitudeOfCode finite)

theorem code_ofCode {negative : Bool} {code : Nat} (small : code < signWeight) :
    (ofCode negative code).code = code := by
  cases negative with
  | false =>
      simp only [ofCode, Binary64.code, Bool.false_eq_true, if_false, UInt64.toNat_ofNat',
        signWeight] at small ⊢
      omega
  | true =>
      simp only [ofCode, Binary64.code, if_true, UInt64.toNat_ofNat', signWeight] at small ⊢
      omega

theorem codeOfDecimal_le (decimal : Decimal) : codeOfDecimal decimal ≤ infinityCode := by
  rw [codeOfDecimal_eq]
  exact Nat.min_le_right _ _

theorem codeOfDecimal_of_ofDecimal {x : Binary64} {decimal : Decimal}
    (nearest : ofDecimal x.negative decimal = x) : codeOfDecimal decimal = x.code := by
  have small : codeOfDecimal decimal < signWeight :=
    Nat.lt_of_le_of_lt (codeOfDecimal_le decimal) (by decide)
  rw [← nearest, ofDecimal, code_ofCode small]

/-- The digits chosen for a finite number read back to it. -/
theorem codeOfDecimal_shortest {x : Binary64} (finite : x.code < infinityCode) :
    codeOfDecimal x.shortest = x.code := by
  unfold shortest
  cases found : (List.range 17).findSome? fun (further : Nat) =>
      (x.candidates (x.place - 1 - further)).find? fun decimal =>
        ofDecimal x.negative decimal == x with
  | none => simpa [found] using codeOfDecimal_exactDecimal finite
  | some decimal =>
      obtain ⟨further, _, chosen⟩ := List.exists_of_findSome?_eq_some found
      have nearest := List.find?_some chosen
      simpa [found] using codeOfDecimal_of_ofDecimal (beq_iff_eq.mp nearest)

/-! ## Layout -/

theorem exists_zeros (decimal : Decimal) :
    ∃ zeros, Numeral.decimal decimal.significand =
      significantDigits decimal ++ List.replicate zeros '0' := by
  let reversed := (Numeral.decimal decimal.significand).reverse
  have zeros : reversed.takeWhile (· == '0') =
      List.replicate (reversed.takeWhile (· == '0')).length '0' := by
    apply List.eq_replicate_of_mem
    intro c member
    simpa using List.all_eq_true.mp List.all_takeWhile c member
  refine ⟨(reversed.takeWhile (· == '0')).length, ?_⟩
  calc
    Numeral.decimal decimal.significand = reversed.reverse := (List.reverse_reverse _).symm
    _ = (reversed.takeWhile (· == '0') ++ reversed.dropWhile (· == '0')).reverse := by
      rw [List.takeWhile_append_dropWhile]
    _ = (reversed.dropWhile (· == '0')).reverse ++ (reversed.takeWhile (· == '0')).reverse :=
      List.reverse_append
    _ = significantDigits decimal ++ List.replicate _ '0' := by
      rw [zeros, List.reverse_replicate, List.length_replicate]
      rfl

/-- A numeral spells given digits, of which the first stands at a given place. -/
def Places (numeral : DecimalNumeral) (digits : List Char) (place : Int) : Prop :=
  numeral.Spelled ∧
    codeOfDecimal numeral.toDecimal =
      codeOfDecimal ⟨Nat.ofDigitChars 10 digits 0, place - digits.length⟩

theorem exists_positional {digits : List Char} (place : Int)
    (nonempty : digits ≠ []) (all : ∀ c ∈ digits, c.isDigit = true) :
    ∃ numeral, numeral.text = positional digits place ∧ Places numeral digits place := by
  unfold positional
  split
  · rename_i below
    have spelled : Spelled ⟨['0'], some (List.replicate (-place).toNat '0' ++ digits), none⟩ := by
      refine ⟨by simp, by simp, ?_, by simp⟩
      intro c member
      rcases List.mem_append.mp member with zero | digit
      · rw [(List.mem_replicate.mp zero).2]
        rfl
      · exact all c digit
    refine ⟨_, by simp [DecimalNumeral.text], spelled, ?_⟩
    rw [toDecimal_eq spelled]
    congr 2
    · simp [Nat.ofDigitChars_cons, Nat.ofDigitChars_append]
    · simp
      omega
  · rename_i above
    by_cases short : digits.length ≤ place.toNat
    · have spelled : Spelled ⟨digits ++ List.replicate (place.toNat - digits.length) '0',
          some ['0'], none⟩ := by
        refine ⟨by simp [nonempty], ?_, by simp, by simp⟩
        intro c member
        rcases List.mem_append.mp member with digit | zero
        · exact all c digit
        · rw [(List.mem_replicate.mp zero).2]
          rfl
      refine ⟨_, ?_, spelled, ?_⟩
      · simp [DecimalNumeral.text, List.take_of_length_le short, List.drop_of_length_le short]
      · -- The whole part is padded and one zero follows the point.
        have value : Nat.ofDigitChars 10
            (digits ++ List.replicate (place.toNat - digits.length) '0' ++ ['0']) 0 =
            Nat.ofDigitChars 10 digits 0 * 10 ^ (place.toNat - digits.length + 1) := by
          simp only [Nat.ofDigitChars_append, Nat.ofDigitChars_replicate_zero,
            Nat.ofDigitChars_cons, Nat.ofDigitChars_nil, Nat.sub_self, Nat.add_zero]
          ring
        rw [toDecimal_eq spelled]
        simp only [Option.getD_some, Option.getD_none, value]
        rw [codeOfDecimal_mul_pow]
        congr 2
        simp
        omega
    · have spelled : Spelled ⟨digits.take place.toNat, some (digits.drop place.toNat), none⟩ := by
        refine ⟨?_, ?_, ?_, by simp⟩
        · simp [nonempty]
          omega
        · intro c member
          exact all c (List.mem_of_mem_take member)
        · intro c member
          exact all c (List.mem_of_mem_drop member)
      have fraction_ne : (digits.drop place.toNat).isEmpty = false := by
        simp
        omega
      have padding : place.toNat - digits.length = 0 := by omega
      refine ⟨_, ?_, spelled, ?_⟩
      · simp [DecimalNumeral.text, fraction_ne, padding]
      · rw [toDecimal_eq spelled]
        congr 2
        · simp
        · simp
          omega

theorem exists_scientific {digits : List Char} {place : Int} (nonempty : digits ≠ [])
    (all : ∀ c ∈ digits, c.isDigit = true) (small : (place - 1).natAbs < exponentLimit) :
    ∃ numeral, numeral.text = scientific digits place ∧ Places numeral digits place := by
  match digits with
  | [] => exact absurd rfl nonempty
  | [first] =>
      have spelled : Spelled ⟨[first], none, some (place - 1)⟩ :=
        ⟨by simp, all, by simp, by simpa using small⟩
      refine ⟨_, by simp [DecimalNumeral.text, scientific], spelled, ?_⟩
      rw [toDecimal_eq spelled]
      simp
  | first :: second :: rest =>
      have spelled : Spelled ⟨[first], some (second :: rest), some (place - 1)⟩ := by
        refine ⟨by simp, ?_, ?_, by simpa using small⟩
        · intro c member
          exact all c (by simp_all)
        · intro c member
          exact all c (List.mem_cons_of_mem first member)
      refine ⟨_, by simp [DecimalNumeral.text, scientific], spelled, ?_⟩
      rw [toDecimal_eq spelled]
      congr 2
      simp
      omega

theorem length_decimal_bounds {value : Nat} (positive : 0 < value) :
    10 ^ (Numeral.decimal value).length ≤ value * 10 ∧
      value < 10 ^ (Numeral.decimal value).length := by
  have nonempty : 0 < (Numeral.decimal value).length := Nat.length_toDigits_pos
  obtain ⟨length, length_eq⟩ := Nat.exists_eq_succ_of_ne_zero (Nat.ne_of_gt nonempty)
  constructor
  · rw [length_eq, Nat.succ_eq_add_one, pow_succ]
    apply Nat.mul_le_mul_right
    cases length with
    | zero => exact positive
    | succ shorter =>
        have long : ¬ (Nat.toDigits 10 value).length ≤ shorter + 1 := by
          intro short
          have : (Numeral.decimal value).length ≤ shorter + 1 := short
          omega
        rw [Nat.length_toDigits_le_iff (by decide) (by omega)] at long
        exact Nat.le_of_not_lt long
  · exact (Nat.length_toDigits_le_iff (by decide) nonempty).mp (Nat.le_refl _)

/-- The digits of a decimal, laid out with a point or an exponent. -/
def layout (decimal : Decimal) : List Char :=
  let digits := significantDigits decimal
  let place := (Numeral.decimal decimal.significand).length + decimal.exponent
  if -3 ≤ place ∧ place ≤ 16 then positional digits place else scientific digits place

theorem finiteText_eq (x : Binary64) :
    x.finiteText = if x.isZero then "0.0".toList else layout x.shortest :=
  rfl

/-- Laid out, a decimal keeps the number it is nearest to. -/
theorem exists_layout {decimal : Decimal} (finite : codeOfDecimal decimal ≠ infinityCode)
    (nonzero : codeOfDecimal decimal ≠ 0) :
    ∃ numeral : DecimalNumeral, numeral.Spelled ∧ numeral.text = layout decimal ∧
      codeOfDecimal numeral.toDecimal = codeOfDecimal decimal := by
  obtain ⟨zeros, digits_eq⟩ := exists_zeros decimal
  obtain ⟨significand, exponent⟩ := decimal
  have all : ∀ c ∈ significantDigits ⟨significand, exponent⟩, c.isDigit = true := by
    intro c member
    apply Nat.isDigit_of_mem_toDigits (b := 10) (by decide) (by decide)
    exact (show Numeral.decimal _ = _ from digits_eq) ▸ List.mem_append_left _ member
  have value : significand =
      Nat.ofDigitChars 10 (significantDigits ⟨significand, exponent⟩) 0 * 10 ^ zeros := by
    calc
      significand = Nat.ofDigitChars 10 (Numeral.decimal significand) 0 :=
        Nat.ofDigitChars_ten_toDigits.symm
      _ = _ := by
        rw [digits_eq, Nat.ofDigitChars_append, Nat.ofDigitChars_replicate_zero, Nat.mul_comm]
  have positive : significand ≠ 0 := by
    intro zero
    apply nonzero
    rw [codeOfDecimal, if_pos zero]
  have nonempty : significantDigits ⟨significand, exponent⟩ ≠ [] := by
    intro empty
    rw [empty, Nat.ofDigitChars_nil, Nat.zero_mul] at value
    exact positive value
  have length : (Numeral.decimal significand).length =
      (significantDigits ⟨significand, exponent⟩).length + zeros := by
    rw [digits_eq, List.length_append, List.length_replicate]
  obtain ⟨lower, upper⟩ := length_decimal_bounds (Nat.pos_of_ne_zero positive)
  obtain ⟨after, before⟩ := place_bounds nonzero finite lower upper
  have laid : ∃ numeral : DecimalNumeral, numeral.text = layout ⟨significand, exponent⟩ ∧
      Places numeral (significantDigits ⟨significand, exponent⟩)
        ((Numeral.decimal significand).length + exponent) := by
    simp only [layout]
    split
    · exact exists_positional _ nonempty all
    · apply exists_scientific nonempty all
      have limit : exponentLimit = 65536 := rfl
      omega
  obtain ⟨numeral, text_eq, spelled, placed⟩ := laid
  refine ⟨numeral, spelled, text_eq, ?_⟩
  have exponent_eq : (Numeral.decimal significand).length + exponent -
      (significantDigits ⟨significand, exponent⟩).length = exponent + zeros := by
    omega
  rw [placed, exponent_eq, ← codeOfDecimal_mul_pow, ← value]

/-! ## Texts -/

/-- The characters that numbers are written with. -/
def isTextChar (c : Char) : Bool :=
  c.isDigit || ".-einfNa".toList.contains c

theorem isTextChar_of_mem_integer {c : Char} {value : Int} (member : c ∈ Numeral.integer value) :
    isTextChar c = true := by
  have digit : c ∈ Numeral.decimal value.natAbs → isTextChar c = true := by
    intro inside
    have : c.isDigit = true := Nat.isDigit_of_mem_toDigits (by decide) (by decide) inside
    simp [isTextChar, this]
  unfold Numeral.integer at member
  split at member
  · rcases List.mem_cons.mp member with rfl | inside
    · decide
    · exact digit inside
  · exact digit member

theorem isTextChar_of_mem_text {numeral : DecimalNumeral} (spelled : numeral.Spelled) {c : Char}
    (member : c ∈ numeral.text) : isTextChar c = true := by
  obtain ⟨whole, fraction, exponent⟩ := numeral
  rcases List.mem_append.mp member with before | after
  · simp [isTextChar, spelled.whole c before]
  · rcases List.mem_append.mp after with middle | last
    · cases fraction with
      | none => simp at middle
      | some digits =>
          rcases List.mem_cons.mp middle with rfl | digit
          · decide
          · simp [isTextChar, spelled.fraction c digit]
    · cases exponent with
      | none => simp at last
      | some value =>
          rcases List.mem_cons.mp last with rfl | inside
          · decide
          · exact isTextChar_of_mem_integer inside

/-- The text of a finite number is a numeral nearest to it. -/
theorem exists_finiteText {x : Binary64} (finite : x.code < infinityCode) :
    ∃ numeral : DecimalNumeral, numeral.Spelled ∧ numeral.text = x.finiteText ∧
      codeOfDecimal numeral.toDecimal = x.code := by
  rw [finiteText_eq]
  by_cases zero : x.code = 0
  · have spelled : Spelled ⟨['0'], some ['0'], none⟩ := ⟨by simp, by simp, by simp, by simp⟩
    refine ⟨_, spelled, by simp [isZero, zero, DecimalNumeral.text], ?_⟩
    rw [toDecimal_eq spelled, zero]
    rfl
  · have nearest := codeOfDecimal_shortest finite
    have nonzero : x.isZero = false := by simpa [isZero] using zero
    rw [nonzero, if_neg Bool.false_ne_true, ← nearest]
    exact exists_layout (nearest ▸ Nat.ne_of_lt finite) (nearest ▸ zero)

theorem magnitudeOfText?_text {numeral : DecimalNumeral} (spelled : numeral.Spelled)
    (negative : Bool) :
    magnitudeOfText? negative numeral.text = some (ofDecimal negative numeral.toDecimal) := by
  obtain ⟨first, rest, text_eq, digit⟩ : ∃ first rest, numeral.text = first :: rest ∧
      first.isDigit = true := by
    cases whole_eq : numeral.whole with
    | nil => exact absurd whole_eq spelled.nonempty
    | cons first rest =>
        have digit := spelled.whole first (whole_eq ▸ List.mem_cons_self)
        exact ⟨first, _, by rw [DecimalNumeral.text, whole_eq, List.cons_append], digit⟩
  -- A word starts with a letter, in lower case as well.
  have lower : first.toLower ≠ 'i' ∧ first.toLower ≠ 'n' := by
    have below : first.val ≤ 57 := by
      simp only [Char.isDigit, Bool.and_eq_true, decide_eq_true_eq] at digit
      exact digit.2
    have kept : first.toLower = first :=
      dif_neg fun upper => absurd (UInt32.le_trans upper.1 below) (by decide)
    rw [kept]
    constructor <;> rintro rfl <;> exact absurd digit (by decide)
  have word : ∀ tail : List Char, numeral.text.map Char.toLower ≠ 'i' :: tail ∧
      numeral.text.map Char.toLower ≠ 'n' :: tail := by
    intro tail
    rw [text_eq]
    simp [lower]
  have read := read?_text spelled
  unfold magnitudeOfText?
  rw [if_neg, if_neg, read]
  · rfl
  · exact (word _).2
  · rintro (equal | equal)
    · exact (word _).1 equal
    · exact (word _).1 equal

theorem ofText?_signed {text : List Char} (negative : Bool)
    (unsigned : ∀ c ∈ text.head?, c ≠ '+' ∧ c ≠ '-') :
    ofText? (signed negative text) = magnitudeOfText? negative text := by
  cases negative with
  | true => rfl
  | false =>
      rw [signed, if_neg Bool.false_ne_true]
      unfold ofText?
      split
      · exact absurd rfl (unsigned '-' rfl).2
      · exact absurd rfl (unsigned '+' rfl).1
      · rfl

theorem code_lt_of_isNaN {x : Binary64} (number : x.isNaN = false)
    (bounded : x.isInfinite = false) :
    x.code < infinityCode := by
  simp only [isNaN, decide_eq_false_iff_not, isInfinite, beq_eq_false_iff_ne] at number bounded
  omega

/-- Reading the text of a number that is no NaN gives back its bits. -/
theorem ofText?_text {x : Binary64} (number : x.isNaN = false) : ofText? x.text = some x := by
  rw [text, number, if_neg Bool.false_ne_true]
  cases bounded : x.isInfinite with
  | true =>
      have code_eq : x.code = infinityCode := by simpa [isInfinite] using bounded
      rw [if_pos rfl, ofText?_signed _ (by rintro c ⟨⟩; decide)]
      rw [show magnitudeOfText? x.negative "inf".toList = some (infinity x.negative) from rfl,
        infinity, ← code_eq, ofCode_code]
  | false =>
      obtain ⟨numeral, spelled, text_eq, nearest⟩ :=
        exists_finiteText (code_lt_of_isNaN number bounded)
      have unsigned : ∀ c ∈ numeral.text.head?, c ≠ '+' ∧ c ≠ '-' := by
        obtain ⟨first, rest, whole_eq⟩ := List.exists_cons_of_ne_nil spelled.nonempty
        have digit := spelled.whole first (whole_eq ▸ List.mem_cons_self)
        rw [DecimalNumeral.text, whole_eq]
        rintro c ⟨⟩
        constructor <;> rintro rfl <;> exact absurd digit (by decide)
      rw [if_neg Bool.false_ne_true, ← text_eq, ofText?_signed _ unsigned,
        magnitudeOfText?_text spelled, ofDecimal, nearest, ofCode_code]

theorem isTextChar_of_mem {x : Binary64} {c : Char} (member : c ∈ x.text) :
    isTextChar c = true := by
  have words : ("NaN".toList ++ "inf".toList).all isTextChar = true := by decide
  rw [List.all_eq_true] at words
  unfold text signed at member
  split at member
  · exact words c (List.mem_append_left _ member)
  · rename_i number
    have unsigned : c ∈ (if x.isInfinite then "inf".toList else x.finiteText) →
        isTextChar c = true := by
      split
      · intro inside
        exact words c (List.mem_append_right _ inside)
      · rename_i bounded
        intro inside
        obtain ⟨numeral, spelled, text_eq, _⟩ :=
          exists_finiteText (code_lt_of_isNaN (by simpa using number) (by simpa using bounded))
        exact isTextChar_of_mem_text spelled (text_eq ▸ inside)
    split at member
    · rcases List.mem_cons.mp member with rfl | inside
      · decide
      · exact unsigned inside
    · exact unsigned member

/-! ## Operands -/

/-- The text of a number as an operand gives back its bits, whatever they are. -/
@[simp]
theorem ofOperand?_operandText (x : Binary64) : ofOperand? x.operandText = some x := by
  unfold operandText
  split
  · have read := Numeral.unsigned?_paddedHexadecimal 16 x.bits.toNat_lt
    simp only [ofOperand?]
    rw [show UInt64.size = 2 ^ 64 from rfl, read]
    simp
  · rename_i plain
    have read : ofText? x.text = some x := by
      cases number : x.isNaN with
      | false => exact ofText?_text number
      | true =>
          have quiet : x = nan := by simpa [number] using plain
          subst quiet
          rfl
    unfold ofOperand?
    split
    · rename_i digits text_eq
      have member : 'x' ∈ x.text := by simp [text_eq]
      exact absurd (isTextChar_of_mem member) (by decide)
    · exact read

end Binary64

end StackMachine
