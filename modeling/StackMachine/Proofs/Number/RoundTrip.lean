import StackMachine.Proofs.Machine.Typing
import StackMachine.Proofs.Number.Grammar

/-!
# Numbers read back from their text

The text of an integer is an integer numeral.  The text of a finite float has a point or an
exponent, so that it is never taken for an integer, whichever of its two layouts it has.  The texts
of all other values but strings spell no number.  A number converted to a string therefore converts
back to itself.
-/

namespace StackMachine

/-! ## Texts without blanks -/

namespace Binary64

theorem isTextChar_spec {c : Char} (textual : isTextChar c = true) :
    c.toNat ≤ 127 ∧ Text.isAsciiBlank c = false := by
  have all : ("0123456789".toList ++ ".-einfNa".toList).all
      (fun c => c.toNat ≤ 127 ∧ Text.isAsciiBlank c = false) = true := by decide
  rw [isTextChar, Bool.or_eq_true, ← Grammar.mem_decimalDigits, List.contains_iff_mem] at textual
  exact of_decide_eq_true (List.all_eq_true.mp all c (List.mem_append.mpr textual))

end Binary64

namespace Number

open Grammar

/-- Nothing is trimmed from a text in ASCII that neither starts nor ends with a blank. -/
theorem trimmed_encode {text : List Char} (ascii : ∀ c ∈ text, c.toNat ≤ 127)
    (first : ∀ c ∈ text.head?, Text.isAsciiBlank c = false)
    (last : ∀ c ∈ text.getLast?, Text.isAsciiBlank c = false) :
    trimmed (Utf8.encode text) = text := by
  rw [← trimBy_map, Utf8.map_ofNat_encode ascii, Text.trimBy]
  have front : text.dropWhile Text.isAsciiBlank = text := by
    cases text with
    | nil => rfl
    | cons c rest => exact List.dropWhile_cons_of_neg (by simpa using first c rfl)
  have back : text.reverse.dropWhile Text.isAsciiBlank = text.reverse := by
    rw [← List.head?_reverse] at last
    cases reversed : text.reverse with
    | nil => rfl
    | cons c rest =>
        exact List.dropWhile_cons_of_neg (by simpa using last c (by rw [reversed]; rfl))
  rw [front, back, List.reverse_reverse]

theorem trimmed_encode_of_isTextChar {text : List Char}
    (textual : ∀ c ∈ text, Binary64.isTextChar c = true) : trimmed (Utf8.encode text) = text := by
  have spec (c : Char) (member : c ∈ text) := Binary64.isTextChar_spec (textual c member)
  exact trimmed_encode (fun c member => (spec c member).1)
    (fun c first => (spec c (List.mem_of_mem_head? first)).2)
    (fun c last => (spec c (List.mem_of_mem_getLast? last)).2)

/-! ## Integers -/

theorem spellsMagnitude_decimal (value : Nat) : SpellsMagnitude (Numeral.decimal value) value := by
  have read : Numeral.natural? 10 (Numeral.decimal value) = some value :=
    Numeral.natural?_toDigits value (by decide) (by decide)
  obtain ⟨matched, value_eq⟩ := alphabet_decimal.natural?_eq_some_iff.mp read
  have spelled := SpellsMagnitude.decimal matched
  rwa [← value_eq] at spelled

theorem spellsInteger_integer (value : Int) : SpellsInteger (Numeral.integer value) value := by
  have spelled := spellsMagnitude_decimal value.natAbs
  unfold Numeral.integer
  split
  · have signed := SpellsInteger.signed (mem_sign.mpr (.inr (.inr rfl))) spelled
    have restored : withSign (['-'] == ['-']) value.natAbs = value := by
      rw [beq_self_eq_true, withSign, if_pos rfl]
      omega
    rwa [restored] at signed
  · have signed := SpellsInteger.signed (mem_sign.mpr (.inl rfl)) spelled
    have restored : withSign (([] : List Char) == ['-']) value.natAbs = value := by
      change (value.natAbs : Int) = value
      omega
    rwa [restored] at signed

theorem ofBytes?_integer (value : Int64) :
    ofBytes? (Utf8.encode (Numeral.integer value.toInt)) = some (int value) := by
  have textual : ∀ c ∈ Numeral.integer value.toInt, Binary64.isTextChar c = true :=
    fun _ => Binary64.isTextChar_of_mem_integer
  rw [ofBytes?_eq_int_iff, trimmed_encode_of_isTextChar textual]
  exact spellsInteger_integer value.toInt

end Number

/-! ## Finite floats -/

namespace Binary64

open DecimalNumeral

/-- A text with a character that is no digit is no integer numeral. -/
theorem isInteger_eq_false {numeral : DecimalNumeral} (spelled : numeral.Spelled) {c : Char}
    (member : c ∈ numeral.text) (other : c.isDigit = false) : numeral.isInteger = false := by
  cases integer : numeral.isInteger with
  | false => rfl
  | true =>
      simp only [isInteger, Bool.and_eq_true, Option.isNone_iff_eq_none] at integer
      have whole : numeral.text = numeral.whole := by
        simp [DecimalNumeral.text, integer]
      rw [whole] at member
      cases (spelled.whole c member).symm.trans other

/-- The text of a finite number has a point or an exponent. -/
theorem exists_mem_finiteText (x : Binary64) : ∃ c ∈ x.finiteText, c.isDigit = false := by
  rw [finiteText_eq]
  split
  · exact ⟨'.', by decide, by decide⟩
  · rw [layout]
    split
    · refine ⟨'.', ?_, by decide⟩
      unfold positional
      split <;> simp
    · refine ⟨'e', ?_, by decide⟩
      simp [scientific]

/-- An integer written out in full is exact. -/
theorem codeOfDecimal_whole {x : Binary64} (finite : x.code < infinityCode)
    (integral : x.magnitude % unitsInOne = 0) :
    codeOfDecimal ⟨x.magnitude / unitsInOne, 0⟩ = x.code := by
  have exact_eq : x.magnitude / unitsInOne * unitsInOne = x.magnitude :=
    Nat.div_mul_cancel (Nat.dvd_of_mod_eq_zero integral)
  rw [codeOfDecimal_eq]
  simp only [Decimal.numerator, Decimal.denominator, Int.toNat_zero, Int.neg_zero, pow_zero,
    Nat.mul_one, exact_eq]
  exact roundCode_magnitudeOfCode finite

/-- The text shown of a finite number is a numeral nearest to it, and not that of an integer. -/
theorem exists_displayText {x : Binary64} (number : x.isNaN = false)
    (bounded : x.isInfinite = false) :
    ∃ numeral : DecimalNumeral, numeral.Spelled ∧ numeral.isInteger = false ∧
      x.displayText = signed x.negative numeral.text ∧
      codeOfDecimal numeral.toDecimal = x.code := by
  have finite := code_lt_of_isNaN number bounded
  simp only [displayText, number, bounded, Bool.false_eq_true, if_false]
  split
  · rename_i whole
    let digits := Numeral.decimal (x.magnitude / unitsInOne)
    have spelled : Spelled ⟨digits, some ['0'], none⟩ := by
      refine ⟨Nat.toDigits_ne_nil, fun c member => ?_, by simp, by simp⟩
      exact Nat.isDigit_of_mem_toDigits (by decide) (by decide) member
    have value : Nat.ofDigitChars 10 (digits ++ ['0']) 0 = x.magnitude / unitsInOne * 10 ^ 1 := by
      have read : Nat.ofDigitChars 10 digits 0 = x.magnitude / unitsInOne :=
        Nat.ofDigitChars_ten_toDigits
      rw [Nat.ofDigitChars_append, read, Nat.mul_comm]
      rfl
    refine ⟨_, spelled, rfl, rfl, ?_⟩
    rw [toDecimal_eq spelled, Option.getD_some, value, codeOfDecimal_mul_pow]
    exact codeOfDecimal_whole finite whole.1
  · obtain ⟨numeral, spelled, text_eq, nearest⟩ := exists_finiteText finite
    obtain ⟨c, member, other⟩ := x.exists_mem_finiteText
    refine ⟨numeral, spelled, isInteger_eq_false spelled (text_eq ▸ member) other, ?_, nearest⟩
    rw [text_eq]
    simp only [Binary64.text, number, bounded, Bool.false_eq_true, if_false]

end Binary64

namespace Number

open Grammar

theorem splitSign_signed {text : List Char} (negative : Bool) (unsigned : Unsigned text) :
    splitSign (Binary64.signed negative text) = (if negative then ['-'] else [], text) := by
  cases negative with
  | true => rfl
  | false => exact splitSign_of_unsigned unsigned

/-- The text of a finite float reads back to its bits. -/
theorem ofBytes?_displayText {x : Binary64} (number : x.isNaN = false)
    (bounded : x.isInfinite = false) :
    ofBytes? (Utf8.encode x.displayText) = some (float x) := by
  obtain ⟨numeral, spelled, fractional, text_eq, nearest⟩ :=
    Binary64.exists_displayText number bounded
  have read := DecimalNumeral.read?_text spelled
  have textual : ∀ c ∈ x.displayText, Binary64.isTextChar c = true := by
    intro c member
    rw [text_eq, Binary64.signed] at member
    split at member
    · rcases List.mem_cons.mp member with rfl | inside
      · decide
      · exact Binary64.isTextChar_of_mem_text spelled inside
    · exact Binary64.isTextChar_of_mem_text spelled member
  have sign : ((if x.negative then ['-'] else []) == ['-']) = x.negative := by
    cases x.negative <;> rfl
  rw [ofBytes?_eq, trimmed_encode_of_isTextChar textual, text_eq,
    splitSign_signed _ (DecimalNumeral.unsigned_of_read? read)]
  simp only
  rw [sign, ofMagnitude?_of_read? read]
  rcases ofNumeral_cases x.negative numeral with ⟨integer, _⟩ | float_eq
  · cases fractional.symm.trans integer
  · rw [float_eq, Binary64.ofDecimal, nearest, Binary64.ofCode_code]

end Number

/-! ## Values -/

namespace Value

/-- The number that a value is, when it is an integer or a finite float. -/
def finite? : Value → Option Number
  | int value => some (.int value)
  | float x => if x.isNaN || x.isInfinite then none else some (.float x)
  | nil | bool _ | string _ | native _ => none

end Value

/-- The declared type of the numbers of a kind. -/
def Number.type : Number → ParameterType
  | int _ => .int
  | float _ => .float

namespace Value

/-- The text of a handle spells no number, since none starts with its bracket. -/
theorem ofBytes?_text_native (heap : StringHeap) (handle : NativeHandle) :
    Number.ofBytes? (Utf8.encode ((Value.native handle).text heap)) = none := by
  have ascii : ∀ c ∈ (Value.native handle).text heap, c.toNat ≤ 127 := by
    intro c member
    rcases List.mem_append.mp member with front | bracket
    · rcases List.mem_append.mp front with word | digit
      · have all : "<native 0x".toList.all (fun c => c.toNat ≤ 127) = true := by decide
        exact of_decide_eq_true (List.all_eq_true.mp all c word)
      · obtain ⟨value, small, rfl⟩ := Numeral.exists_digitChar_of_mem_toDigits (by decide) digit
        have all : ∀ value < 16, value.digitChar.toNat ≤ 127 := by decide
        exact all value small
    · rw [List.mem_singleton.mp bracket]
      decide
  have last : ((Value.native handle).text heap).getLast? = some '>' := List.getLast?_concat
  have kept := Number.trimmed_encode ascii (by rintro c ⟨⟩; decide) (by
    rintro c found
    cases last.symm.trans found
    decide)
  rw [Number.ofBytes?_eq, kept]
  rfl

/-- The words that stand for values spell no number. -/
theorem ofBytes?_word : ∀ word ∈ ["nil", "true", "false", "nan", "inf", "-inf"],
    Number.ofBytes? (Utf8.encode word.toList) = none := by
  decide +kernel

theorem ofBytes?_text_float (x : Binary64) :
    Number.ofBytes? (Utf8.encode x.displayText) = (Value.float x).finite? := by
  cases number : x.isNaN with
  | true =>
      rw [Binary64.displayText, if_pos number, finite?, number, Bool.true_or, if_pos rfl]
      exact ofBytes?_word "nan" (by decide)
  | false =>
      cases bounded : x.isInfinite with
      | true =>
          rw [Binary64.displayText, number, if_neg Bool.false_ne_true, if_pos bounded, finite?,
            bounded, Bool.or_true, if_pos rfl]
          cases x.negative with
          | true => exact ofBytes?_word "-inf" (by decide)
          | false => exact ofBytes?_word "inf" (by decide)
      | false =>
          rw [Number.ofBytes?_displayText number bounded, finite?, number, bounded, Bool.or_self,
            if_neg Bool.false_ne_true]

/-- A value other than a string is read from its text when it is a finite number. -/
theorem ofBytes?_text {value : Value} (plain : value.string? = none) (heap : StringHeap) :
    Number.ofBytes? (Utf8.encode (value.text heap)) = value.finite? := by
  cases value with
  | nil => exact ofBytes?_word "nil" (by decide)
  | bool value =>
      cases value with
      | true => exact ofBytes?_word "true" (by decide)
      | false => exact ofBytes?_word "false" (by decide)
  | int value => exact Number.ofBytes?_integer value
  | float x => exact ofBytes?_text_float x
  | string ref => cases plain
  | native handle => exact ofBytes?_text_native heap handle

theorem toValue_of_finite? {value : Value} {number : Number}
    (finite : value.finite? = some number) : number.toValue = value := by
  cases value with
  | int value =>
      cases finite
      rfl
  | float x =>
      obtain ⟨_, same⟩ := Option.ite_none_left_eq_some.mp finite
      cases same
      rfl
  | _ => cases finite

end Value

namespace Machine

/-- A string that spells a number converts to the type of the number. -/
theorem apply_coerce_of_ofBytes? {machine : Machine} {ref : StringRef} {bytes : List UInt8}
    {number : Number} (content : machine.heap.bytes? ref = some bytes)
    (read : Number.ofBytes? bytes = some number) :
    (coerce number.type (.string ref)).apply machine = (.ok (some number.toValue), machine) := by
  have found : (Value.string ref).numberIn? machine.heap = some number := by
    rw [Value.numberIn?, Value.string?, Option.bind_some, content, Option.bind_some, read]
  cases number with
  | int value =>
      change (Except.ok (((Value.string ref).toInt? machine.heap).map Value.int), machine) = _
      rw [Value.toInt?, found]
      rfl
  | float x =>
      change (Except.ok (((Value.string ref).toFloat? machine.heap).map Value.float), machine) = _
      rw [Value.toFloat?, found]
      rfl

/-- The text of a value that is no string is read back as the number that the value is, or as
nothing when it is no finite number.  A finite number converted to a string converts back to
itself. -/
theorem text_round_trip (machine : Machine) {value : Value} (plain : value.string? = none) :
    Number.ofBytes? (Utf8.encode (value.text machine.heap)) = value.finite? ∧
      ∀ number, value.finite? = some number →
        ∃ converted after, (coerce .string value).apply machine = (.ok (some converted), after) ∧
          (coerce number.type converted).apply after = (.ok (some value), after) := by
  have read := Value.ofBytes?_text plain machine.heap
  refine ⟨read, fun number finite => ?_⟩
  rw [finite] at read
  rw [apply_coerce_string plain, Update.apply_bind,
    apply_newString (Value.checkLength_text plain _)]
  refine ⟨_, _, rfl, ?_⟩
  rw [← Value.toValue_of_finite? finite] at read ⊢
  apply apply_coerce_of_ofBytes? _ read
  rw [StringHeap.bytes?_store, if_pos rfl]

theorem text_round_trip_negative_zero :
    Number.ofBytes? (Utf8.encode "-0.0".toList) = some (.float (.zero true)) ∧
      ∃ converted after,
        (coerce .string (.float (.zero true))).apply { stack := ⟨{}, {}⟩ } =
          (.ok (some converted), after) ∧
        (coerce .float converted).apply after = (.ok (some (.float (.zero true))), after) := by
  have shown : (Value.float (.zero true)).text {} = "-0.0".toList := by decide +kernel
  have finite : (Value.float (.zero true)).finite? = some (.float (.zero true)) := by decide +kernel
  obtain ⟨read, restored⟩ := @text_round_trip { stack := ⟨{}, {}⟩ } (.float (.zero true)) rfl
  rw [shown, finite] at read
  exact ⟨read, restored _ finite⟩

end Machine

end StackMachine
