import StackMachine.Proofs.Binary64.Text
import StackMachine.Value

/-!
# Texts and their bytes

The bytes of a text read back to it, and a text in ASCII starts another one when its bytes do.  The
text of a value that is no string is short, since numbers have bounded numerals, so a string can
always be made of it.
-/

namespace StackMachine

/-! ## Bytes -/

namespace Utf8

theorem toByteArray_eq_encode (text : String) :
    text.toByteArray = ⟨(encode text.toList).toArray⟩ := by
  rw [← String.ofList_toList (s := text), String.toByteArray_ofList]
  apply ByteArray.ext
  rw [List.utf8Encode, List.data_toByteArray, String.toList_ofList, encode]

/-- Bytes are read exactly as the text that is written with them. -/
theorem decode?_eq_some_iff {bytes : List UInt8} {text : String} :
    decode? bytes = some text ↔ bytes = encode text.toList := by
  unfold decode? String.fromUTF8?
  constructor
  · intro read
    split at read
    · rename_i valid
      cases read
      have bytes_eq := toByteArray_eq_encode (String.fromUTF8 ⟨bytes.toArray⟩ valid)
      exact congrArg (fun array => array.data.toList) bytes_eq
    · cases read
  · rintro rfl
    rw [← toByteArray_eq_encode, dif_pos text.isValidUTF8]
    rfl

/-- A character in ASCII is one byte, and any other starts with a byte outside ASCII. -/
theorem utf8EncodeChar_cases (c : Char) :
    c.toNat ≤ 127 ∧ String.utf8EncodeChar c = [UInt8.ofNat c.toNat] ∨
      127 < c.toNat ∧ ∃ first rest,
        127 < first.toNat ∧ String.utf8EncodeChar c = first :: rest := by
  unfold String.utf8EncodeChar
  simp only
  split
  · exact .inl ⟨‹_›, rfl⟩
  · rename_i outside
    refine .inr ⟨Nat.lt_of_not_le outside, ?_⟩
    split
    · exact ⟨_, _, by simp; omega, rfl⟩
    · split
      · exact ⟨_, _, by simp; omega, rfl⟩
      · exact ⟨_, _, by simp; omega, rfl⟩

theorem utf8EncodeChar_ascii {c : Char} (ascii : c.toNat ≤ 127) :
    String.utf8EncodeChar c = [UInt8.ofNat c.toNat] := by
  rcases utf8EncodeChar_cases c with ⟨_, one⟩ | ⟨outside, _⟩
  · exact one
  · omega

theorem encode_cons_ascii {c : Char} (ascii : c.toNat ≤ 127) (text : List Char) :
    encode (c :: text) = UInt8.ofNat c.toNat :: encode text := by
  rw [encode, List.flatMap_cons, utf8EncodeChar_ascii ascii]
  rfl

/-- The character with the number of a byte. -/
theorem toNat_ofNat_toNat (byte : UInt8) : (Char.ofNat byte.toNat).toNat = byte.toNat := by
  have all : ∀ n < 256, (Char.ofNat n).toNat = n := by decide +kernel
  exact all byte.toNat byte.toNat_lt

/-- Bytes in ASCII are the bytes of the characters with their numbers. -/
theorem encode_map_ofNat {bytes : List UInt8} (ascii : ∀ byte ∈ bytes, byte.toNat ≤ 127) :
    encode (bytes.map fun byte => Char.ofNat byte.toNat) = bytes := by
  induction bytes with
  | nil => rfl
  | cons byte rest induction =>
      obtain ⟨here, later⟩ := List.forall_mem_cons.mp ascii
      rw [← toNat_ofNat_toNat byte] at here
      rw [List.map_cons, encode_cons_ascii here, induction later, toNat_ofNat_toNat,
        UInt8.ofNat_toNat]

/-- Read a byte at a time, the bytes of a text in ASCII give the text. -/
theorem map_ofNat_encode {text : List Char} (ascii : ∀ c ∈ text, c.toNat ≤ 127) :
    ((encode text).map fun byte => Char.ofNat byte.toNat) = text := by
  induction text with
  | nil => rfl
  | cons c rest induction =>
      obtain ⟨here, later⟩ := List.forall_mem_cons.mp ascii
      rw [encode_cons_ascii here, List.map_cons, induction later,
        UInt8.toNat_ofNat_of_lt' (show c.toNat < 256 by omega), Char.ofNat_toNat]

/-- The byte of a character in ASCII starts no other character. -/
theorem eq_of_utf8EncodeChar_eq_cons {c d : Char} {rest : List UInt8} (ascii : c.toNat ≤ 127)
    (starts : String.utf8EncodeChar d = UInt8.ofNat c.toNat :: rest) : d = c := by
  rcases utf8EncodeChar_cases d with ⟨_, one⟩ | ⟨_, first, others, outside, several⟩
  · rw [one, List.cons.injEq] at starts
    apply Char.toNat_inj.mp
    simpa [show c.toNat % 256 = c.toNat by omega, show d.toNat % 256 = d.toNat by omega] using
      congrArg UInt8.toNat starts.1
  · rw [several, List.cons.injEq] at starts
    rw [starts.1, UInt8.toNat_ofNat_of_lt' (show c.toNat < 256 by omega)] at outside
    omega

theorem encode_prefix_encode_iff {front text : List Char} (ascii : ∀ c ∈ front, c.toNat ≤ 127) :
    encode front <+: encode text ↔ front <+: text := by
  induction front generalizing text with
  | nil => exact iff_of_true List.nil_prefix List.nil_prefix
  | cons c front induction =>
      obtain ⟨here, later⟩ := List.forall_mem_cons.mp ascii
      have first := encode_cons_ascii here front
      cases text with
      | nil => simp [encode]
      | cons d text =>
          obtain ⟨byte, rest, found⟩ : ∃ byte rest, String.utf8EncodeChar d = byte :: rest :=
            List.exists_cons_of_ne_nil (by simp)
          have second : encode (d :: text) = byte :: (rest ++ encode text) := by
            simp [encode, found]
          rw [List.cons_prefix_cons, first, second, List.cons_prefix_cons]
          constructor
          · rintro ⟨rfl, remains⟩
            obtain rfl := eq_of_utf8EncodeChar_eq_cons here found
            rw [utf8EncodeChar_ascii here, List.cons.injEq] at found
            rw [← found.2, List.nil_append, induction later] at remains
            exact ⟨rfl, remains⟩
          · rintro ⟨rfl, remains⟩
            rw [utf8EncodeChar_ascii here, List.cons.injEq] at found
            rw [← found.2, List.nil_append, induction later]
            exact ⟨found.1, remains⟩

theorem length_encode_le (text : List Char) : (encode text).length ≤ 4 * text.length := by
  induction text with
  | nil => rfl
  | cons c rest induction =>
      have width := c.utf8Size_le_four
      simp only [encode, List.flatMap_cons, List.length_append, String.length_utf8EncodeChar,
        List.length_cons] at induction ⊢
      omega

end Utf8

/-! ## The lengths of numerals -/

theorem Numeral.length_integer_le {value : Int} {count : Nat} (positive : 0 < count)
    (small : value.natAbs < 10 ^ count) : (integer value).length ≤ count + 1 := by
  have digits : (decimal value.natAbs).length ≤ count :=
    (Nat.length_toDigits_le_iff (by decide) positive).mpr small
  unfold integer
  split
  · exact Nat.succ_le_succ digits
  · omega

namespace Binary64

theorem length_significantDigits_le (decimal : Decimal) :
    (significantDigits decimal).length ≤ (Numeral.decimal decimal.significand).length := by
  obtain ⟨zeros, digits_eq⟩ := exists_zeros decimal
  rw [digits_eq, List.length_append]
  exact Nat.le_add_right _ _

theorem length_positional_le (digits : List Char) {place : Int} (lower : -3 ≤ place)
    (upper : place ≤ 16) : (positional digits place).length ≤ digits.length + 18 := by
  unfold positional
  split
  · simp only [List.length_cons, List.length_append, List.length_replicate]
    omega
  · simp only [List.length_append, List.length_cons, List.length_replicate, List.length_take]
    split
    · simp only [List.length_cons, List.length_nil]
      omega
    · simp only [List.length_drop]
      omega

theorem length_scientific_le (digits : List Char) {place : Int} (lower : -400 < place)
    (upper : place < 402) : (scientific digits place).length ≤ digits.length + 6 := by
  have exponent : (Numeral.integer (place - 1)).length ≤ 4 :=
    Numeral.length_integer_le (by decide) (show _ < 10 ^ 3 by omega)
  unfold scientific
  split <;> simp only [List.length_append, List.length_cons] <;> omega

/-- No digit of the decimal chosen for a number stands further down than those of its exact
value. -/
theorem le_exponent_shortest (x : Binary64) : -1074 ≤ x.shortest.exponent := by
  unfold shortest
  cases found : (List.range 17).findSome? fun (further : Nat) =>
      (x.candidates (x.place - 1 - further)).find? fun decimal =>
        ofDecimal x.negative decimal == x with
  | none =>
      simp only [found, Option.getD_none]
      exact Int.le_refl _
  | some decimal =>
      obtain ⟨further, near, chosen⟩ := List.exists_of_findSome?_eq_some found
      have exponent_eq : decimal.exponent = x.place - 1 - further := by
        have member := List.mem_of_find?_eq_some chosen
        unfold candidates at member
        simp only at member
        split at member <;> simp only [List.mem_cons, List.not_mem_nil, or_false] at member <;>
          rcases member with rfl | rfl <;> rfl
      have place_ge : -400 ≤ x.place := by
        unfold place
        omega
      have few := List.mem_range.mp near
      simp only [found, Option.getD_some, exponent_eq]
      omega

theorem length_layout_le {decimal : Decimal} (finite : codeOfDecimal decimal ≠ infinityCode)
    (nonzero : codeOfDecimal decimal ≠ 0) (fine : -1074 ≤ decimal.exponent) :
    (layout decimal).length ≤ 1500 := by
  have positive : 0 < decimal.significand := by
    apply Nat.pos_of_ne_zero
    intro zero
    exact nonzero (by rw [codeOfDecimal, if_pos zero])
  obtain ⟨lower, upper⟩ := length_decimal_bounds positive
  obtain ⟨after, before⟩ := place_bounds nonzero finite lower upper
  have digits := length_significantDigits_le decimal
  simp only [layout]
  split
  · rename_i near
    have := length_positional_le (significantDigits decimal) near.1 near.2
    omega
  · have := length_scientific_le (significantDigits decimal) after before
    omega

theorem length_finiteText_le {x : Binary64} (finite : x.code < infinityCode) :
    x.finiteText.length ≤ 1500 := by
  rw [finiteText_eq]
  cases zero : x.isZero with
  | true =>
      rw [if_pos rfl]
      simp
  | false =>
      have nonzero : x.code ≠ 0 := by simpa [isZero] using zero
      have nearest := codeOfDecimal_shortest finite
      rw [if_neg Bool.false_ne_true]
      exact length_layout_le (nearest ▸ Nat.ne_of_lt finite) (nearest ▸ nonzero)
        (le_exponent_shortest x)

theorem length_text_le {x : Binary64} (number : x.isNaN = false) (bounded : x.isInfinite = false) :
    x.text.length ≤ 1501 := by
  have unsigned := length_finiteText_le (code_lt_of_isNaN number bounded)
  simp only [text, number, bounded, signed, Bool.false_eq_true, if_false]
  split
  · rw [List.length_cons]
    omega
  · omega

theorem length_displayText_le (x : Binary64) : x.displayText.length ≤ 1501 := by
  have sign (text : List Char) : (signed x.negative text).length ≤ text.length + 1 := by
    unfold signed
    split <;> simp
  unfold displayText
  split
  · decide
  · split
    · exact Nat.le_trans (sign _) (by decide)
    · rename_i number bounded
      simp only
      split
      · rename_i whole
        have digits : (Numeral.decimal (x.magnitude / unitsInOne)).length ≤ 21 :=
          (Nat.length_toDigits_le_iff (by decide) (by decide)).mpr whole.2
        have signs := sign (Numeral.decimal (x.magnitude / unitsInOne) ++ ".0".toList)
        simp only [List.length_append] at signs
        exact Nat.le_trans signs (by simp; omega)
      · exact length_text_le (by simpa using number) (by simpa using bounded)

end Binary64

/-! ## The lengths of texts of values -/

namespace Value

theorem length_text_le {value : Value} (plain : value.string? = none) (heap : StringHeap) :
    (value.text heap).length ≤ 1501 := by
  cases value with
  | nil =>
      change "nil".toList.length ≤ 1501
      simp
  | bool value =>
      change (if value then "true" else "false").toList.length ≤ 1501
      split <;> simp
  | int value =>
      have small : value.toInt.natAbs < 10 ^ 19 := by
        have lower := value.le_toInt
        have upper := value.toInt_lt
        omega
      have digits := Numeral.length_integer_le (by decide) small
      change (Numeral.integer value.toInt).length ≤ 1501
      omega
  | float value => exact value.length_displayText_le
  | string ref => cases plain
  | native handle =>
      have small : handle.raw.toNat < 16 ^ 16 := handle.raw.toNat_lt.trans_eq (by norm_num)
      have digits : (Numeral.hexadecimal handle.raw.toNat).length ≤ 16 :=
        (Nat.length_toDigits_le_iff (by decide) (by decide)).mpr small
      change ("<native 0x".toList ++ Numeral.hexadecimal handle.raw.toNat ++ ['>']).length ≤ 1501
      simp only [List.length_append, String.length_toList, List.length_singleton]
      have front : "<native 0x".length = 10 := rfl
      omega

/-- A string can be made of the text of any value that is no string. -/
theorem checkLength_text {value : Value} (plain : value.string? = none) (heap : StringHeap) :
    StringHeap.checkLength (Utf8.encode (value.text heap)) = .ok () := by
  have short := length_text_le plain heap
  have bytes := Utf8.length_encode_le (value.text heap)
  have limit : StringHeap.maxLength = 4294967295 := rfl
  rw [StringHeap.checkLength, if_neg (by omega)]

end Value

end StackMachine
