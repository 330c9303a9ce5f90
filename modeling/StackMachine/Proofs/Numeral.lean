import StackMachine.Numeral

/-!
# Numerals read back

Reading a numeral undoes writing it: in decimal for every width of integer, and in hexadecimal with
any number of zeros in front.  A string of decimal digits of any origin reads as the number
`Nat.ofDigitChars` gives it.
-/

namespace StackMachine

namespace Numeral

/-! ## Digits -/

theorem digit?_digitChar {base digit : Nat} (small : digit < base) (bounded : base ≤ 16) :
    digit? base digit.digitChar = some digit := by
  have value : ∀ digit < 16,
      (if '0' ≤ digit.digitChar ∧ digit.digitChar ≤ '9' then digit.digitChar.toNat - '0'.toNat
      else if 'a' ≤ digit.digitChar ∧ digit.digitChar ≤ 'f' then
        digit.digitChar.toNat - 'a'.toNat + 10
      else if 'A' ≤ digit.digitChar ∧ digit.digitChar ≤ 'F' then
        digit.digitChar.toNat - 'A'.toNat + 10
      else base) = digit := by
    intro digit below
    match digit, below with
    | 0, _ | 1, _ | 2, _ | 3, _ | 4, _ | 5, _ | 6, _ | 7, _ => rfl
    | 8, _ | 9, _ | 10, _ | 11, _ | 12, _ | 13, _ | 14, _ | 15, _ => rfl
    | _ + 16, impossible => omega
  simp only [digit?, value digit (by omega), small, if_true]

theorem exists_digitChar_of_mem_toDigits {base value : Nat} {c : Char} (large : 1 < base)
    (member : c ∈ Nat.toDigits base value) : ∃ digit < base, c = digit.digitChar := by
  induction value using Nat.base_induction base large with
  | single digit small =>
      rw [Nat.toDigits_of_lt_base small, List.mem_singleton] at member
      exact ⟨digit, small, member⟩
  | digit front digit small positive induction =>
      rw [← Nat.toDigits_append_toDigits large positive small, List.mem_append] at member
      rcases member with earlier | last
      · exact induction earlier
      · rw [Nat.toDigits_of_lt_base small, List.mem_singleton] at last
        exact ⟨digit, small, last⟩

/-- No digit is a sign. -/
theorem ne_of_mem_toDigits {base value : Nat} {c sign : Char} (large : 1 < base)
    (signed : sign = '+' ∨ sign = '-') (member : c ∈ Nat.toDigits base value) : c ≠ sign := by
  obtain ⟨digit, _, rfl⟩ := exists_digitChar_of_mem_toDigits large member
  rcases signed with rfl | rfl
  · exact Nat.digitChar_ne '+' (by decide)
  · exact Nat.digitChar_ne '-' (by decide)

theorem decimal_ne_sign_cons {value : Nat} {sign : Char} {rest : List Char}
    (signed : sign = '+' ∨ sign = '-') : decimal value ≠ sign :: rest := by
  intro text_eq
  have member : sign ∈ Nat.toDigits 10 value := by
    rw [← decimal, text_eq]
    exact List.mem_cons_self
  exact ne_of_mem_toDigits (by decide) signed member rfl

/-! ## Numbers -/

/-- The number whose digits, the highest first, are given. -/
def ofDigits (base : Nat) (digits : List Nat) : Nat :=
  digits.foldl (fun value digit => value * base + digit) 0

theorem ofDigits_append_singleton (base digit : Nat) (digits : List Nat) :
    ofDigits base (digits ++ [digit]) = ofDigits base digits * base + digit := by
  simp [ofDigits]

theorem ofDigits_replicate_zero_append (base count : Nat) (digits : List Nat) :
    ofDigits base (List.replicate count 0 ++ digits) = ofDigits base digits := by
  induction count with
  | zero => rfl
  | succ count induction =>
      rw [List.replicate_succ, List.cons_append, ← induction]
      simp [ofDigits]

theorem natural?_eq_map_ofDigits (base : Nat) {text : List Char} (nonempty : text ≠ []) :
    natural? base text = (text.mapM (digit? base)).map (ofDigits base) := by
  cases text with
  | nil => exact absurd rfl nonempty
  | cons c rest =>
      simp only [natural?, continue?_eq_map_foldl]
      rfl

theorem exists_mapM_toDigits {base : Nat} (value : Nat) (large : 1 < base) (bounded : base ≤ 16) :
    ∃ digits, (Nat.toDigits base value).mapM (digit? base) = some digits ∧
      ofDigits base digits = value := by
  induction value using Nat.base_induction base large with
  | single digit small =>
      refine ⟨[digit], ?_, by simp [ofDigits]⟩
      rw [Nat.toDigits_of_lt_base small]
      simp [digit?_digitChar small bounded]
  | digit front digit small positive induction =>
      obtain ⟨digits, read, value_eq⟩ := induction
      refine ⟨digits ++ [digit], ?_, ?_⟩
      · rw [← Nat.toDigits_append_toDigits large positive small, Nat.toDigits_of_lt_base small,
          List.mapM_append, read]
        simp [digit?_digitChar small bounded]
      · rw [ofDigits_append_singleton, value_eq, Nat.mul_comm]

/-- Zeros in front of a numeral change nothing. -/
theorem natural?_replicate_zero_append_toDigits {base : Nat} (count value : Nat) (large : 1 < base)
    (bounded : base ≤ 16) :
    natural? base (List.replicate count '0' ++ Nat.toDigits base value) = some value := by
  obtain ⟨digits, read, value_eq⟩ := exists_mapM_toDigits value large bounded
  have zero : digit? base (Nat.digitChar 0) = some 0 := digit?_digitChar (by omega) bounded
  have zeros : (List.replicate count '0').mapM (digit? base) = some (List.replicate count 0) := by
    induction count with
    | zero => rfl
    | succ count induction =>
        rw [List.replicate_succ, List.mapM_cons, induction]
        simp [show digit? base '0' = some 0 from zero, List.replicate_succ]
  rw [natural?_eq_map_ofDigits base (by simp), List.mapM_append, zeros, read]
  simp [ofDigits_replicate_zero_append, value_eq]

theorem natural?_toDigits {base : Nat} (value : Nat) (large : 1 < base) (bounded : base ≤ 16) :
    natural? base (Nat.toDigits base value) = some value :=
  natural?_replicate_zero_append_toDigits 0 value large bounded

theorem digit?_ten_of_isDigit {c : Char} (digit : c.isDigit = true) :
    digit? 10 c = some (c.toNat - '0'.toNat) := by
  simp only [Char.isDigit, Bool.and_eq_true, decide_eq_true_eq, ge_iff_le] at digit
  have lower : '0' ≤ c := digit.1
  have upper : c ≤ '9' := digit.2
  have bound : c.toNat ≤ 57 := digit.2
  simp only [digit?, lower, upper, and_self, if_true]
  rw [if_pos]
  show c.toNat - 48 < 10
  omega

theorem natural?_ten_of_isDigit {text : List Char} (nonempty : text ≠ [])
    (digits : ∀ c ∈ text, c.isDigit = true) :
    natural? 10 text = some (Nat.ofDigitChars 10 text 0) := by
  have read : text.mapM (digit? 10) = some (text.map fun c => c.toNat - '0'.toNat) := by
    clear nonempty
    induction text with
    | nil => rfl
    | cons c rest induction =>
        have head := digit?_ten_of_isDigit (digits c List.mem_cons_self)
        have tail := induction fun d member => digits d (List.mem_cons_of_mem c member)
        simp [List.mapM_cons, head, tail]
  rw [natural?_eq_map_ofDigits 10 nonempty, read]
  simp only [Option.map_some, ofDigits, List.foldl_map, Nat.ofDigitChars, Nat.mul_comm]

/-! ## Numerals of a given width -/

theorem unsigned?_of_ne_plus {base limit : Nat} {text : List Char}
    (unsigned : ∀ c ∈ text, c ≠ '+') :
    unsigned? base limit text =
      (natural? base text).bind fun value => if value < limit then some value else none := by
  unfold unsigned?
  split
  · exact absurd rfl (unsigned '+' List.mem_cons_self)
  · dsimp only
    cases natural? base text <;> rfl

theorem unsigned?_replicate_zero_append_toDigits {base limit : Nat} (count : Nat) {value : Nat}
    (large : 1 < base) (bounded : base ≤ 16) (small : value < limit) :
    unsigned? base limit (List.replicate count '0' ++ Nat.toDigits base value) = some value := by
  have unsigned : ∀ c ∈ List.replicate count '0' ++ Nat.toDigits base value, c ≠ '+' := by
    intro c member
    rcases List.mem_append.mp member with zero | digit
    · rw [(List.mem_replicate.mp zero).2]
      decide
    · exact ne_of_mem_toDigits large (.inl rfl) digit
  rw [unsigned?_of_ne_plus unsigned,
    natural?_replicate_zero_append_toDigits count value large bounded]
  simp [small]

theorem unsigned?_paddedHexadecimal {limit value : Nat} (width : Nat) (small : value < limit) :
    unsigned? 16 limit (paddedHexadecimal width value) = some value :=
  unsigned?_replicate_zero_append_toDigits _ (by decide) (by decide) small

theorem unsigned?_decimal {limit value : Nat} (small : value < limit) :
    unsigned? 10 limit (decimal value) = some value :=
  unsigned?_replicate_zero_append_toDigits 0 (by decide) (by decide) small

@[simp]
theorem uint32?_decimal (value : UInt32) : uint32? (decimal value.toNat) = some value := by
  rw [uint32?, unsigned?_decimal value.toNat_lt]
  simp

@[simp]
theorem uint8?_decimal (value : UInt8) : uint8? (decimal value.toNat) = some value := by
  rw [uint8?, unsigned?_decimal value.toNat_lt]
  simp

theorem int64OfInt?_toInt (value : Int64) : int64OfInt? value.toInt = some value := by
  have lower : Int64.minValue.toInt ≤ value.toInt := Int64.minValue_le_toInt value
  have upper : value.toInt ≤ Int64.maxValue.toInt := Int64.toInt_le value
  rw [int64OfInt?, if_pos ⟨lower, upper⟩, Int64.ofInt_toInt]

theorem int64?_of_ne_sign {text : List Char} (unsigned : ∀ c ∈ text, c ≠ '+' ∧ c ≠ '-') :
    int64? text = (natural? 10 text).bind fun value => int64OfInt? value := by
  unfold int64?
  split
  · exact absurd rfl (unsigned '-' List.mem_cons_self).2
  · exact absurd rfl (unsigned '+' List.mem_cons_self).1
  · rfl

@[simp]
theorem int64?_integer (value : Int64) : int64? (integer value.toInt) = some value := by
  have read : natural? 10 (decimal value.toInt.natAbs) = some value.toInt.natAbs :=
    natural?_toDigits _ (by decide) (by decide)
  unfold integer
  split
  · rename_i negative
    have restored : -(value.toInt.natAbs : Int) = value.toInt := by omega
    simp only [int64?, read, Option.bind_some, restored, int64OfInt?_toInt]
  · rename_i nonnegative
    have restored : (value.toInt.natAbs : Int) = value.toInt := by omega
    rw [int64?_of_ne_sign, read]
    · simp only [Option.bind_some, restored, int64OfInt?_toInt]
    · intro c member
      exact ⟨ne_of_mem_toDigits (by decide) (.inl rfl) member,
        ne_of_mem_toDigits (by decide) (.inr rfl) member⟩

end Numeral

end StackMachine
