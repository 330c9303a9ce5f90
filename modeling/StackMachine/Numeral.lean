/-!
# Numerals

Reading and writing whole numbers. A numeral has at least one digit and no separators; an unsigned
one may start with a single `+`, a signed one with a single `+` or `-`. A number outside the range
asked for is not read at all.
-/

namespace StackMachine

namespace Numeral

/-! ## Writing -/

/-- The decimal digits of a natural number. -/
def decimal (value : Nat) : List Char :=
  Nat.toDigits 10 value

/-- The decimal text of an integer. -/
def integer (value : Int) : List Char :=
  if value < 0 then '-' :: decimal value.natAbs else decimal value.natAbs

/-- The lower-case hexadecimal digits of a natural number. -/
def hexadecimal (value : Nat) : List Char :=
  Nat.toDigits 16 value

/-- Hexadecimal digits with zeros in front up to a least width. -/
def paddedHexadecimal (width value : Nat) : List Char :=
  let digits := hexadecimal value
  List.replicate (width - digits.length) '0' ++ digits

/-- Decimal text of a natural number. -/
def text (value : Nat) : String :=
  String.ofList (decimal value)

/-! ## Reading -/

/-- The value of a digit in a base up to sixteen; letters of either case count from ten. -/
def digit? (base : Nat) (c : Char) : Option Nat :=
  let value :=
    if '0' ≤ c ∧ c ≤ '9' then c.toNat - '0'.toNat
    else if 'a' ≤ c ∧ c ≤ 'f' then c.toNat - 'a'.toNat + 10
    else if 'A' ≤ c ∧ c ≤ 'F' then c.toNat - 'A'.toNat + 10
    else base
  if value < base then some value else none

/-- The size from which on the digits read last are joined to those read before. -/
def blockLimit : Nat := 1 <<< 4096

/-- The number read when the given digits follow a number already read, which is held in two parts
as `high * scale + low`. The low part takes in digits until its scale reaches the block limit, so
that a numeral of any length needs few multiplications of long numbers. -/
def continue? (base : Nat) : (high scale low : Nat) → List Char → Option Nat
  | high, scale, low, [] => some (high * scale + low)
  | high, scale, low, c :: rest =>
    match digit? base c with
    | none => none
    | some digit =>
      if scale < blockLimit then continue? base high (scale * base) (low * base + digit) rest
      else continue? base (high * scale + low) base digit rest

/-- The number written by a non-empty string of digits. -/
def natural? (base : Nat) : List Char → Option Nat
  | [] => none
  | digits => continue? base 0 1 0 digits

/-- Holding a number in two parts does not show: each digit multiplies the number read before it by
the base. -/
theorem continue?_eq_map_foldl (base high scale low : Nat) (text : List Char) :
    continue? base high scale low text =
      (text.mapM (digit? base)).map
        (List.foldl (fun value digit => value * base + digit) (high * scale + low)) := by
  induction text generalizing high scale low with
  | nil => simp [continue?]
  | cons c rest hypothesis =>
    have shifted (digit : Nat) :
        high * (scale * base) + (low * base + digit) = (high * scale + low) * base + digit := by
      rw [Nat.add_mul, Nat.mul_assoc, Nat.add_assoc]
    cases read : digit? base c with
    | none => simp [continue?, read]
    | some digit =>
      simp only [continue?, read, hypothesis]
      cases tail : rest.mapM (digit? base) <;> split <;> simp [read, tail, shifted]

/-- An unsigned number below `limit`, with an optional `+` in front. -/
def unsigned? (base limit : Nat) (numeral : List Char) : Option Nat :=
  let digits :=
    match numeral with
    | '+' :: rest => rest
    | other => other
  match natural? base digits with
  | some value => if value < limit then some value else none
  | none => none

/-- The 64-bit integer equal to a mathematical integer, if there is one. -/
def int64OfInt? (value : Int) : Option Int64 :=
  if Int64.minValue.toInt ≤ value ∧ value ≤ Int64.maxValue.toInt then some (Int64.ofInt value)
  else none

/-- A decimal integer that fits in 64 bits, with an optional sign in front. -/
def int64? (numeral : List Char) : Option Int64 :=
  match numeral with
  | '-' :: digits => (natural? 10 digits).bind fun value => int64OfInt? (-value)
  | '+' :: digits => (natural? 10 digits).bind fun value => int64OfInt? value
  | digits => (natural? 10 digits).bind fun value => int64OfInt? value

/-- A decimal number that fits in 32 bits. -/
def uint32? (numeral : List Char) : Option UInt32 :=
  (unsigned? 10 UInt32.size numeral).map UInt32.ofNat

/-- A decimal number that fits in a byte. -/
def uint8? (numeral : List Char) : Option UInt8 :=
  (unsigned? 10 UInt8.size numeral).map UInt8.ofNat

end Numeral

end StackMachine
