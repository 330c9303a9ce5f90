/-!
# Little-endian words

A word of `width` bytes is written with its least significant byte first. Reading undoes writing
for every number that fits the width, and writing undoes reading.
-/

namespace StackMachine

namespace LittleEndian

/-- The `width` least significant bytes of a number, lowest first. -/
def bytes : (width number : Nat) → List UInt8
  | 0, _ => []
  | width + 1, number => UInt8.ofNat number :: bytes width (number / 256)

/-- The number whose bytes are given lowest first. -/
def number : List UInt8 → Nat
  | [] => 0
  | byte :: rest => byte.toNat + 256 * number rest

/-- How many numbers fit a width. -/
def span : (width : Nat) → Nat
  | 0 => 1
  | width + 1 => 256 * span width

@[simp]
theorem length_bytes (width value : Nat) : (bytes width value).length = width := by
  induction width generalizing value with
  | zero => rfl
  | succ width hypothesis => simp [bytes, hypothesis]

theorem number_bytes (width value : Nat) : number (bytes width value) = value % span width := by
  induction width generalizing value with
  | zero => simp [bytes, number, span, Nat.mod_one]
  | succ width hypothesis =>
    have split : value % (256 * span width) = value % 256 + 256 * (value / 256 % span width) :=
      Nat.mod_mul
    simpa [bytes, number, span, hypothesis] using split.symm

theorem number_lt (word : List UInt8) : number word < span word.length := by
  induction word with
  | nil => simp [number, span]
  | cons byte rest hypothesis =>
    have bound := byte.toNat_lt
    simp only [number, span, List.length_cons]
    omega

theorem bytes_number (word : List UInt8) : bytes word.length (number word) = word := by
  induction word with
  | nil => rfl
  | cons byte rest hypothesis =>
    have bound := byte.toNat_lt
    have quotient : (byte.toNat + 256 * number rest) / 256 = number rest := by omega
    have low : UInt8.ofNat (byte.toNat + 256 * number rest) = byte := by
      apply UInt8.toNat_inj.mp
      simp only [UInt8.toNat_ofNat']
      omega
    simp [bytes, number, quotient, low, hypothesis]

end LittleEndian

end StackMachine
