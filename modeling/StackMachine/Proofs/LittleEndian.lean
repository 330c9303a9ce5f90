import StackMachine.LittleEndian

/-!
# Words and the numbers they spell

The bytes of a word and the number they spell determine each other.
-/

namespace StackMachine

namespace LittleEndian

theorem number_eq_iff {word : List UInt8} {width value : Nat} (length : word.length = width)
    (small : value < span width) : number word = value ↔ word = bytes width value := by
  constructor
  · rintro rfl
    rw [← length, bytes_number]
  · rintro rfl
    rw [number_bytes, Nat.mod_eq_of_lt small]

theorem uint32_number_eq_iff {word : List UInt8} {value : UInt32} (length : word.length = 4) :
    UInt32.ofNat (number word) = value ↔ word = bytes 4 value.toNat := by
  have bound : number word < UInt32.size := by
    have below := number_lt word
    rwa [length] at below
  rw [← number_eq_iff length value.toNat_lt, ← UInt32.toNat_inj, UInt32.toNat_ofNat_of_lt' bound]

theorem uint64_number_eq_iff {word : List UInt8} {value : UInt64} (length : word.length = 8) :
    UInt64.ofNat (number word) = value ↔ word = bytes 8 value.toNat := by
  have bound : number word < UInt64.size := by
    have below := number_lt word
    rwa [length] at below
  rw [← number_eq_iff length value.toNat_lt, ← UInt64.toNat_inj, UInt64.toNat_ofNat_of_lt' bound]

end LittleEndian

end StackMachine
