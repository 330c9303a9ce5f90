/-!
# UTF-8

Writing characters as bytes, reading bytes that are wholly well formed, and reading any bytes by
putting U+FFFD for each maximal part that starts a character and does not complete it.
-/

namespace StackMachine

namespace Utf8

/-- The bytes of a text. -/
def encode (text : List Char) : List UInt8 :=
  text.flatMap String.utf8EncodeChar

/-- The text whose bytes are given, if they are well formed. -/
def decode? (bytes : List UInt8) : Option String :=
  String.fromUTF8? ⟨bytes.toArray⟩

/-- What a lead byte promises: how many continuation bytes follow, the range of the first of them,
and the bits of the character that the lead byte holds. -/
structure Lead where
  /-- The number of continuation bytes. -/
  owed : Nat
  /-- The least value of the first continuation byte. -/
  least : UInt8
  /-- The greatest value of the first continuation byte. -/
  greatest : UInt8
  /-- The leading bits of the code point. -/
  bits : Nat

/-- The promise of a byte that starts a character of more than one byte. -/
def lead? (byte : UInt8) : Option Lead :=
  if 0xc2 ≤ byte ∧ byte ≤ 0xdf then some ⟨1, 0x80, 0xbf, byte.toNat - 0xc0⟩
  else if byte = 0xe0 then some ⟨2, 0xa0, 0xbf, 0⟩
  else if byte = 0xed then some ⟨2, 0x80, 0x9f, 0xd⟩
  else if 0xe1 ≤ byte ∧ byte ≤ 0xef then some ⟨2, 0x80, 0xbf, byte.toNat - 0xe0⟩
  else if byte = 0xf0 then some ⟨3, 0x90, 0xbf, 0⟩
  else if 0xf1 ≤ byte ∧ byte ≤ 0xf3 then some ⟨3, 0x80, 0xbf, byte.toNat - 0xf0⟩
  else if byte = 0xf4 then some ⟨3, 0x80, 0x8f, 4⟩
  else none

/-- The character completed by `owed` continuation bytes, or U+FFFD at the first byte that is not
one, together with the bytes not consumed. -/
def complete : (owed : Nat) → (least greatest : UInt8) → (bits : Nat) → List UInt8 →
    Char × List UInt8
  | 0, _, _, bits, rest => (Char.ofNat bits, rest)
  | _ + 1, _, _, _, [] => ('\ufffd', [])
  | owed + 1, least, greatest, bits, byte :: rest =>
    if least ≤ byte ∧ byte ≤ greatest then
      complete owed 0x80 0xbf (bits * 64 + (byte.toNat - 0x80)) rest
    else ('\ufffd', byte :: rest)

theorem length_complete_le (owed : Nat) (least greatest : UInt8) (bits : Nat)
    (rest : List UInt8) : (complete owed least greatest bits rest).2.length ≤ rest.length := by
  fun_induction complete owed least greatest bits rest with
  | case1 => simp
  | case2 => simp
  | case3 owed least greatest bits byte rest inside hypothesis =>
    simp only [List.length_cons]
    omega
  | case4 => simp

/-- The text of arbitrary bytes, U+FFFD standing for what is malformed. -/
def decodeLossy : List UInt8 → List Char
  | [] => []
  | byte :: rest =>
    if byte < 0x80 then Char.ofNat byte.toNat :: decodeLossy rest
    else
      match lead? byte with
      | none => '\ufffd' :: decodeLossy rest
      | some lead =>
        let completed := complete lead.owed lead.least lead.greatest lead.bits rest
        completed.1 :: decodeLossy completed.2
termination_by bytes => bytes.length
decreasing_by
  all_goals simp only [List.length_cons]
  · omega
  · omega
  · have bound := length_complete_le lead.owed lead.least lead.greatest lead.bits rest
    omega

end Utf8

end StackMachine
