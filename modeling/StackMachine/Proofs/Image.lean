import StackMachine.Program
import StackMachine.Proofs.LittleEndian
import StackMachine.Proofs.Outcome

/-!
# Images are exact

Each reader of an image accepts exactly what the writer of the same part puts down, and stops right
after it.  Chaining these equivalences through the counted list of strings gives the law of the
whole format: loading accepts exactly the images of the well-formed programs whose lengths fit the
four-byte fields.
-/

namespace StackMachine

namespace Program

/-- Every length of a program fits a field of four bytes. -/
def FitsImage (program : Program) : Prop :=
  program.strings.length < UInt32.size ∧
    (∀ string ∈ program.strings, string.length < UInt32.size) ∧
    program.code.length < UInt32.size

@[simp]
theorem length_word (value : Nat) : (word value).length = 4 := by
  simp [word]

namespace Cursor

/-- The second cursor stands after given bytes that start at the first one. -/
def Passes (before : Cursor) (bytes : List UInt8) (after : Cursor) : Prop :=
  before.rest = bytes ++ after.rest ∧ after.offset = before.offset + bytes.length

theorem passes_append_iff {before after : Cursor} {left right : List UInt8} :
    before.Passes (left ++ right) after ↔
      ∃ middle : Cursor, before.Passes left middle ∧ middle.Passes right after := by
  constructor
  · rintro ⟨rest_eq, offset_eq⟩
    refine ⟨⟨before.offset + left.length, right ++ after.rest⟩, ⟨?_, rfl⟩, rfl, ?_⟩
    · rw [rest_eq, List.append_assoc]
    · simpa [Nat.add_assoc] using offset_eq
  · rintro ⟨middle, ⟨rest_eq, offset_eq⟩, ⟨rest_eq', offset_eq'⟩⟩
    refine ⟨?_, ?_⟩
    · rw [rest_eq, rest_eq', List.append_assoc]
    · rw [offset_eq', offset_eq, List.length_append, Nat.add_assoc]

/-- Taking bytes off the front passes exactly those bytes. -/
theorem advance_eq_iff {before after : Cursor} {count : Nat} {bytes : List UInt8}
    (enough : count ≤ before.rest.length) :
    before.rest.take count = bytes ∧ before.advance count = after ↔
      bytes.length = count ∧ before.Passes bytes after := by
  constructor
  · rintro ⟨rfl, rfl⟩
    have length : (before.rest.take count).length = count := List.length_take_of_le enough
    refine ⟨length, ?_, ?_⟩
    · exact (List.take_append_drop count before.rest).symm
    · rw [length]
      rfl
  · rintro ⟨rfl, rest_eq, offset_eq⟩
    refine ⟨?_, ?_⟩
    · rw [rest_eq, List.take_left]
    · simp only [advance, rest_eq, List.drop_left, ← offset_eq]

theorem word_eq_ok_iff {what : String} {before after : Cursor} {value : UInt32} :
    before.word what = .ok (value, after) ↔ before.Passes (Program.word value.toNat) after := by
  unfold Cursor.word
  split
  · rename_i short
    constructor
    · intro impossible
      cases impossible
    · rintro ⟨rest_eq, _⟩
      rw [rest_eq, List.length_append, length_word] at short
      omega
  · rename_i enough
    have taken : before.rest.take 4 = Program.word value.toNat ∧ before.advance 4 = after ↔
        before.Passes (Program.word value.toNat) after := by
      rw [advance_eq_iff (by omega), length_word]
      exact and_iff_right rfl
    rw [← taken]
    simp only [Except.ok.injEq, Prod.mk.injEq]
    rw [LittleEndian.uint32_number_eq_iff (List.length_take_of_le (by omega)), Program.word]

theorem bytes_eq_ok_iff {what : String} {before after : Cursor} {length : UInt32}
    {found : List UInt8} :
    before.bytes what length = .ok (found, after) ↔
      found.length = length.toNat ∧ before.Passes found after := by
  unfold Cursor.bytes
  split
  · rename_i short
    constructor
    · intro impossible
      cases impossible
    · rintro ⟨length_eq, rest_eq, _⟩
      rw [rest_eq, List.length_append, length_eq] at short
      omega
  · rename_i enough
    rw [← advance_eq_iff (by omega)]
    simp only [Except.ok.injEq, Prod.mk.injEq]

theorem block_eq_ok_iff {what : String} {before after : Cursor} {found : List UInt8} :
    before.block what = .ok (found, after) ↔
      found.length < UInt32.size ∧ before.Passes (Program.block found) after := by
  simp only [Cursor.block, Program.block, bind_eq_ok_iff, Prod.exists, word_eq_ok_iff,
    bytes_eq_ok_iff, passes_append_iff]
  constructor
  · rintro ⟨length, middle, counted, length_eq, passed⟩
    have fits : found.length < UInt32.size := by
      rw [length_eq]
      exact length.toNat_lt
    exact ⟨fits, middle, length_eq ▸ counted, passed⟩
  · rintro ⟨fits, middle, counted, passed⟩
    have length_eq : (UInt32.ofNat found.length).toNat = found.length :=
      UInt32.toNat_ofNat_of_lt' fits
    exact ⟨UInt32.ofNat found.length, middle, by rwa [length_eq], length_eq.symm, passed⟩

/-- The record loop: a counted list of blocks is read exactly when it was written. -/
theorem strings_eq_ok_iff {count : Nat} {before after : Cursor} {found : List (List UInt8)} :
    before.strings count = .ok (found, after) ↔
      found.length = count ∧ (∀ string ∈ found, string.length < UInt32.size) ∧
        before.Passes (found.flatMap Program.block) after := by
  induction count generalizing before after found with
  | zero =>
      rw [Cursor.strings, Except.ok.injEq, Prod.mk.injEq]
      constructor
      · rintro ⟨rfl, rfl⟩
        exact ⟨rfl, by simp, rfl, rfl⟩
      · rintro ⟨length_eq, _, passed⟩
        obtain rfl := List.length_eq_zero_iff.mp length_eq
        obtain ⟨rest_eq, offset_eq⟩ := passed
        refine ⟨rfl, ?_⟩
        cases before
        cases after
        simp_all
  | succ count induction =>
      simp only [Cursor.strings, bind_eq_ok_iff, Prod.exists, block_eq_ok_iff, induction, pure,
        Except.pure, Except.ok.injEq, Prod.mk.injEq]
      constructor
      · rintro ⟨string, middle, ⟨fits, first⟩, others, last, ⟨rfl, small, second⟩, rfl, rfl⟩
        refine ⟨rfl, ?_, ?_⟩
        · rintro entry (_ | ⟨_, member⟩)
          · exact fits
          · exact small entry member
        · rw [List.flatMap_cons, passes_append_iff]
          exact ⟨middle, first, second⟩
      · rintro ⟨length_eq, small, passed⟩
        cases found with
        | nil => simp at length_eq
        | cons string others =>
            rw [List.flatMap_cons, passes_append_iff] at passed
            obtain ⟨middle, first, second⟩ := passed
            have fits := small string List.mem_cons_self
            have tail_small : ∀ entry ∈ others, entry.length < UInt32.size := by
              intro entry member
              exact small entry (List.mem_cons_of_mem string member)
            exact ⟨string, middle, ⟨fits, first⟩, others, after,
              ⟨Nat.succ.inj length_eq, tail_small, second⟩, rfl, rfl⟩

end Cursor

theorem readBody_eq_ok_iff {cursor : Cursor} {program : Program} :
    readBody cursor = .ok program ↔
      program.FitsImage ∧
        cursor.rest =
          word program.strings.length ++ program.strings.flatMap block ++ block program.code := by
  obtain ⟨strings, code⟩ := program
  simp only [readBody, bind_eq_ok_iff, Prod.exists, Cursor.word_eq_ok_iff,
    Cursor.strings_eq_ok_iff, Cursor.block_eq_ok_iff, FitsImage]
  constructor
  · rintro ⟨count, counted, first, found, listed, ⟨count_eq, small, second⟩, body, final,
      ⟨fits, third⟩, ended⟩
    split at ended
    · rename_i empty
      cases ended
      have rest_eq : final.rest = [] := List.isEmpty_iff.mp empty
      have counts : strings.length < UInt32.size := count_eq ▸ count.toNat_lt
      refine ⟨⟨counts, small, fits⟩, ?_⟩
      rw [first.1, second.1, third.1, rest_eq, count_eq, List.append_nil, List.append_assoc]
    · cases ended
  · rintro ⟨⟨counts, small, fits⟩, rest_eq⟩
    -- The three parts of the body are passed one after the other, and nothing is left.
    have passed : cursor.Passes
        (word strings.length ++ strings.flatMap block ++ block code)
        ⟨cursor.offset + (word strings.length ++ strings.flatMap block ++ block code).length, []⟩ :=
      ⟨by rw [List.append_nil]; exact rest_eq, rfl⟩
    rw [Cursor.passes_append_iff] at passed
    obtain ⟨listed, passed, third⟩ := passed
    rw [Cursor.passes_append_iff] at passed
    obtain ⟨counted, first, second⟩ := passed
    have count_eq : (UInt32.ofNat strings.length).toNat = strings.length :=
      UInt32.toNat_ofNat_of_lt' counts
    exact ⟨UInt32.ofNat strings.length, counted, by rwa [count_eq], strings, listed,
      ⟨count_eq.symm, small, second⟩, code, _, ⟨fits, third⟩, rfl⟩

theorem hasMagic_iff {bytes : List UInt8} : hasMagic bytes = true ↔
    ∃ rest, bytes = magic ++ rest := by
  rw [hasMagic, List.isPrefixOf_iff_prefix]
  exact ⟨fun ⟨rest, equation⟩ => ⟨rest, equation.symm⟩, fun ⟨rest, equation⟩ =>
    ⟨rest, equation.symm⟩⟩

/-- Reading accepts exactly the images, of well-formed programs or not. -/
theorem read_eq_ok_iff {bytes : List UInt8} {program : Program} :
    read bytes = .ok program ↔ program.FitsImage ∧ bytes = program.image := by
  constructor
  · intro accepted
    unfold read at accepted
    split at accepted
    · cases accepted
    · split at accepted
      · cases accepted
      · rename_i _ magical
        obtain ⟨rest, rfl⟩ := hasMagic_iff.mp (by simpa using magical)
        rw [List.drop_left] at accepted
        cases rest with
        | nil => cases accepted
        | cons found rest =>
            simp only at accepted
            split at accepted
            · rename_i current
              obtain ⟨fits, rest_eq⟩ := readBody_eq_ok_iff.mp accepted
              refine ⟨fits, ?_⟩
              rw [image, current, ← rest_eq]
            · cases accepted
  · rintro ⟨fits, rfl⟩
    have magical : hasMagic program.image = true := hasMagic_iff.mpr ⟨_, rfl⟩
    have long : ¬ program.image.length < headerLength := by
      simp only [image, headerLength, List.length_append, List.length_cons]
      omega
    unfold read
    rw [if_neg long, magical]
    simp only [Bool.not_true, Bool.false_eq_true, if_false, image, List.drop_left, if_true]
    exact readBody_eq_ok_iff.mpr ⟨fits, rfl⟩

theorem load_eq_ok_iff {bytes : List UInt8} {program : Program} :
    load bytes = .ok program ↔ read bytes = .ok program ∧ program.verify = .ok () := by
  simp only [load, bind_eq_ok_iff]
  constructor
  · rintro ⟨found, accepted, _, verified, returned⟩
    cases returned
    exact ⟨accepted, verified⟩
  · rintro ⟨accepted, verified⟩
    exact ⟨program, accepted, (), verified, rfl⟩

/-- Loading accepts exactly the images of the well-formed programs whose lengths fit the format.
Hence it undoes `image` on them, `image` undoes it on every image accepted, and no two images load
to one program. -/
theorem load_eq_ok_iff_eq_image (bytes : List UInt8) (program : Program) :
    load bytes = .ok program ↔
      program.verify = .ok () ∧ program.FitsImage ∧ bytes = program.image := by
  rw [load_eq_ok_iff, read_eq_ok_iff, and_comm]

end Program

end StackMachine
