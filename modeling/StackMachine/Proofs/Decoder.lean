import StackMachine.Proofs.Verification

/-!
# Decoding step by step inverts encoding

A decoder gives the entries of the listing of its code one by one and stops at the end of the code.
So the instructions that it gives fill the code from its start on, as far as instructions can be
read, and each of them stands where the ones before it end.  Conversely an instruction is read
wherever its encoding stands, whatever bytes are before and after it.
-/

namespace StackMachine

/-- The offset that a reason carries. -/
def DecodeError.offset? : DecodeError → Option Nat
  | tooShort _ _ | badMagic | unsupportedVersion _ | trailingBytes _ => none
  | unexpectedEnd _ offset | lengthPastEnd _ _ offset _ | unknownOpcode _ offset
  | truncatedInstruction _ offset | invalidOperand _ offset | stringIndexOutOfRange _ _ offset
  | badJumpTarget _ offset => some offset

namespace Instruction

theorem Refused.offset?_eq {offset : Nat} {bytes : List UInt8} {reason : DecodeError}
    (refused : Refused offset bytes reason) : reason.offset? = some offset := by
  cases refused <;> rfl

theorem placed_append (offset : Nat) (front others : List Instruction) :
    placed offset (front ++ others) =
      placed offset front ++ placed (offset + (front.flatMap encode).length) others := by
  induction front generalizing offset with
  | nil => rfl
  | cons instruction front induction =>
      rw [List.cons_append, placed, placed, induction, List.flatMap_cons, List.length_append,
        length_encode, Nat.add_assoc, List.cons_append]

/-- An instruction is decoded at an offset exactly when its encoding stands there. -/
theorem decodeAt_eq_ok_iff {code : List UInt8} {offset : Nat} {instruction : Instruction} :
    decodeAt code offset = .ok instruction ↔
      ∃ before after, code = before ++ instruction.encode ++ after ∧ before.length = offset := by
  rw [decodeAt, decodeFront_eq_ok_iff]
  constructor
  · rintro ⟨after, rest_eq⟩
    have inside : offset ≤ code.length := by
      have positive := congrArg List.length rest_eq
      simp only [List.length_append, List.length_drop, encode, List.length_cons] at positive
      omega
    refine ⟨code.take offset, after, ?_, List.length_take_of_le inside⟩
    rw [List.append_assoc, rest_eq, List.take_append_drop]
  · rintro ⟨before, after, rfl, rfl⟩
    rw [List.append_assoc, List.drop_left]
    exact List.prefix_append _ _

end Instruction

namespace Listing

/-- The entries of a listing, and after them the reason why decoding stopped early. -/
def items (listing : Listing) : List (Except DecodeError (Nat × Instruction)) :=
  listing.instructions.map .ok ++ listing.failure.toList.map .error

@[simp]
theorem items_cons (offset : Nat) (instruction : Instruction) (rest : Listing) :
    (cons offset instruction rest).items = .ok (offset, instruction) :: rest.items :=
  rfl

/-- The instructions at the front of bytes are listed first, whatever follows them. -/
theorem placed_prefix_decodeFrom (offset : Nat) (instructions : List Instruction)
    (further : List UInt8) :
    Instruction.placed offset instructions <+:
      (decodeFrom offset (instructions.flatMap Instruction.encode ++ further)).instructions := by
  obtain ⟨listed, rest, code_eq, listed_eq, stops⟩ :=
    exists_decodeFrom_eq offset (instructions.flatMap Instruction.encode ++ further)
  obtain ⟨others, rfl⟩ := Instruction.prefix_of_flatMap_encode_append stops.unreadable code_eq
  rw [listed_eq, Instruction.placed_append]
  exact List.prefix_append _ _

end Listing

namespace Decoder

/-! ## Steps -/

theorem next?_of_drop_eq_nil {code : List UInt8} {offset : Nat} (done : code.drop offset = []) :
    next? ⟨code, offset⟩ = none := by
  rw [next?, if_pos]
  exact decide_eq_true (List.drop_eq_nil_iff.mp done)

theorem next?_of_drop_ne_nil {code : List UInt8} {offset : Nat} (left : code.drop offset ≠ []) :
    next? ⟨code, offset⟩ =
      match Instruction.decodeFront offset (code.drop offset) with
      | .ok instruction =>
          some (.ok (offset, instruction), ⟨code, offset + instruction.encodedLength⟩)
      | .error reason => some (.error reason, ⟨code, code.length⟩) := by
  have unfinished : ¬ (⟨code, offset⟩ : Decoder).isAtEnd = true :=
    fun finished => left (List.drop_eq_nil_iff.mpr (of_decide_eq_true finished))
  rw [next?, if_neg unfinished]
  rfl

theorem drain_of_none {decoder : Decoder} (done : decoder.next? = none) :
    decoder.drain = ([], decoder) := by
  rw [drain]
  split
  · rfl
  · rename_i item after given
    cases done.symm.trans given

theorem drain_of_some {decoder after : Decoder} {item : Except DecodeError (Nat × Instruction)}
    (given : decoder.next? = some (item, after)) :
    decoder.drain = (item :: after.drain.1, after.drain.2) := by
  rw [drain]
  split
  · rename_i done
    cases given.symm.trans done
  · rename_i item' after' given'
    cases given.symm.trans given'
    rfl

/-- A decoder at the end of its code gives nothing. -/
theorem drain_length (code : List UInt8) : drain ⟨code, code.length⟩ = ([], ⟨code, code.length⟩) :=
  drain_of_none (next?_of_drop_eq_nil List.drop_length)

/-! ## Runs -/

/-- Step by step a decoder gives what is listed, and it ends at the end of the code. -/
theorem drain_eq {code bytes : List UInt8} {offset : Nat} (rest : code.drop offset = bytes)
    (inside : offset ≤ code.length) :
    drain ⟨code, offset⟩ = ((Listing.decodeFrom offset bytes).items, ⟨code, code.length⟩) := by
  fun_induction Listing.decodeFrom offset bytes with
  | case1 offset bytes empty =>
      obtain rfl := List.isEmpty_iff.mp empty
      have at_end : offset = code.length := Nat.le_antisymm inside (List.drop_eq_nil_iff.mp rest)
      rw [at_end, drain_length]
      rfl
  | case2 offset bytes nonempty reason failed =>
      have left : code.drop offset ≠ [] := rest ▸ mt List.isEmpty_iff.mpr nonempty
      have given := next?_of_drop_ne_nil left
      rw [rest, failed] at given
      rw [drain_of_some given, drain_length]
      rfl
  | case3 offset bytes nonempty instruction decoded induction =>
      have left : code.drop offset ≠ [] := rest ▸ mt List.isEmpty_iff.mpr nonempty
      have given := next?_of_drop_ne_nil left
      rw [rest, decoded] at given
      have fits := (Instruction.decodeFront_eq_ok_iff.mp decoded).length_le
      rw [Instruction.length_encode, ← rest, List.length_drop] at fits
      have positive := instruction.encodedLength_pos
      rw [drain_of_some given, induction (by rw [← rest, List.drop_drop]) (by omega),
        Listing.items_cons]

/-- A listing ends where its code does, whether it lists all of it or not. -/
theorem endOffset_ofCode (code : List UInt8) :
    (Listing.ofCode code).endOffset code = code.length := by
  obtain ⟨instructions, rest, code_eq, listed, stops⟩ := Listing.exists_decodeFrom_eq 0 code
  rw [Listing.ofCode, Listing.endOffset]
  cases failure : (Listing.decodeFrom 0 code).failure with
  | some reason => rfl
  | none =>
      rw [stops.failure_eq_none_iff.mp failure, List.append_nil] at code_eq
      rw [listed, code_eq]
      rcases instructions.eq_nil_or_concat with rfl | ⟨front, last, rfl⟩
      · rfl
      · rw [List.concat_eq_append, Instruction.placed_append, Nat.zero_add]
        simp [Instruction.placed]

/-! ## Decoders and encodings -/

/-- What a decoder makes of code.  It gives instructions that fill the code from its start on, each
with the lengths of those before it added up, and after them at most one failure. -/
structure Exhausts (code : List UInt8) (instructions : List Instruction)
    (failure : Option DecodeError) : Prop where
  given : (drain ⟨code, 0⟩).1 =
    (Instruction.placed 0 instructions).map .ok ++ failure.toList.map .error
  /-- Without a failure the instructions are the whole code. -/
  whole : failure = none → instructions.flatMap Instruction.encode = code
  /-- A failure carries the offset at which the instructions end, where none can be read. -/
  cut : ∀ reason, failure = some reason → ∃ offset < code.length, reason.offset? = some offset ∧
    instructions.flatMap Instruction.encode = code.take offset ∧
      Instruction.Refused offset (code.drop offset) reason
  /-- In the end the decoder is at the end of the code and gives nothing more. -/
  finished : (drain ⟨code, 0⟩).2 = ⟨code, code.length⟩ ∧ (drain ⟨code, 0⟩).2.next? = none
  /-- The listing of the code has the same entries and the same end. -/
  listing : drain ⟨code, 0⟩ =
    ((Listing.ofCode code).items, ⟨code, (Listing.ofCode code).endOffset code⟩)

theorem exists_exhausts (code : List UInt8) :
    ∃ instructions failure, Exhausts code instructions failure := by
  obtain ⟨instructions, rest, code_eq, listed, stops⟩ := Listing.exists_decodeFrom_eq 0 code
  rw [Nat.zero_add] at stops
  have drained : drain ⟨code, 0⟩ = ((Listing.decodeFrom 0 code).items, ⟨code, code.length⟩) :=
    drain_eq List.drop_zero (Nat.zero_le _)
  refine ⟨instructions, (Listing.decodeFrom 0 code).failure, ?_, ?_, ?_, ?_, ?_⟩
  · rw [drained, Listing.items, listed]
  · intro whole
    rw [code_eq, stops.failure_eq_none_iff.mp whole, List.append_nil]
  · intro reason failed
    obtain ⟨left, refused⟩ := stops.failure_eq_some_iff.mpr failed
    rw [Instruction.decodeFront_eq_error_iff left] at refused
    have remaining : 0 < rest.length := List.length_pos_iff.mpr left
    refine ⟨(instructions.flatMap Instruction.encode).length, ?_, refused.offset?_eq, ?_, ?_⟩
    · rw [code_eq, List.length_append]
      omega
    · rw [code_eq, List.take_left]
    · rw [code_eq, List.drop_left]
      exact refused
  · rw [drained]
    exact ⟨rfl, next?_of_drop_eq_nil List.drop_length⟩
  · rw [drained, endOffset_ofCode, Listing.ofCode]

/-- Instructions at the front of code are given first, whatever follows them. -/
theorem placed_prefix_drain (instructions : List Instruction) (further : List UInt8) :
    (Instruction.placed 0 instructions).map .ok <+:
      (drain ⟨instructions.flatMap Instruction.encode ++ further, 0⟩).1 := by
  rw [drain_eq List.drop_zero (Nat.zero_le _)]
  have listed := Listing.placed_prefix_decodeFrom 0 instructions further
  exact (listed.map _).trans (List.prefix_append _ _)

/-- Decoding step by step inverts encoding.  All code is the encodings of the instructions that a
decoder gives, up to the offset of its failure if there is one; encodings are given back in their
order, whatever follows them; and an instruction is decoded at an offset exactly when its encoding
stands there, whatever is before and after. -/
theorem drain_inverts_encode :
    (∀ code, ∃ instructions failure, Exhausts code instructions failure) ∧
      (∀ (instructions : List Instruction) (further : List UInt8),
        (Instruction.placed 0 instructions).map .ok <+:
          (drain ⟨instructions.flatMap Instruction.encode ++ further, 0⟩).1) ∧
      ∀ (code : List UInt8) (offset : Nat) (instruction : Instruction),
        Instruction.decodeAt code offset = .ok instruction ↔
          ∃ before after, code = before ++ instruction.encode ++ after ∧ before.length = offset :=
  ⟨exists_exhausts, placed_prefix_drain, fun _ _ _ => Instruction.decodeAt_eq_ok_iff⟩

end Decoder

end StackMachine
