import StackMachine.Proofs.Image

/-!
# Damaged images

Every reader of an image finds out when the input ends inside what it reads.  Two readers one after
the other do so for the bytes of both, which carries the property through the counted list of
strings to the whole image.  So an image that was cut anywhere is refused by the layer that knows
about lengths, before its instructions are looked at, and one with bytes after it is refused for
them.
-/

namespace StackMachine

/-- The reasons for refusing input that ends at a given offset: it ends inside a word, or it holds
fewer bytes than a length that was read announces. -/
inductive DecodeError.EndsAt (stop : Nat) : DecodeError → Prop
  | inWord {what : String} {offset : Nat} (started : offset ≤ stop) (short : stop < offset + 4) :
      EndsAt stop (.unexpectedEnd what offset)
  | inContent {what : String} {length : UInt32} {offset remaining : Nat}
      (ends : offset + remaining = stop) (short : remaining < length.toNat) :
      EndsAt stop (.lengthPastEnd what length offset remaining)

/-! ## Cuts -/

/-- Bytes that were cut somewhere before their end. -/
def CutOf (front whole : List UInt8) : Prop :=
  front <+: whole ∧ front ≠ whole

theorem CutOf.length_lt {front whole : List UInt8} (cut : CutOf front whole) :
    front.length < whole.length :=
  Nat.lt_of_le_of_ne cut.1.length_le fun same => cut.2 (cut.1.eq_of_length same)

theorem cutOf_append_left_iff {front whole : List UInt8} (left : List UInt8) :
    CutOf (left ++ front) (left ++ whole) ↔ CutOf front whole := by
  rw [CutOf, CutOf, List.prefix_append_right_inj, Ne, List.append_cancel_left_eq]

/-- A cut falls into the first of two parts or into the second one. -/
theorem CutOf.append_cases {front left right : List UInt8} (cut : CutOf front (left ++ right)) :
    CutOf front left ∨ ∃ rest, front = left ++ rest ∧ CutOf rest right := by
  rcases List.prefix_or_prefix_of_prefix cut.1 (List.prefix_append left right) with
    inside | ⟨rest, rfl⟩
  · by_cases whole : front = left
    · have rest_cut : CutOf [] right := by
        rw [← cutOf_append_left_iff left, List.append_nil, ← whole]
        rwa [← whole] at cut
      exact .inr ⟨[], by rw [List.append_nil, whole], rest_cut⟩
    · exact .inl ⟨inside, whole⟩
  · exact .inr ⟨rest, rfl, (cutOf_append_left_iff left).mp cut⟩

namespace Program

/-! ## Readers -/

namespace Cursor

/-- The offset at which the input ends. -/
def stop (cursor : Cursor) : Nat :=
  cursor.offset + cursor.rest.length

/-- A reader takes given bytes for a value, and refuses them for the place of a cut. -/
structure Recognizes {α : Type} (read : Cursor → Except DecodeError (α × Cursor))
    (bytes : List UInt8) (value : α) : Prop where
  whole : ∀ before after : Cursor, before.Passes bytes after → read before = .ok (value, after)
  cut : ∀ cursor : Cursor, CutOf cursor.rest bytes →
    ∃ reason, read cursor = .error reason ∧ reason.EndsAt cursor.stop

/-- The cursor after bytes at the front. -/
theorem passes_append (offset : Nat) (bytes rest : List UInt8) :
    Passes ⟨offset, bytes ++ rest⟩ bytes ⟨offset + bytes.length, rest⟩ :=
  ⟨rfl, rfl⟩

theorem stop_append (offset : Nat) (bytes rest : List UInt8) :
    stop ⟨offset, bytes ++ rest⟩ = stop ⟨offset + bytes.length, rest⟩ := by
  simp only [stop, List.length_append, Nat.add_assoc]

variable {α β : Type}

/-- Readers one after the other recognize their bytes one after the other. -/
theorem Recognizes.bind {first : Cursor → Except DecodeError (α × Cursor)}
    {next : α × Cursor → Except DecodeError (β × Cursor)} {left right : List UInt8} {value : α}
    {result : β} (here : Recognizes first left value)
    (there : Recognizes (fun cursor => next (value, cursor)) right result) :
    Recognizes (fun cursor => first cursor >>= next) (left ++ right) result where
  whole before after passed := by
    obtain ⟨middle, through, onward⟩ := passes_append_iff.mp passed
    exact bind_eq_ok_iff.mpr ⟨_, here.whole before middle through, there.whole middle after onward⟩
  cut cursor cut := by
    rcases cut.append_cases with inside | ⟨rest, rest_eq, later⟩
    · obtain ⟨reason, refused, ends⟩ := here.cut cursor inside
      exact ⟨reason, bind_eq_error_iff.mpr (.inl refused), ends⟩
    · obtain ⟨offset, _⟩ := cursor
      subst rest_eq
      obtain ⟨reason, refused, ends⟩ := there.cut ⟨offset + left.length, rest⟩ later
      rw [← stop_append] at ends
      have reached := here.whole _ _ (passes_append offset left rest)
      exact ⟨reason, bind_eq_error_iff.mpr (.inr ⟨_, reached, refused⟩), ends⟩

/-- What a reader finds may be put to use. -/
theorem Recognizes.map {read : Cursor → Except DecodeError (α × Cursor)} {bytes : List UInt8}
    {value : α} (here : Recognizes read bytes value) (use : α → β) :
    Recognizes (fun cursor => read cursor >>= fun found => .ok (use found.1, found.2)) bytes
      (use value) where
  whole before after passed := bind_eq_ok_iff.mpr ⟨_, here.whole before after passed, rfl⟩
  cut cursor cut := by
    obtain ⟨reason, refused, ends⟩ := here.cut cursor cut
    exact ⟨reason, bind_eq_error_iff.mpr (.inl refused), ends⟩

theorem recognizes_word (what : String) (value : UInt32) :
    Recognizes (word what) (Program.word value.toNat) value where
  whole _ _ passed := word_eq_ok_iff.mpr passed
  cut cursor cut := by
    have short := cut.length_lt
    rw [length_word] at short
    have inside : cursor.stop < cursor.offset + 4 := Nat.add_lt_add_left short _
    exact ⟨_, if_pos short, .inWord (Nat.le_add_right _ _) inside⟩

theorem recognizes_bytes (what : String) {length : UInt32} {found : List UInt8}
    (announced : found.length = length.toNat) : Recognizes (bytes what length) found found where
  whole _ _ passed := bytes_eq_ok_iff.mpr ⟨announced, passed⟩
  cut cursor cut := by
    have short := cut.length_lt
    rw [announced] at short
    exact ⟨_, if_pos short, .inContent rfl short⟩

theorem recognizes_block (what : String) {found : List UInt8} (fits : found.length < UInt32.size) :
    Recognizes (block what) (Program.block found) found := by
  have length_eq : (UInt32.ofNat found.length).toNat = found.length :=
    UInt32.toNat_ofNat_of_lt' fits
  have length_first := recognizes_word (what ++ " length") (UInt32.ofNat found.length)
  rw [length_eq] at length_first
  exact length_first.bind (recognizes_bytes what length_eq.symm)

/-- The strings of a pool are recognized one by one. -/
theorem recognizes_strings {found : List (List UInt8)}
    (small : ∀ string ∈ found, string.length < UInt32.size) :
    Recognizes (strings found.length) (found.flatMap Program.block) found := by
  induction found with
  | nil =>
      exact ⟨fun _ _ passed => strings_eq_ok_iff.mpr ⟨rfl, small, passed⟩,
        fun _ cut => absurd (List.prefix_nil.mp cut.1) cut.2⟩
  | cons string others induction =>
      obtain ⟨fits, small⟩ := List.forall_mem_cons.mp small
      exact (recognizes_block "string" fits).bind ((induction small).map (string :: ·))

/-- Reads a program, whatever follows it. -/
def program (cursor : Cursor) : Except DecodeError (Program × Cursor) := do
  let (count, cursor) ← cursor.word "string count"
  let (strings, cursor) ← cursor.strings count.toNat
  let (code, cursor) ← cursor.block "code"
  return (⟨strings, code⟩, cursor)

end Cursor

/-- The image of a program without its magic number and version. -/
def body (program : Program) : List UInt8 :=
  word program.strings.length ++ program.strings.flatMap block ++ block program.code

theorem image_eq (program : Program) : program.image = magic ++ version :: program.body :=
  rfl

theorem recognizes_program {program : Program} (fits : program.FitsImage) :
    Cursor.Recognizes Cursor.program program.body program := by
  obtain ⟨counts, small, long⟩ := fits
  have count_eq : (UInt32.ofNat program.strings.length).toNat = program.strings.length :=
    UInt32.toNat_ofNat_of_lt' counts
  have counted := Cursor.recognizes_word "string count" (UInt32.ofNat program.strings.length)
  have listed := Cursor.recognizes_strings small
  have coded := Cursor.recognizes_block "code" long
  rw [count_eq] at counted
  rw [← count_eq] at listed
  rw [body, List.append_assoc]
  exact counted.bind (listed.bind (coded.map (Program.mk program.strings)))

theorem readBody_eq (cursor : Cursor) :
    readBody cursor = cursor.program >>= fun found =>
      if found.2.rest.isEmpty then .ok found.1
      else .error (.trailingBytes found.2.rest.length) := by
  simp only [readBody, Cursor.program, bind_assoc, pure_bind]
  rfl

/-! ## Images -/

theorem read_magic_version (rest : List UInt8) :
    read (magic ++ version :: rest) = readBody ⟨headerLength, rest⟩ := by
  have long : ¬ (magic ++ version :: rest).length < headerLength := by
    simp only [headerLength, List.length_append, List.length_cons]
    omega
  have magical : hasMagic (magic ++ version :: rest) = true := hasMagic_iff.mpr ⟨_, rfl⟩
  simp only [read, if_neg long, magical, Bool.not_true, Bool.false_eq_true, if_false,
    List.drop_left, if_true]

/-- What is refused as an image is not loaded, whatever program may be in it. -/
theorem load_of_read_error {bytes : List UInt8} {reason : DecodeError}
    (refused : read bytes = .error reason) : load bytes = .error reason := by
  rw [load, refused]
  rfl

theorem read_of_length_lt {bytes : List UInt8} (short : bytes.length < headerLength) :
    read bytes = .error (.tooShort bytes.length headerLength) :=
  if_pos short

/-- A cut after the version is noticed by a reader of the body. -/
theorem exists_read_of_cutOf_image {program : Program} (fits : program.FitsImage)
    {front : List UInt8} (cut : CutOf front program.image) (long : headerLength ≤ front.length) :
    ∃ reason, read front = .error reason ∧ reason.EndsAt front.length := by
  have image_split : program.image = (magic ++ [version]) ++ program.body := by
    rw [image_eq, List.append_assoc, List.singleton_append]
  rw [image_split] at cut
  rcases cut.append_cases with inside | ⟨rest, rfl, later⟩
  · exact absurd inside.length_lt (Nat.not_lt.mpr long)
  · obtain ⟨reason, refused, ends⟩ := (recognizes_program fits).cut ⟨headerLength, rest⟩ later
    have length_eq : ((magic ++ [version]) ++ rest).length = headerLength + rest.length :=
      List.length_append
    have stopped : readBody ⟨headerLength, rest⟩ = .error reason := by
      rw [readBody_eq]
      exact bind_eq_error_iff.mpr (.inl refused)
    rw [List.append_assoc, List.singleton_append, read_magic_version, stopped,
      ← List.singleton_append, ← List.append_assoc, length_eq]
    exact ⟨reason, rfl, ends⟩

theorem read_image_append {program : Program} (fits : program.FitsImage) {extra : List UInt8}
    (nonempty : extra ≠ []) :
    read (program.image ++ extra) = .error (.trailingBytes extra.length) := by
  have passed := (recognizes_program fits).whole _ _
    (Cursor.passes_append headerLength program.body extra)
  rw [image_eq, List.append_assoc, List.cons_append, read_magic_version, readBody_eq, passed]
  exact if_neg (by simpa using nonempty)

/-- A damaged image is recognized: when it was cut, for the place of the cut, and when bytes follow
it, for their number.  So no image is the front of another one. -/
theorem load_recognizes_damage {bytes : List UInt8} {program : Program}
    (accepted : load bytes = .ok program) :
    (∀ front, front <+: bytes → front ≠ bytes →
      if front.length < headerLength then
        load front = .error (.tooShort front.length headerLength)
      else ∃ reason, load front = .error reason ∧ reason.EndsAt front.length) ∧
    (∀ extra, extra ≠ [] → load (bytes ++ extra) = .error (.trailingBytes extra.length)) ∧
    ∀ other program', load other = .ok program' → bytes <+: other → bytes = other := by
  obtain ⟨_, fits, rfl⟩ := (load_eq_ok_iff_eq_image bytes program).mp accepted
  have followed (extra : List UInt8) (nonempty : extra ≠ []) :
      load (program.image ++ extra) = .error (.trailingBytes extra.length) :=
    load_of_read_error (read_image_append fits nonempty)
  refine ⟨fun front starts differs => ?_, followed, ?_⟩
  · split
    · rename_i short
      exact load_of_read_error (read_of_length_lt short)
    · rename_i long
      obtain ⟨reason, refused, ends⟩ :=
        exists_read_of_cutOf_image fits ⟨starts, differs⟩ (Nat.not_lt.mp long)
      exact ⟨reason, load_of_read_error refused, ends⟩
  · rintro other program' loaded ⟨extra, rfl⟩
    by_cases empty : extra = []
    · rw [empty, List.append_nil]
    · cases (followed extra empty).symm.trans loaded

/-- An image with an empty string is cut inside the string before it, between the two strings and
inside the code, and followed by a zero. -/
theorem load_recognizes_damage_two_strings :
    let program : Program := ⟨[[104, 105], []], [.pushString 1, .halt].flatMap Instruction.encode⟩
    load program.image = .ok program ∧
      (∀ length ∈ [14, 15, 26], ∃ reason,
        load (program.image.take length) = .error reason ∧ reason.EndsAt length) ∧
      load (program.image ++ [0]) = .error (.trailingBytes 1) := by
  intro program
  have accepted : load program.image = .ok program :=
    toOption_eq_some_iff.mp (by decide +kernel)
  obtain ⟨cut, followed, -⟩ := load_recognizes_damage accepted
  refine ⟨accepted, fun length listed => ?_, followed [0] (by decide)⟩
  have within : length < program.image.length ∧ headerLength ≤ length := by
    revert length
    decide +kernel
  have length_eq : (program.image.take length).length = length :=
    List.length_take_of_le (Nat.le_of_lt within.1)
  have shorter : program.image.take length ≠ program.image := by
    intro same
    rw [same] at length_eq
    exact Nat.ne_of_gt within.1 length_eq
  have refused := cut _ (List.take_prefix length program.image) shorter
  rwa [length_eq, if_neg (Nat.not_lt.mpr within.2)] at refused

end Program

end StackMachine
