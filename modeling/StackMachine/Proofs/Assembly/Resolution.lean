import StackMachine.Proofs.Assembly.Labels
import StackMachine.Proofs.Listing

/-!
# Resolution of labels

`Statement.emit` writes a statement for offsets of labels that are known beforehand. The assembler
meets a label before it knows the offset: `Tracks` says that its code differs from the one written
with known offsets only in the targets of the jumps that wait, so that directing them all leaves the
same code. A text in which offsets stand in place of labels assembles to that code as well.
-/

namespace StackMachine

open Disassembly

namespace Assembler

/-! ## Targets written later -/

/-- Code that agrees with other code except in the words at open places. -/
structure Differs (opened : Nat → Prop) (code reference : List UInt8) : Prop where
  length_eq : code.length = reference.length
  agree : ∀ position, (∀ hole, opened hole → position < hole ∨ hole + 4 ≤ position) →
    code[position]? = reference[position]?

theorem Differs.mono {opened wider : Nat → Prop} {code reference : List UInt8}
    (differs : Differs opened code reference) (implied : ∀ hole, opened hole → wider hole) :
    Differs wider code reference :=
  ⟨differs.length_eq, fun position outside =>
    differs.agree position fun hole found => outside hole (implied hole found)⟩

/-- A word of code. -/
def Holds (code : List UInt8) (position : Nat) (value : UInt32) : Prop :=
  LittleEndian.bytes 4 value.toNat <+: code.drop position

/-- Writing the word that the other code holds closes a place and opens none. -/
theorem Differs.bind {opened : Nat → Prop} {builder : Builder} {reference : List UInt8}
    {label : Label} (differs : Differs opened builder.code reference)
    (holds : Holds reference label.position builder.offset) :
    Differs (fun hole => opened hole ∧ hole ≠ label.position) (builder.bind label).code
      reference := by
  obtain ⟨rest, written⟩ := holds
  have fits : label.position + 4 ≤ reference.length := by
    have length := congrArg List.length written
    simp only [List.length_append, LittleEndian.length_bytes, List.length_drop] at length
    omega
  have length_eq := differs.length_eq
  have front : (builder.code.take label.position).length = label.position := by
    rw [List.length_take]
    omega
  have word : (LittleEndian.bytes 4 builder.offset.toNat).length = 4 :=
    LittleEndian.length_bytes _ _
  refine ⟨?_, fun position outside => ?_⟩
  · simp only [Builder.bind, List.length_append, front, word, List.length_drop]
    omega
  · have same (away : position < label.position ∨ label.position + 4 ≤ position) :
        builder.code[position]? = reference[position]? := by
      refine differs.agree position fun hole found => ?_
      by_cases here : hole = label.position
      · rwa [here]
      · exact outside hole ⟨found, here⟩
    simp only [Builder.bind, List.append_assoc]
    by_cases before : position < label.position
    · rw [List.getElem?_append_left (by omega), List.getElem?_take_of_lt before]
      exact same (.inl before)
    rw [List.getElem?_append_right (by omega), front]
    by_cases inside : position < label.position + 4
    · have here : reference[position]? =
          (reference.drop label.position)[position - label.position]? := by
        rw [List.getElem?_drop]
        congr 1
        omega
      rw [here, ← written, List.getElem?_append_left (by omega),
        List.getElem?_append_left (by omega)]
    · rw [List.getElem?_append_right (by omega), word, List.getElem?_drop]
      rw [← same (.inr (by omega))]
      congr 1
      omega

theorem Differs.foldl_bind {opened : Nat → Prop} {builder : Builder} {reference : List UInt8}
    (jumps : List Label) (differs : Differs opened builder.code reference)
    (holds : ∀ jump ∈ jumps, Holds reference jump.position (UInt32.ofNat reference.length)) :
    Differs (fun hole => opened hole ∧ ∀ jump ∈ jumps, hole ≠ jump.position)
      (jumps.foldl Builder.bind builder).code reference := by
  induction jumps generalizing opened builder with
  | nil => exact differs.mono fun hole found => ⟨found, by simp⟩
  | cons jump rest induction =>
      have here : Holds reference jump.position builder.offset := by
        rw [Builder.offset, differs.length_eq]
        exact holds jump List.mem_cons_self
      have later := induction (differs.bind here) fun other member =>
        holds other (List.mem_cons_of_mem jump member)
      refine later.mono fun hole found => ⟨found.1.1, ?_⟩
      exact List.forall_mem_cons.mpr ⟨found.1.2, found.2⟩

theorem strings_foldl_bind (jumps : List Label) (builder : Builder) :
    (jumps.foldl Builder.bind builder).strings = builder.strings := by
  induction jumps generalizing builder with
  | nil => rfl
  | cons jump rest induction => exact induction (builder.bind jump)

end Assembler

/-! ## Offsets known beforehand -/

/-- Writes a statement with the given offsets of labels. -/
def Statement.emit (table : List Char → UInt32) (builder : Builder) : Statement → Builder
  | .constant bytes => (builder.pushString bytes).2
  | .plain instruction => builder.emit instruction
  | .pooled (.content bytes) make => builder.emitInterned bytes make
  | .pooled (.index value) make => builder.emit (make value)
  | .jump (.offset value) make => builder.emit (make value)
  | .jump (.label name) make => builder.emit (make (table name))

/-- Statements whose operand does not change the length of their instruction. -/
def Statement.Uniform : Statement → Prop
  | .pooled _ make => ∀ value, (make value).encodedLength = (make 0).encodedLength
  | .jump _ make => ∃ op, Jumps op make
  | _ => True

theorem uniform_of_spells {tokens : List Token} {statement : Statement}
    (spells : Spells tokens statement) : statement.Uniform := by
  cases spells with
  | pooled operand named pooled written =>
      intro value
      rw [Instruction.encodedLength, Instruction.encodedLength, named, named]
  | callNative operand read => exact fun _ => rfl
  | jump jumps named unpooled written read => exact ⟨_, .of_spelling jumps named written⟩
  | constant bytes => trivial
  | bare named unpooled written => trivial
  | pushInt read => trivial
  | pushFloat read => trivial
  | pushBool value => trivial

theorem SourceLine.uniform_of_read {text : List Char} {line : SourceLine}
    (read : SourceLine.read text = .ok line) : ∀ statement ∈ line.statement, statement.Uniform := by
  obtain ⟨tokens, _, _, spelled⟩ := SourceLine.read_eq_ok_iff.mp read
  intro statement found
  rw [Option.mem_def.mp found] at spelled
  exact uniform_of_spells (spells_of_ofTokens spelled)

theorem Disassembly.Jumps.encode_eq {op : Opcode} {make : UInt32 → Instruction}
    (jumps : Jumps op make) (value : UInt32) :
    (make value).encode = op.byte :: LittleEndian.bytes 4 value.toNat := by
  cases jumps <;> rfl

/-- The index of a string depends on the pool alone. -/
theorem Builder.emitInterned_eq_append (builder : Builder) (bytes : List UInt8)
    (make : UInt32 → Instruction) :
    builder.emitInterned bytes make =
      ⟨builder.code ++ (make (intern ⟨[], builder.strings⟩ bytes).1).encode,
        (intern ⟨[], builder.strings⟩ bytes).2.strings⟩ := by
  obtain ⟨code, strings⟩ := builder
  simp only [emitInterned, intern, pushString, emit]
  cases strings.idxOf? bytes <;> rfl

/-- A statement appends an instruction of its length. -/
theorem Statement.exists_code_emit {statement : Statement} (uniform : statement.Uniform)
    (table : List Char → UInt32) (builder : Builder) :
    ∃ added, (statement.emit table builder).code = builder.code ++ added ∧
      added.length = statement.codeLength := by
  cases statement with
  | constant bytes => exact ⟨[], (List.append_nil _).symm, rfl⟩
  | plain instruction => exact ⟨_, rfl, Instruction.length_encode instruction⟩
  | pooled operand make =>
      cases operand with
      | content bytes =>
          rw [emit, Builder.emitInterned_eq_append]
          exact ⟨_, rfl, (Instruction.length_encode _).trans (uniform _)⟩
      | index value => exact ⟨_, rfl, (Instruction.length_encode _).trans (uniform value)⟩
  | jump target make =>
      obtain ⟨op, jumps⟩ := uniform
      have length (value : UInt32) : (make value).encode.length = (make 0).encodedLength := by
        rw [← Instruction.length_encode, jumps.encode_eq, jumps.encode_eq]
        simp
      cases target with
      | offset value => exact ⟨_, rfl, length value⟩
      | label name => exact ⟨_, rfl, length (table name)⟩

/-- Writes the statement of a line with the given offsets of labels. -/
def SourceLine.emit (line : SourceLine) (table : List Char → UInt32)
    (builder : Builder) : Builder :=
  line.statement.elim builder (Statement.emit table builder)

theorem SourceLine.exists_code_emit {line : SourceLine}
    (uniform : ∀ statement ∈ line.statement, statement.Uniform) (table : List Char → UInt32)
    (builder : Builder) :
    ∃ added, (line.emit table builder).code = builder.code ++ added ∧
      added.length = line.codeLength := by
  rw [emit, codeLength]
  cases statement_eq : line.statement with
  | none => exact ⟨[], (List.append_nil _).symm, rfl⟩
  | some statement =>
      exact Statement.exists_code_emit (uniform statement statement_eq) table builder

namespace Assembler

/-! ## Jumps that wait -/

/-- A jump waits for a label. -/
def Awaits (waiting : List Waiting) (name : List Char) (jump : Label) : Prop :=
  ∃ entry ∈ waiting, entry.name = name ∧ jump ∈ entry.jumps

theorem awaits_await {name other : List Char} {line : Nat} {jump label : Label}
    {waiting : List Waiting} :
    Awaits (await name line jump waiting) other label ↔
      other = name ∧ label = jump ∨ Awaits waiting other label := by
  induction waiting with
  | nil =>
      simp only [Awaits, await, List.mem_singleton, exists_eq_left, List.not_mem_nil, false_and,
        exists_false, or_false]
      rw [eq_comm]
  | cons entry rest induction =>
      have split (entries : List Waiting) (first : Waiting) :
          Awaits (first :: entries) other label ↔
            (first.name = other ∧ label ∈ first.jumps) ∨ Awaits entries other label := by
        simp [Awaits]
      rw [await]
      split_ifs with same
      · rw [split, split]
        simp only [same, List.mem_append, List.mem_singleton, @eq_comm _ other name]
        tauto
      · rw [split, split, induction]
        tauto

/-- The code of the assembler against code written with known offsets. -/
structure Tracks (table : List Char → UInt32) (reference : Builder) (assembler : Assembler) :
    Prop where
  strings_eq : assembler.builder.strings = reference.strings
  differs : Differs (fun hole => ∃ name, Awaits assembler.waiting name ⟨hole⟩)
    assembler.builder.code reference.code
  holds : ∀ name jump, Awaits assembler.waiting name jump →
    Holds reference.code jump.position (table name)
  labelled : ∀ name value, assembler.labels.lookup name = some value → table name = value

theorem tracks_empty (table : List Char → UInt32) : Tracks table {} {} :=
  ⟨rfl, ⟨rfl, fun _ _ => rfl⟩, fun _ _ waits => by simp [Awaits] at waits,
    fun _ _ found => by simp at found⟩

theorem Tracks.define {table : List Char → UInt32} {reference : Builder}
    {assembler next : Assembler} {name : List Char} (tracks : Tracks table reference assembler)
    (located : table name = UInt32.ofNat reference.code.length)
    (done : assembler.define name = .ok next) : Tracks table reference next := by
  unfold Assembler.define at done
  split at done
  · cases done
  simp only [List.partition_eq_filter_filter, Except.ok.injEq] at done
  subst done
  have directed : ∀ jump ∈ (assembler.waiting.filter fun entry => entry.name == name).flatMap
      Waiting.jumps, Holds reference.code jump.position (UInt32.ofNat reference.code.length) := by
    intro jump member
    obtain ⟨entry, found, inside⟩ := List.mem_flatMap.mp member
    obtain ⟨waits, same⟩ := List.mem_filter.mp found
    rw [← located]
    exact tracks.holds name jump ⟨entry, waits, by simpa using same, inside⟩
  refine ⟨?_, (tracks.differs.foldl_bind _ directed).mono ?_, ?_, fun other value found => ?_⟩
  · rw [strings_foldl_bind]
    exact tracks.strings_eq
  · rintro hole ⟨⟨other, entry, waits, rfl, inside⟩, untouched⟩
    refine ⟨entry.name, entry, List.mem_filter.mpr ⟨waits, ?_⟩, rfl, inside⟩
    by_contra same
    have directed_here : entry ∈ assembler.waiting.filter fun entry => entry.name == name :=
      List.mem_filter.mpr ⟨waits, by simpa using same⟩
    exact untouched ⟨hole⟩ (List.mem_flatMap.mpr ⟨entry, directed_here, inside⟩) rfl
  · rintro other jump ⟨entry, waits, named, inside⟩
    exact tracks.holds other jump ⟨entry, (List.mem_filter.mp waits).1, named, inside⟩
  · by_cases same : other = name
    · rw [same] at found ⊢
      rw [located, ← Option.some.inj (List.lookup_cons_self.symm.trans found), Builder.offset,
        tracks.differs.length_eq]
    · rw [List.lookup_cons, beq_eq_false_iff_ne.mpr same] at found
      exact tracks.labelled other value found

theorem Tracks.foldlM_define {table : List Char → UInt32} {reference : Builder}
    {assembler next : Assembler} {names : List (List Char)}
    (tracks : Tracks table reference assembler)
    (located : ∀ name ∈ names, table name = UInt32.ofNat reference.code.length)
    (done : names.foldlM Assembler.define assembler = .ok next) : Tracks table reference next := by
  induction names generalizing assembler with
  | nil =>
      cases done
      exact tracks
  | cons name rest induction =>
      obtain ⟨middle, first, later⟩ := bind_eq_ok_iff.mp done
      have here := tracks.define (located name List.mem_cons_self) first
      exact induction here (fun other member => located other (List.mem_cons_of_mem name member))
        later

theorem Holds.append {code : List UInt8} {position : Nat} {value : UInt32}
    (holds : Holds code position value) (added : List UInt8) :
    Holds (code ++ added) position value := by
  obtain ⟨rest, written⟩ := holds
  have fits : position ≤ code.length := by
    have length := congrArg List.length written
    simp only [List.length_append, LittleEndian.length_bytes, List.length_drop] at length
    omega
  rw [Holds, List.drop_append_of_le_length fits, ← written, List.append_assoc]
  exact List.prefix_append _ _

theorem Differs.append {opened : Nat → Prop} {code reference : List UInt8}
    (differs : Differs opened code reference) (added : List UInt8) :
    Differs opened (code ++ added) (reference ++ added) := by
  refine ⟨by simp [differs.length_eq], fun position outside => ?_⟩
  rw [List.getElem?_append, List.getElem?_append, differs.length_eq, differs.agree position outside]

/-- Appending the same to both codes keeps them apart only where they were. -/
theorem Tracks.append {table : List Char → UInt32} {reference : Builder} {assembler : Assembler}
    (tracks : Tracks table reference assembler) (strings : List (List UInt8)) (added : List UInt8) :
    Tracks table ⟨reference.code ++ added, strings⟩
      { assembler with builder := ⟨assembler.builder.code ++ added, strings⟩ } :=
  ⟨rfl, tracks.differs.append added, fun name jump waits =>
    (tracks.holds name jump waits).append added,
    tracks.labelled⟩

/-- A jump that waits differs in its target alone. -/
theorem Tracks.named {table : List Char → UInt32} {reference : Builder} {assembler : Assembler}
    {make : UInt32 → Instruction} {op : Opcode} (tracks : Tracks table reference assembler)
    (jumps : Jumps op make) (number : Nat) (name : List Char) :
    Tracks table (Statement.emit table reference (.jump (.label name) make))
      (assembler.execute number (.jump (.label name) make)) := by
  rw [Assembler.execute, Statement.emit]
  cases found : assembler.labels.lookup name with
  | some value =>
      simp only [tracks.labelled name value found, Builder.emit, tracks.strings_eq]
      exact tracks.append _ _
  | none =>
      have length_eq := tracks.differs.length_eq
      have place : (assembler.builder.emitPending make).1 = ⟨reference.code.length + 1⟩ := by
        simp [Builder.emitPending, Builder.emit, jumps.encode_eq, length_eq]
      simp only [place]
      refine ⟨tracks.strings_eq, ⟨?_, fun position outside => ?_⟩, ?_, tracks.labelled⟩
      · simp [Builder.emitPending, Builder.emit, jumps.encode_eq, length_eq]
      · have before := tracks.differs.agree position (by
          rintro hole ⟨other, waits⟩
          exact outside hole ⟨other, awaits_await.mpr (.inr waits)⟩)
        have away := outside (reference.code.length + 1) ⟨name, awaits_await.mpr (.inl ⟨rfl, rfl⟩)⟩
        simp only [Builder.emitPending, Builder.emit, jumps.encode_eq, List.getElem?_append, before,
          length_eq]
        split
        · rfl
        · rename_i behind
          rcases away with first | last
          · have here : position - reference.code.length = 0 := by omega
            rw [here]
            rfl
          · rw [List.getElem?_eq_none (by simp; omega), List.getElem?_eq_none (by simp; omega)]
      · intro other jump waits
        simp only [Builder.emit, jumps.encode_eq]
        rcases awaits_await.mp waits with ⟨rfl, rfl⟩ | earlier
        · dsimp only
          rw [Holds, List.drop_append, List.drop_of_length_le (by omega), List.nil_append,
            Nat.add_sub_cancel_left, List.drop_one]
          exact List.prefix_rfl
        · exact (tracks.holds other jump earlier).append _

/-- One statement keeps the codes together. -/
theorem Tracks.execute {table : List Char → UInt32} {reference : Builder} {assembler : Assembler}
    {statement : Statement} (tracks : Tracks table reference assembler)
    (uniform : statement.Uniform) (number : Nat) :
    Tracks table (statement.emit table reference) (assembler.execute number statement) := by
  have emitted (instruction : Instruction) : Tracks table (reference.emit instruction)
      { assembler with builder := assembler.builder.emit instruction } := by
    simp only [Builder.emit, tracks.strings_eq]
    exact tracks.append _ _
  cases statement with
  | constant bytes =>
      have added := tracks.append (reference.strings ++ [bytes]) []
      simp only [List.append_nil] at added
      simpa only [Statement.emit, Assembler.execute, Builder.pushString,
        tracks.strings_eq] using added
  | plain instruction => exact emitted instruction
  | pooled operand make =>
      cases operand with
      | index value => exact emitted (make value)
      | content bytes =>
          simp only [Statement.emit, Assembler.execute, Builder.emitInterned_eq_append,
            tracks.strings_eq]
          exact tracks.append _ _
  | jump target make =>
      obtain ⟨op, jumps⟩ := uniform
      cases target with
      | offset value => exact emitted (make value)
      | label name => exact tracks.named jumps number name

end Assembler

namespace Document

/-! ## Documents with known offsets -/

/-- Writes the statements of a document with the given offsets of labels. -/
def emit (document : Document) (table : List Char → UInt32) (builder : Builder) : Builder :=
  (document.filterMap SourceLine.statement).foldl (Statement.emit table) builder

/-- Every statement has an instruction of one length. -/
def Uniform (document : Document) : Prop :=
  ∀ line ∈ document, ∀ statement ∈ line.statement, statement.Uniform

/-- The offsets of the labels of a document that follows code of a given length. -/
def Located (document : Document) (table : List Char → UInt32) (start : Nat) : Prop :=
  ∀ (front : Document) (line : SourceLine) (back : Document), document = front ++ line :: back →
    ∀ name ∈ line.labels, table name = UInt32.ofNat (start + front.codeLength)

theorem emit_append (front back : Document) (table : List Char → UInt32) (builder : Builder) :
    emit (front ++ back) table builder = back.emit table (front.emit table builder) := by
  rw [emit, List.filterMap_append, List.foldl_append]
  rfl

theorem emit_cons (line : SourceLine) (rest : Document) (table : List Char → UInt32)
    (builder : Builder) :
    emit (line :: rest) table builder = rest.emit table (line.emit table builder) := by
  rw [emit, List.filterMap_cons, SourceLine.emit]
  cases line.statement <;> rfl

theorem codeLength_append (front back : Document) :
    codeLength (front ++ back) = front.codeLength + back.codeLength := by
  rw [codeLength, List.map_append, List.sum_append]
  rfl

theorem codeLength_cons (line : SourceLine) (rest : Document) :
    codeLength (line :: rest) = line.codeLength + rest.codeLength :=
  List.sum_cons

theorem uniform_of_reads {texts : List (List Char)} {document : Document}
    (reads : Document.Reads texts document) :
    document.Uniform := by
  induction reads with
  | nil => exact fun _ member => by cases member
  | cons read reads induction =>
      exact List.forall_mem_cons.mpr ⟨SourceLine.uniform_of_read read, induction⟩

theorem exists_code_emit {document : Document} (uniform : document.Uniform)
    (table : List Char → UInt32) (builder : Builder) :
    ∃ added, (document.emit table builder).code = builder.code ++ added ∧
      added.length = document.codeLength := by
  induction document generalizing builder with
  | nil => exact ⟨[], (List.append_nil _).symm, rfl⟩
  | cons line rest induction =>
      obtain ⟨here, later⟩ := List.forall_mem_cons.mp uniform
      obtain ⟨first, code_eq, first_length⟩ := SourceLine.exists_code_emit here table builder
      obtain ⟨added, added_eq, added_length⟩ := induction later (line.emit table builder)
      refine ⟨first ++ added, ?_, ?_⟩
      · rw [emit_cons, added_eq, code_eq, List.append_assoc]
      · rw [List.length_append, first_length, added_length, codeLength_cons]

theorem Located.tail {line : SourceLine} {rest : Document} {table : List Char → UInt32}
    {start : Nat} (located : Located (line :: rest) table start) :
    rest.Located table (start + line.codeLength) := by
  intro front other back split_eq name member
  rw [located (line :: front) other back (by rw [split_eq]; rfl) name member, codeLength_cons,
    Nat.add_assoc]

/-- The offsets of labels that are defined once. -/
theorem located_offset {document : Document} (distinct : document.labels.Nodup) :
    document.Located (fun name => UInt32.ofNat (document.offset name)) 0 := by
  rintro front line back rfl name member
  have absent : ∀ earlier ∈ front, decide (name ∉ earlier.labels) = true := by
    intro earlier inside
    rw [labels, List.flatMap_append, List.flatMap_cons] at distinct
    refine decide_eq_true fun found => ?_
    exact (List.nodup_append.mp distinct).2.2 name (List.mem_flatMap.mpr ⟨earlier, inside, found⟩)
      name (List.mem_append_left _ member) rfl
  simp only [offset]
  rw [List.takeWhile_append_of_pos absent, List.takeWhile_cons_of_neg (by simpa using member),
    List.append_nil, Nat.zero_add]

theorem offset_le_codeLength (document : Document) (name : List Char) :
    document.offset name ≤ document.codeLength := by
  have whole := codeLength_append (document.takeWhile fun line => name ∉ line.labels)
    (document.dropWhile fun line => name ∉ line.labels)
  rw [List.takeWhile_append_dropWhile] at whole
  rw [offset]
  omega

/-- The definition of a label splits the document at its offset. -/
theorem exists_split_offset {document : Document} {name : List Char}
    (defined : name ∈ document.labels) :
    ∃ (before : Document) (line : SourceLine) (after : Document),
      document = before ++ line :: after ∧ name ∈ line.labels ∧
        document.offset name = before.codeLength := by
  have whole :=
    @List.takeWhile_append_dropWhile _ (fun line => decide (name ∉ line.labels)) document
  have first := List.head?_dropWhile_not (fun line => decide (name ∉ line.labels)) document
  cases rest : document.dropWhile fun line => decide (name ∉ line.labels) with
  | nil =>
      obtain ⟨line, member, inside⟩ := List.mem_flatMap.mp defined
      rw [rest, List.append_nil] at whole
      rw [← whole] at member
      exact absurd inside (by simpa using List.all_eq_true.mp List.all_takeWhile line member)
  | cons line after =>
      rw [rest] at whole first
      exact ⟨_, line, after, whole.symm, by simpa using first, rfl⟩

end Document

namespace Assembler

theorem Tracks.executed {table : List Char → UInt32} {reference : Builder} {assembler : Assembler}
    {line : SourceLine} (tracks : Tracks table reference assembler)
    (uniform : ∀ statement ∈ line.statement, statement.Uniform) (number : Nat) :
    Tracks table (line.emit table reference) (assembler.executed number line.statement) := by
  rw [SourceLine.emit]
  cases statement_eq : line.statement with
  | none => exact tracks
  | some statement => exact tracks.execute (uniform statement statement_eq) number

/-- Any lines keep the codes together. -/
theorem Tracks.of_takes {table : List Char → UInt32} {reference : Builder}
    {assembler final : Assembler} {number : Nat} {document : Document}
    (tracks : Tracks table reference assembler) (taken : Takes assembler number document final)
    (uniform : document.Uniform) (located : document.Located table reference.code.length) :
    Tracks table (document.emit table reference) final := by
  induction taken generalizing reference with
  | nil assembler number => exact tracks
  | cons done taken induction =>
      rename_i assembler middle final number line rest
      obtain ⟨here, later⟩ := List.forall_mem_cons.mp uniform
      have defined := tracks.foldlM_define (located [] line rest rfl) done
      obtain ⟨added, code_eq, length⟩ := SourceLine.exists_code_emit here table reference
      rw [Document.emit_cons]
      refine induction (defined.executed here number) later ?_
      rw [code_eq, List.length_append, length]
      exact located.tail

end Assembler

/-! ## Texts without labels -/

/-- The statement on a line of text. -/
def SourceLine.statementOf (text : List Char) : Option Statement :=
  (SourceLine.read text).toOption.bind SourceLine.statement

/-- A line of text without labels. -/
def SourceLine.IsPlain (text : List Char) : Prop :=
  ∃ line, SourceLine.read text = .ok line ∧ line.labels = [] ∧ line.named? = none

theorem SourceLine.isPlain_nil : SourceLine.IsPlain [] :=
  ⟨⟨[], none⟩, SourceLine.read_nil, rfl, rfl⟩

theorem Assembler.execute_of_unnamed {statement : Statement}
    (unnamed : ∀ name make, statement ≠ .jump (.label name) make) (assembler : Assembler)
    (number : Nat) (table : List Char → UInt32) :
    assembler.execute number statement =
      { assembler with builder := statement.emit table assembler.builder } := by
  cases statement with
  | constant bytes => rfl
  | plain instruction => rfl
  | pooled operand make => cases operand <;> rfl
  | jump target make =>
      cases target with
      | offset value => rfl
      | label name => exact absurd rfl (unnamed name make)

/-- Lines without labels write their statements. -/
theorem Assembler.assembleLines_of_isPlain {texts : List (List Char)}
    (plain : ∀ text ∈ texts, SourceLine.IsPlain text) (assembler : Assembler) (number : Nat)
    (table : List Char → UInt32) :
    assembler.assembleLines number texts = .ok { assembler with
      builder := (texts.filterMap SourceLine.statementOf).foldl (Statement.emit table)
        assembler.builder } := by
  induction texts generalizing assembler number with
  | nil => rfl
  | cons text rest induction =>
      obtain ⟨⟨line, read, unlabelled, unnamed⟩, later⟩ := List.forall_mem_cons.mp plain
      have statement_eq : SourceLine.statementOf text = line.statement := by
        simp [SourceLine.statementOf, read, Except.toOption]
      have stepped : assembler.assembleLine number text =
          .ok { assembler with builder := line.emit table assembler.builder } := by
        refine Assembler.assembleLine_eq_ok_iff.mpr ⟨line, assembler, read, ?_, ?_⟩
        · rw [unlabelled]
          rfl
        · rw [SourceLine.emit]
          cases found : line.statement with
          | none => rfl
          | some statement =>
              refine Assembler.execute_of_unnamed (fun name make jumps => ?_) assembler number table
              simp [SourceLine.named?, found, jumps] at unnamed
      rw [assembleLines, stepped]
      dsimp only
      rw [induction later, List.filterMap_cons, statement_eq, SourceLine.emit]
      cases line.statement <;> rfl

theorem Statement.emit_resolve (offset : List Char → Nat) (builder : Builder)
    (statement : Statement) :
    (statement.resolve offset).emit (fun name => UInt32.ofNat (offset name)) builder =
      statement.emit (fun name => UInt32.ofNat (offset name)) builder := by
  cases statement with
  | constant bytes => rfl
  | plain instruction => rfl
  | pooled operand make => rfl
  | jump target make => cases target <;> rfl

theorem filterMap_statementOf_filter (texts : List (List Char)) :
    (texts.filter (· ≠ [])).filterMap SourceLine.statementOf =
      texts.filterMap SourceLine.statementOf := by
  rw [List.filterMap_filter]
  refine List.filterMap_congr fun text _ => ?_
  by_cases empty : text = []
  · simp [empty, SourceLine.statementOf, SourceLine.read_nil, Except.toOption]
  · simp [empty]

/-- The statements of edited lines. -/
theorem filterMap_statementOf_unlabel {offset : List Char → Nat} {texts : List (List Char)}
    {document : Document} (small : ∀ name, offset name < UInt32.size)
    (reads : Document.Reads texts document) :
    (texts.map (SourceLine.unlabel offset)).filterMap SourceLine.statementOf =
        (document.filterMap SourceLine.statement).map (Statement.resolve offset) ∧
      ∀ text ∈ texts.map (SourceLine.unlabel offset), SourceLine.IsPlain text := by
  induction reads with
  | nil => simp
  | cons read reads induction =>
      rename_i text line texts document
      have edited := SourceLine.read_unlabel read small
      have statement_eq : SourceLine.statementOf (SourceLine.unlabel offset text) =
          line.statement.map (Statement.resolve offset) := by
        simp [SourceLine.statementOf, edited, Except.toOption]
      have unnamed :
          SourceLine.named? ⟨[], line.statement.map (Statement.resolve offset)⟩ = none := by
        cases line.statement with
        | none => rfl
        | some statement =>
            cases statement with
            | jump target make => cases target <;> rfl
            | constant bytes => rfl
            | plain instruction => rfl
            | pooled operand make => rfl
      refine ⟨?_, List.forall_mem_cons.mpr ⟨⟨_, edited, rfl, unnamed⟩, induction.2⟩⟩
      rw [List.map_cons, List.filterMap_cons, statement_eq, induction.1, List.filterMap_cons]
      cases line.statement <;> rfl

/-- The text without labels writes what the text with known offsets does. -/
theorem assembleLines_unlabelled {document : Document} {source : String}
    (reads : Document.Reads (Text.lines source.toList) document)
    (small : ∀ name, document.offset name < UInt32.size) :
    Assembler.assembleLines {} 1 (Text.lines (document.unlabelled source).toList) =
      .ok { builder := document.emit (fun name => UInt32.ofNat (document.offset name)) {} } := by
  have edited := Text.lines_editLines (SourceLine.inline_unlabel document.offset) source.toList
  obtain ⟨statements_eq, plain⟩ := filterMap_statementOf_unlabel small reads
  rw [Document.unlabelled, String.toList_ofList]
  have still_plain : ∀ text ∈ Text.lines (Text.editLines (SourceLine.unlabel document.offset)
      source.toList), SourceLine.IsPlain text := by
    intro text member
    by_cases empty : text = []
    · rw [empty]
      exact SourceLine.isPlain_nil
    · have held := (@List.mem_filter _ (· ≠ []) _ _).mpr ⟨member, decide_eq_true empty⟩
      rw [edited] at held
      exact plain text (List.mem_filter.mp held).1
  rw [Assembler.assembleLines_of_isPlain still_plain {} 1
    (fun name => UInt32.ofNat (document.offset name)), ← filterMap_statementOf_filter, edited,
    filterMap_statementOf_filter, statements_eq, List.foldl_map]
  simp only [Statement.emit_resolve]
  rfl

/-! ## Resolution -/

/-- What an assembled text has done with its labels. -/
structure ResolvesLabels (source : String) (document : Document) (program : Program) : Prop where
  /-- No label is defined twice. -/
  distinct : document.labels.Nodup
  /-- A jump to a label leads to the code after the definition, wherever that stands. -/
  directed : ∀ (front : Document) (names : List (List Char)) (name : List Char)
    (make : UInt32 → Instruction) (back : Document),
    document = front ++ ⟨names, some (.jump (.label name) make)⟩ :: back →
      ∃ (before : Document) (line : SourceLine) (after : Document),
        document = before ++ line :: after ∧ name ∈ line.labels ∧
          before.codeLength < UInt32.size ∧
          Instruction.decodeAt program.code front.codeLength =
            .ok (make (UInt32.ofNat before.codeLength))
  /-- The text with offsets in place of labels assembles to the same program. -/
  unlabelled : assemble (document.unlabelled source) = .ok program

/-- A jump to a label stands in the code with the offset of the label. -/
theorem decodeAt_emit {front back : Document} {names : List (List Char)} {name : List Char}
    {make : UInt32 → Instruction} {table : List Char → UInt32}
    (uniform : Document.Uniform (front ++ ⟨names, some (.jump (.label name) make)⟩ :: back)) :
    Instruction.decodeAt
        (Document.emit (front ++ ⟨names, some (.jump (.label name) make)⟩ :: back) table {}).code
        front.codeLength =
      .ok (make (table name)) := by
  obtain ⟨front_uniform, rest_uniform⟩ := List.forall_mem_append.mp uniform
  obtain ⟨before, before_eq, before_length⟩ := Document.exists_code_emit front_uniform table {}
  obtain ⟨after, after_eq, _⟩ := Document.exists_code_emit (List.forall_mem_cons.mp rest_uniform).2
    table ((front.emit table {}).emit (make (table name)))
  have code_eq : (Document.emit (front ++ ⟨names, some (.jump (.label name) make)⟩ :: back)
      table {}).code = before ++ ((make (table name)).encode ++ after) := by
    rw [Document.emit_append, Document.emit_cons]
    refine after_eq.trans ?_
    rw [Builder.emit, before_eq]
    simp
  rw [code_eq, Instruction.decodeAt, ← before_length, List.drop_left]
  exact Instruction.decodeFront_eq_ok_iff.mpr (List.prefix_append _ _)

theorem mem_usesFrom {front back : Document} {line : SourceLine} {name : List Char}
    (named : line.named? = some name) (number : Nat) :
    (number + front.length, name) ∈ Document.usesFrom number (front ++ line :: back) := by
  induction front generalizing number with
  | nil => simp [Document.usesFrom, named]
  | cons first rest induction =>
      have later := induction (number + 1)
      rw [List.cons_append, Document.usesFrom, List.length_cons]
      refine List.mem_append_right _ ?_
      rwa [Nat.add_assoc, Nat.add_comm 1] at later

theorem Assembler.finish_congr {assembler other : Assembler}
    (builder_eq : assembler.builder = other.builder)
    (waiting_eq : assembler.waiting = other.waiting) :
    assembler.finish = other.finish := by
  simp only [Assembler.finish, builder_eq, waiting_eq]

theorem Assembler.Tracks.builder_eq {table : List Char → UInt32} {reference : Builder}
    {assembler : Assembler} (tracks : Assembler.Tracks table reference assembler)
    (settled : assembler.waiting = []) : assembler.builder = reference := by
  have code_eq : assembler.builder.code = reference.code := by
    refine List.ext_getElem? fun position => tracks.differs.agree position fun hole waits => ?_
    obtain ⟨name, waits⟩ := waits
    simp [settled, Assembler.Awaits] at waits
  have strings_eq := tracks.strings_eq
  cases builder : assembler.builder
  cases reference
  simp_all

/-- A text that assembles names no label that it does not define. -/
theorem Assembler.mem_labels_of_takes {final : Assembler} {front back : Document}
    {line : SourceLine} {name : List Char} (taken : Takes {} 1 (front ++ line :: back) final)
    (settled : final.waiting = []) (named : line.named? = some name) :
    name ∈ Document.labels (front ++ line :: back) := by
  have waits := (notes_of_takes taken).2
  have none_left : Document.undefinedUses (front ++ line :: back) = [] := by
    cases undefined : Document.undefinedUses (front ++ line :: back) with
    | nil => rfl
    | cons use rest => simp [settled, undefined, firstUses] at waits
  by_contra absent
  have left : (1 + front.length, name) ∈ Document.undefinedUses (front ++ line :: back) :=
    List.mem_filter_of_mem (mem_usesFrom named 1) (decide_eq_true absent)
  rw [none_left] at left
  cases left

theorem resolvesLabels_of_assemble {source : String} {program : Program}
    (assembled : assemble source = .ok program) (small : program.code.length < UInt32.size) :
    ∃ document, Document.read source = .ok document ∧ ResolvesLabels source document program := by
  obtain ⟨final, ran, finished⟩ := bind_eq_ok_iff.mp assembled
  obtain ⟨settled, program_eq⟩ := Assembler.waiting_of_finish_eq_ok finished
  obtain ⟨document, reads, taken⟩ := Assembler.assembleLines_eq_ok_iff_takes.mp ran
  obtain ⟨distinct, waits⟩ := Assembler.notes_of_takes taken
  have uniform := Document.uniform_of_reads reads
  have builder_eq := ((Assembler.tracks_empty _).of_takes taken uniform
    (Document.located_offset distinct)).builder_eq settled
  have code_eq :
      program.code = (document.emit (fun name => UInt32.ofNat (document.offset name)) {}).code := by
    rw [← program_eq, ← builder_eq]
    rfl
  have bounded : ∀ name, document.offset name < UInt32.size := by
    intro name
    obtain ⟨added, added_eq, length⟩ := Document.exists_code_emit uniform
      (fun name => UInt32.ofNat (document.offset name)) {}
    rw [code_eq, added_eq, List.length_append, length] at small
    have within := document.offset_le_codeLength name
    omega
  refine ⟨document, Document.mapM_eq_ok_iff_reads.mpr reads, distinct, ?_, ?_⟩
  · rintro front names name make back rfl
    have defined := Assembler.mem_labels_of_takes taken settled rfl
    obtain ⟨before, line, after, split_eq, member, offset_eq⟩ :=
      Document.exists_split_offset defined
    refine ⟨before, line, after, split_eq, member, offset_eq ▸ bounded name, ?_⟩
    rw [code_eq, decodeAt_emit uniform, offset_eq]
  · refine bind_eq_ok_iff.mpr ⟨_, assembleLines_unlabelled reads bounded, ?_⟩
    rw [← finished]
    exact Assembler.finish_congr builder_eq.symm settled.symm

/-- A text whose only fault is that labels are not defined is refused for the first use of one. -/
theorem assemble_of_undefinedUses {source : String} {document : Document} {line : Nat}
    {name : List Char} {rest : List (Nat × List Char)} (read : Document.read source = .ok document)
    (distinct : document.labels.Nodup) (undefined : document.undefinedUses = (line, name) :: rest) :
    assemble source = .error ⟨line, .undefinedLabel (String.ofList name)⟩ := by
  obtain ⟨final, taken⟩ := Assembler.notes_empty.exists_takes (by simpa using distinct) 1
  have ran := Assembler.assembleLines_eq_ok_iff_takes.mpr
    ⟨document, Document.mapM_eq_ok_iff_reads.mp read, taken⟩
  have waits := (Assembler.notes_of_takes taken).2
  rw [undefined, Assembler.firstUses] at waits
  obtain ⟨entry, others, waiting_eq, use_eq, _⟩ := List.map_eq_cons_iff.mp waits
  obtain ⟨line_eq, name_eq⟩ := Prod.mk.inj use_eq
  refine bind_eq_error_iff.mpr (.inr ⟨final, ran, ?_⟩)
  rw [Assembler.finish, waiting_eq]
  dsimp only
  rw [line_eq, name_eq]

/-- Labels are resolved wherever they are defined, and the first one that is not is reported. -/
theorem assemble_resolves_labels (source : String) :
    (∀ program, assemble source = .ok program → program.code.length < UInt32.size →
      ∃ document, Document.read source = .ok document ∧ ResolvesLabels source document program) ∧
    ∀ document, Document.read source = .ok document → document.labels.Nodup →
      ∀ line name rest, document.undefinedUses = (line, name) :: rest →
        assemble source = .error ⟨line, .undefinedLabel (String.ofList name)⟩ :=
  ⟨fun _ assembled small => resolvesLabels_of_assemble assembled small,
    fun _ read distinct _ _ _ undefined => assemble_of_undefinedUses read distinct undefined⟩

/-- A text with several jumps to a label before its definition, a jump back, two labels on a line,
labels on either side of a pool entry, and a label on the last line. -/
def tangledText : String :=
  "jmp end\nstart: again:\n.str \"x\"\n  loop: jmp_if_false end ; leave\r\njmp again\njmp end\n" ++
    "end: halt\nunused:"

/-- A text that names two labels without defining them. -/
def danglingText : String :=
  "a: jmp b\njmp c\njmp_if_false c\nb: jmp d"

theorem assemble_resolves_labels_tangledText :
    (∃ program document, assemble tangledText = .ok program ∧ program.code.length < UInt32.size ∧
      Document.read tangledText = .ok document ∧
      document.unlabelled tangledText =
        "jmp 20\n\n.str \"x\"\n jmp_if_false 20 ; leave\r\njmp 5\njmp 20\n halt\n" ∧
      ResolvesLabels tangledText document program) ∧
    assemble danglingText = .error ⟨2, .undefinedLabel "c"⟩ := by
  have assembled : assemble tangledText = .ok ⟨[[120]],
      [96, 20, 0, 0, 0, 97, 20, 0, 0, 0, 96, 5, 0, 0, 0, 96, 20, 0, 0, 0, 255]⟩ := by
    decide +kernel
  have edited : (Document.read tangledText).toOption.map (Document.unlabelled · tangledText) =
      some "jmp 20\n\n.str \"x\"\n jmp_if_false 20 ; leave\r\njmp 5\njmp 20\n halt\n" := by
    decide +kernel
  have dangling : (Document.read danglingText).toOption.map
      (fun document => (document.labels, document.undefinedUses)) =
        some ([['a'], ['b']], [(2, ['c']), (3, ['c']), (4, ['d'])]) := by
    decide +kernel
  simp only [Option.map_eq_some_iff, toOption_eq_some_iff, Prod.mk.injEq] at edited dangling
  obtain ⟨document, read, text_eq⟩ := edited
  obtain ⟨other, other_read, labels_eq, undefined⟩ := dangling
  obtain ⟨found, found_read, resolves⟩ :=
    (assemble_resolves_labels tangledText).1 _ assembled (by decide)
  cases read.symm.trans found_read
  refine ⟨⟨_, document, assembled, by decide, read, text_eq, resolves⟩, ?_⟩
  exact (assemble_resolves_labels danglingText).2 other other_read (by rw [labels_eq]; decide) 2
    ['c'] _ undefined

end StackMachine
