import StackMachine.Proofs.Assembly.Document

/-!
# Labels

A text reads as a document, a list of lines with their labels and statements. The offset of a label
is the length of the code of the lines before its definition. The assembler takes a document as long
as no label is defined twice, and then waits for the labels that are named and not defined, in the
order of their first uses.
-/

namespace StackMachine

/-! ## Documents -/

/-- The number of bytes of the instruction that a statement adds. -/
def Statement.codeLength : Statement → Nat
  | .constant _ => 0
  | .plain instruction => instruction.encodedLength
  | .pooled _ make => (make 0).encodedLength
  | .jump _ make => (make 0).encodedLength

namespace SourceLine

/-- The number of bytes of the instruction on a line. -/
def codeLength (line : SourceLine) : Nat :=
  line.statement.elim 0 Statement.codeLength

/-- The label that a line names as the target of a jump. -/
def named? (line : SourceLine) : Option (List Char) :=
  match line.statement with
  | some (.jump (.label name) _) => some name
  | _ => none

end SourceLine

/-- The lines of a text. -/
abbrev Document := List SourceLine

namespace Document

/-- The labels that are defined, in order. -/
def labels (document : Document) : List (List Char) :=
  document.flatMap SourceLine.labels

/-- The number of bytes of the instructions. -/
def codeLength (document : Document) : Nat :=
  (document.map SourceLine.codeLength).sum

/-- The number of bytes of the instructions before the definition of a label. -/
def offset (document : Document) (name : List Char) : Nat :=
  codeLength (document.takeWhile fun line => name ∉ line.labels)

/-- The labels that are named, each with the number of its line. -/
def usesFrom : (number : Nat) → Document → List (Nat × List Char)
  | _, [] => []
  | number, line :: rest =>
      line.named?.toList.map (fun name => (number, name)) ++ usesFrom (number + 1) rest

/-- The labels that are named and not defined, with the numbers of their lines. -/
def undefinedUses (document : Document) : List (Nat × List Char) :=
  (usesFrom 1 document).filter fun use => use.2 ∉ document.labels

/-- Reads the lines of a text. -/
def read (source : String) : Except AssemblyFault Document :=
  (Text.lines source.toList).mapM SourceLine.read

/-- The text of a document without labels: their definitions are deleted, and the offset of a label
stands in decimal wherever it was named. -/
def unlabelled (document : Document) (source : String) : String :=
  String.ofList (Text.editLines (SourceLine.unlabel document.offset) source.toList)

/-- Lines of text and what they read as. -/
def Reads (texts : List (List Char)) (document : Document) : Prop :=
  List.Forall₂ (fun text line => SourceLine.read text = .ok line) texts document

theorem mapM_eq_ok_iff_reads {texts : List (List Char)} {document : Document} :
    texts.mapM SourceLine.read = .ok document ↔ Reads texts document := by
  unfold Reads
  induction texts generalizing document with
  | nil =>
      rw [List.mapM_nil, List.forall₂_nil_left_iff]
      constructor
      · rintro ⟨⟩
        rfl
      · rintro rfl
        rfl
  | cons text rest induction =>
      rw [List.mapM_cons, bind_eq_ok_iff]
      constructor
      · rintro ⟨line, first, later⟩
        obtain ⟨lines, others, finished⟩ := bind_eq_ok_iff.mp later
        cases finished
        exact .cons first (induction.mp others)
      · intro reads
        cases reads with
        | cons first others =>
            exact ⟨_, first, bind_eq_ok_iff.mpr ⟨_, induction.mpr others, rfl⟩⟩

end Document

/-! ## Runs of the assembler -/

/-- The first use of a label that is waited for. -/
def Waiting.use (entry : Waiting) : Nat × List Char :=
  (entry.line, entry.name)

namespace Assembler

/-- The assembler after the statement of a line. -/
def executed (assembler : Assembler) (number : Nat) : Option Statement → Assembler
  | some statement => assembler.execute number statement
  | none => assembler

/-- What the assembler makes of lines, the first of which has a given number. -/
inductive Takes : Assembler → Nat → Document → Assembler → Prop
  | nil (assembler : Assembler) (number : Nat) : Takes assembler number [] assembler
  | cons {assembler middle final : Assembler} {number : Nat} {line : SourceLine} {rest : Document}
      (defined : line.labels.foldlM define assembler = .ok middle)
      (taken : Takes (middle.executed number line.statement) (number + 1) rest final) :
      Takes assembler number (line :: rest) final

theorem assembleLine_eq_ok_iff {assembler next : Assembler} {number : Nat} {text : List Char} :
    assembler.assembleLine number text = .ok next ↔
      ∃ line middle, SourceLine.read text = .ok line ∧
        line.labels.foldlM define assembler = .ok middle ∧
        middle.executed number line.statement = next := by
  simp only [SourceLine.read_eq_ok_iff, assembleLine, bind_eq_ok_iff]
  constructor
  · rintro ⟨tokens, lexed, middle, defined, statement, spelled, ran⟩
    refine ⟨⟨_, statement⟩, middle, ⟨tokens, lexed, rfl, spelled⟩, defined, ?_⟩
    cases statement <;> exact Except.ok.inj ran
  · rintro ⟨⟨labels, statement⟩, middle, ⟨tokens, lexed, rfl, spelled⟩, defined, rfl⟩
    refine ⟨tokens, lexed, middle, defined, statement, spelled, ?_⟩
    cases statement <;> rfl

/-- Lines can be assembled when each can be read and the assembler takes them. -/
theorem assembleLines_eq_ok_iff_takes {assembler final : Assembler} {number : Nat}
    {texts : List (List Char)} :
    assembler.assembleLines number texts = .ok final ↔
      ∃ document : Document, Document.Reads texts document ∧
        Takes assembler number document final := by
  induction texts generalizing assembler number with
  | nil =>
      constructor
      · rintro ⟨⟩
        exact ⟨[], .nil, .nil _ _⟩
      · rintro ⟨document, reads, taken⟩
        cases reads
        cases taken
        rfl
  | cons text rest induction =>
      rw [assembleLines]
      constructor
      · intro ran
        split at ran
        · cases ran
        rename_i next stepped
        obtain ⟨line, middle, read, defined, rfl⟩ := assembleLine_eq_ok_iff.mp stepped
        obtain ⟨document, reads, taken⟩ := induction.mp ran
        exact ⟨line :: document, .cons read reads, .cons defined taken⟩
      · rintro ⟨document, reads, taken⟩
        cases reads with
        | cons read reads =>
            cases taken with
            | cons defined taken =>
                rw [assembleLine_eq_ok_iff.mpr ⟨_, _, read, defined, rfl⟩]
                exact induction.mpr ⟨_, reads, taken⟩

/-! ## Definitions and uses -/

/-- The first use of each label, in order. -/
def firstUses : List (Nat × List Char) → List (Nat × List Char)
  | [] => []
  | use :: rest => use :: (firstUses rest).filter fun later => later.2 ≠ use.2

theorem firstUses_filter (keep : List Char → Bool) (uses : List (Nat × List Char)) :
    firstUses (uses.filter fun use => keep use.2) =
      (firstUses uses).filter fun use => keep use.2 := by
  induction uses with
  | nil => rfl
  | cons use rest induction =>
      by_cases kept : keep use.2 = true
      · simp only [List.filter_cons, kept, if_true, firstUses, induction, List.filter_filter,
          Bool.and_comm]
      · have dropped : ∀ later ∈ firstUses rest,
            keep later.2 = (keep later.2 && decide (later.2 ≠ use.2)) := by
          intro later _
          by_cases same : later.2 = use.2
          · simpa [same] using kept
          · simp [same]
        rw [List.filter_cons, if_neg kept, firstUses, List.filter_cons, if_neg kept, induction,
          List.filter_filter]
        exact List.filter_congr dropped

theorem mem_map_firstUses {uses : List (Nat × List Char)} {name : List Char} :
    name ∈ (firstUses uses).map Prod.snd ↔ name ∈ uses.map Prod.snd := by
  induction uses with
  | nil => rfl
  | cons use rest induction =>
      by_cases same : name = use.2
      · simp [firstUses, same]
      · rw [List.map_cons, List.mem_cons, ← induction]
        simp only [firstUses, List.map_cons, List.mem_cons, same, false_or, List.mem_map,
          List.mem_filter]
        constructor
        · rintro ⟨later, ⟨member, _⟩, rfl⟩
          exact ⟨later, member, rfl⟩
        · rintro ⟨later, member, rfl⟩
          exact ⟨later, ⟨member, by simpa using same⟩, rfl⟩

theorem firstUses_append_singleton (uses : List (Nat × List Char)) (use : Nat × List Char) :
    firstUses (uses ++ [use]) =
      if use.2 ∈ uses.map Prod.snd then firstUses uses else firstUses uses ++ [use] := by
  induction uses with
  | nil => rfl
  | cons first rest induction =>
      rw [List.cons_append, firstUses, induction, List.map_cons]
      by_cases same : use.2 = first.2
      · have member : use.2 ∈ first.2 :: rest.map Prod.snd := by
          rw [same]
          exact List.mem_cons_self
        rw [if_pos member, firstUses]
        split <;> simp [List.filter_append, same]
      · by_cases later : use.2 ∈ rest.map Prod.snd
        · rw [if_pos later, if_pos (List.mem_cons_of_mem _ later), firstUses]
        · rw [if_neg later, if_neg (by simp [same] at later ⊢; exact later), firstUses]
          simp [List.filter_append, same]

/-- The labels that have been defined and the uses that have been met. -/
structure Notes (defined : List (List Char)) (uses : List (Nat × List Char))
    (assembler : Assembler) : Prop where
  distinct : defined.Nodup
  known : ∀ name, assembler.labels.lookup name = none ↔ name ∉ defined
  waits : assembler.waiting.map Waiting.use =
    firstUses (uses.filter fun use => use.2 ∉ defined)

theorem notes_empty : Notes [] [] {} :=
  ⟨List.nodup_nil, fun _ => by simp, rfl⟩

theorem Notes.define {defined : List (List Char)} {uses : List (Nat × List Char)}
    {assembler next : Assembler} {name : List Char} (notes : Notes defined uses assembler)
    (done : assembler.define name = .ok next) : Notes (defined ++ [name]) uses next := by
  unfold Assembler.define at done
  split at done
  · cases done
  rename_i unknown
  have absent := (notes.known name).mp unknown
  simp only [List.partition_eq_filter_filter, Except.ok.injEq] at done
  subst done
  refine ⟨?_, fun other => ?_, ?_⟩
  · exact List.nodup_append.mpr ⟨notes.distinct, List.nodup_singleton name, by
      rintro found member _ last rfl
      exact absent (List.mem_singleton.mp last ▸ member)⟩
  · by_cases same : other = name
    · simp [same]
    · simp only [List.lookup_cons, beq_eq_false_iff_ne.mpr same, notes.known other,
        List.mem_append, List.mem_singleton, same, or_false]
  · have kept : (assembler.waiting.filter fun entry => !(entry.name == name)).map Waiting.use =
        (assembler.waiting.map Waiting.use).filter fun use => !(use.2 == name) := by
      rw [List.filter_map]
      rfl
    refine kept.trans ?_
    rw [notes.waits, ← firstUses_filter (fun other => !(other == name)), List.filter_filter]
    congr 1
    refine List.filter_congr fun use _ => ?_
    by_cases same : use.2 = name <;> simp [same]

theorem Notes.exists_define {defined : List (List Char)} {uses : List (Nat × List Char)}
    {assembler : Assembler} {name : List Char} (notes : Notes defined uses assembler)
    (absent : name ∉ defined) : ∃ next, assembler.define name = .ok next := by
  simp only [Assembler.define, (notes.known name).mpr absent]
  exact ⟨_, rfl⟩

theorem Notes.foldlM_define {defined names : List (List Char)} {uses : List (Nat × List Char)}
    {assembler next : Assembler} (notes : Notes defined uses assembler)
    (done : names.foldlM Assembler.define assembler = .ok next) :
    Notes (defined ++ names) uses next := by
  induction names generalizing defined assembler with
  | nil =>
      cases done
      rwa [List.append_nil]
  | cons name rest induction =>
      obtain ⟨middle, first, later⟩ := bind_eq_ok_iff.mp done
      rw [← List.singleton_append, ← List.append_assoc]
      exact induction (notes.define first) later

theorem Notes.exists_foldlM_define {defined names : List (List Char)}
    {uses : List (Nat × List Char)} {assembler : Assembler} (notes : Notes defined uses assembler)
    (distinct : (defined ++ names).Nodup) :
    ∃ next, names.foldlM Assembler.define assembler = .ok next := by
  induction names generalizing defined assembler with
  | nil => exact ⟨assembler, rfl⟩
  | cons name rest induction =>
      have absent : name ∉ defined := fun member =>
        (List.nodup_append.mp distinct).2.2 name member name List.mem_cons_self rfl
      obtain ⟨middle, first⟩ := notes.exists_define absent
      rw [← List.singleton_append, ← List.append_assoc] at distinct
      obtain ⟨next, later⟩ := induction (notes.define first) distinct
      exact ⟨next, bind_eq_ok_iff.mpr ⟨middle, first, later⟩⟩

theorem map_use_await (name : List Char) (line : Nat) (jump : Label) (waiting : List Waiting) :
    (await name line jump waiting).map Waiting.use =
      if name ∈ (waiting.map Waiting.use).map Prod.snd then waiting.map Waiting.use
      else waiting.map Waiting.use ++ [(line, name)] := by
  induction waiting with
  | nil => rfl
  | cons entry rest induction =>
      rw [await]
      by_cases same : entry.name = name
      · rw [if_pos same, if_pos (by simp [Waiting.use, same])]
        rfl
      · have other : name ≠ entry.use.2 := fun equal => same equal.symm
        rw [if_neg same, List.map_cons, induction]
        simp only [List.map_cons, List.mem_cons, other, false_or]
        split <;> rfl

theorem Notes.named {defined : List (List Char)} {uses : List (Nat × List Char)}
    {assembler : Assembler} (notes : Notes defined uses assembler) (number : Nat) (name : List Char)
    (make : UInt32 → Instruction) :
    Notes defined (uses ++ [(number, name)])
      (assembler.execute number (.jump (.label name) make)) := by
  rw [Assembler.execute]
  cases found : assembler.labels.lookup name with
  | some value =>
      have member : name ∈ defined := by
        by_contra absent
        rw [(notes.known name).mpr absent] at found
        cases found
      refine ⟨notes.distinct, notes.known, ?_⟩
      simpa [List.filter_append, member] using notes.waits
  | none =>
      have absent := (notes.known name).mp found
      refine ⟨notes.distinct, notes.known, ?_⟩
      have kept : (uses ++ [(number, name)]).filter (fun use => use.2 ∉ defined) =
          uses.filter (fun use => use.2 ∉ defined) ++ [(number, name)] := by
        simp [List.filter_append, absent]
      rw [map_use_await, notes.waits, kept, firstUses_append_singleton,
        if_congr mem_map_firstUses rfl rfl]

theorem Notes.executed {defined : List (List Char)} {uses : List (Nat × List Char)}
    {assembler : Assembler} (notes : Notes defined uses assembler) (number : Nat)
    (line : SourceLine) :
    Notes defined (uses ++ line.named?.toList.map fun name => (number, name))
      (assembler.executed number line.statement) := by
  obtain ⟨labels, statement⟩ := line
  have unchanged (builder : Builder) : Notes defined (uses ++ []) { assembler with builder } := by
    rw [List.append_nil]
    exact ⟨notes.distinct, notes.known, notes.waits⟩
  cases statement with
  | none => exact unchanged _
  | some statement =>
      cases statement with
      | constant bytes => exact unchanged _
      | plain instruction => exact unchanged _
      | pooled operand make => cases operand <;> exact unchanged _
      | jump target make =>
          cases target with
          | offset value => exact unchanged _
          | label name => exact notes.named number name make

/-- What is noted after any lines. -/
theorem Notes.of_takes {defined : List (List Char)} {uses : List (Nat × List Char)}
    {assembler final : Assembler} {number : Nat} {document : Document}
    (notes : Notes defined uses assembler) (taken : Takes assembler number document final) :
    Notes (defined ++ document.labels) (uses ++ document.usesFrom number) final := by
  induction taken generalizing defined uses with
  | nil assembler number => simpa [Document.labels, Document.usesFrom] using notes
  | cons done taken induction =>
      have later := induction ((notes.foldlM_define done).executed _ _)
      rwa [List.append_assoc, List.append_assoc] at later

/-- The assembler takes lines as long as they define no label twice. -/
theorem Notes.exists_takes {defined : List (List Char)} {uses : List (Nat × List Char)}
    {assembler : Assembler} {document : Document} (notes : Notes defined uses assembler)
    (distinct : (defined ++ document.labels).Nodup) (number : Nat) :
    ∃ final, Takes assembler number document final := by
  induction document generalizing defined uses assembler number with
  | nil => exact ⟨assembler, .nil _ _⟩
  | cons line rest induction =>
      have whole : defined ++ Document.labels (line :: rest) =
          (defined ++ line.labels) ++ Document.labels rest := by
        rw [List.append_assoc]
        rfl
      rw [whole] at distinct
      obtain ⟨middle, done⟩ := notes.exists_foldlM_define (List.nodup_append.mp distinct).1
      obtain ⟨final, taken⟩ :=
        induction ((notes.foldlM_define done).executed number line) distinct (number + 1)
      exact ⟨final, .cons done taken⟩

theorem notes_of_takes {final : Assembler} {document : Document}
    (taken : Takes {} 1 document final) :
    document.labels.Nodup ∧ final.waiting.map Waiting.use = firstUses document.undefinedUses := by
  have notes := notes_empty.of_takes taken
  exact ⟨notes.distinct, notes.waits⟩

end Assembler

end StackMachine
