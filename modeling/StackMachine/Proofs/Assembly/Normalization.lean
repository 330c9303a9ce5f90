import StackMachine.Proofs.Assembly.RoundTrip
import Mathlib.Data.List.Induction

/-!
# Normal forms and disassembly

A text without labels, pool entries and pool indices assembles to a program whose disassembly spells
every line as its normal form does, except that the normal form keeps the spelling of jump targets
and argument counts.
-/

namespace StackMachine

namespace Numeral

/-! ## Plain numerals -/

/-- A decimal numeral without a sign and without zeros in front. -/
def IsPlain (text : List Char) : Prop :=
  text ≠ [] ∧ (∀ c ∈ text, c.isDigit = true) ∧ (text.head? = some '0' → text = ['0'])

instance (text : List Char) : Decidable (IsPlain text) :=
  decidable_of_iff
    (text ≠ [] ∧ text.all Char.isDigit = true ∧ (text.head? = some '0' → text = ['0']))
    (by rw [IsPlain, List.all_eq_true])

theorem isPlain_decimal (value : Nat) : IsPlain (decimal value) := by
  refine ⟨Nat.toDigits_ne_nil, fun c member => ?_, ?_⟩
  · obtain ⟨digit, small, rfl⟩ := exists_digitChar_of_mem_toDigits (by decide : 1 < 10) member
    rw [Nat.isDigit_digitChar]
    exact decide_eq_true small
  · unfold decimal
    induction value using Nat.base_induction 10 (by decide) with
    | single digit small =>
        rw [Nat.toDigits_of_lt_base small, List.head?_cons, Option.some.injEq]
        intro zero
        rw [zero]
    | digit front digit small positive induction =>
        rw [← Nat.toDigits_append_toDigits (by decide) positive small]
        obtain ⟨c, rest, front_text⟩ := List.exists_cons_of_ne_nil
          (Nat.toDigits_ne_nil : Nat.toDigits 10 front ≠ [])
        rw [front_text] at induction ⊢
        intro zero
        have front_eq : Nat.ofDigitChars 10 (c :: rest) 0 = front := by
          rw [← front_text]
          exact Nat.ofDigitChars_ten_toDigits
        rw [induction zero] at front_eq
        exact absurd front_eq (Nat.ne_of_lt positive)

theorem digitChar_sub_of_isDigit {c : Char} (digit : c.isDigit = true) :
    c.toNat - '0'.toNat < 10 ∧ (c.toNat - '0'.toNat).digitChar = c := by
  have known : ∀ code < 58, 48 ≤ code → (code - 48).digitChar = Char.ofNat code := by decide
  simp only [Char.isDigit, Bool.and_eq_true, decide_eq_true_eq, ge_iff_le] at digit
  have lower : 48 ≤ c.toNat := digit.1
  have upper : c.toNat ≤ 57 := digit.2
  refine ⟨show c.toNat - 48 < 10 by omega, ?_⟩
  exact (known c.toNat (by omega) lower).trans (Char.ofNat_toNat c)

/-- A plain numeral is the decimal text of the number it spells. -/
theorem decimal_ofDigitChars {text : List Char} (plain : IsPlain text) :
    decimal (Nat.ofDigitChars 10 text 0) = text := by
  obtain ⟨nonempty, digits, leading⟩ := plain
  unfold decimal
  induction text using List.reverseRecOn with
  | nil => exact absurd rfl nonempty
  | append_singleton front last induction =>
      obtain ⟨small, last_eq⟩ := digitChar_sub_of_isDigit (digits last (by simp))
      rw [Nat.ofDigitChars_append, Nat.ofDigitChars_cons, Nat.ofDigitChars_nil]
      cases front with
      | nil =>
          rw [Nat.ofDigitChars_nil, Nat.mul_zero, Nat.zero_add, Nat.toDigits_of_lt_base small,
            last_eq]
          rfl
      | cons c rest =>
          have front_digits : ∀ d ∈ c :: rest, d.isDigit = true :=
            fun d member => digits d (List.mem_append_left _ member)
          have nonzero : (c :: rest).head? ≠ some '0' := by
            intro zero
            have short := leading (by simpa using zero)
            simp at short
          have front_eq := induction (List.cons_ne_nil c rest) front_digits
            fun zero => absurd zero nonzero
          have positive : 0 < Nat.ofDigitChars 10 (c :: rest) 0 := by
            refine Nat.pos_of_ne_zero fun zero => nonzero ?_
            rw [← front_eq, zero]
            rfl
          rw [← Nat.toDigits_append_toDigits (by decide) positive small, front_eq,
            Nat.toDigits_of_lt_base small, last_eq]

theorem isPlain_iff_of_unsigned? {limit value : Nat} {text : List Char}
    (read : unsigned? 10 limit text = some value) : IsPlain text ↔ text = decimal value := by
  constructor
  · intro plain
    have unsigned : ∀ c ∈ text, c ≠ '+' := by
      rintro c member rfl
      exact absurd (plain.2.1 '+' member) (by decide)
    rw [unsigned?_of_ne_plus unsigned, natural?_ten_of_isDigit plain.1 plain.2.1] at read
    obtain ⟨_, value_eq⟩ := Option.ite_none_right_eq_some.mp read
    cases value_eq
    exact (decimal_ofDigitChars plain).symm
  · rintro rfl
    exact isPlain_decimal value

theorem lt_of_unsigned? {base limit value : Nat} {text : List Char}
    (read : unsigned? base limit text = some value) : value < limit := by
  simp only [unsigned?] at read
  split at read
  · obtain ⟨small, value_eq⟩ := Option.ite_none_right_eq_some.mp read
    cases value_eq
    exact small
  · cases read

theorem isPlain_iff_of_uint32? {value : UInt32} {text : List Char}
    (read : uint32? text = some value) : IsPlain text ↔ text = decimal value.toNat := by
  obtain ⟨number, found, rfl⟩ := Option.map_eq_some_iff.mp read
  rw [UInt32.toNat_ofNat_of_lt' (lt_of_unsigned? found)]
  exact isPlain_iff_of_unsigned? found

theorem isPlain_iff_of_uint8? {value : UInt8} {text : List Char}
    (read : uint8? text = some value) : IsPlain text ↔ text = decimal value.toNat := by
  obtain ⟨number, found, rfl⟩ := Option.map_eq_some_iff.mp read
  rw [UInt8.toNat_ofNat_of_lt' (lt_of_unsigned? found)]
  exact isPlain_iff_of_unsigned? found

end Numeral

namespace Disassembly

/-! ## Spellings -/

/-- The token of a string operand. -/
def operandToken : PoolOperand → Token
  | .content bytes => .quoted bytes
  | .index value => .index value

/-- The lines that spell a statement. -/
inductive Spells : List Token → Statement → Prop
  | constant (bytes : List UInt8) : Spells (constantTokens bytes) (.constant bytes)
  | bare {op : Opcode} {instruction : Instruction} (named : instruction.opcode = op)
      (unpooled : instruction.poolIndex? = none)
      (written : ∀ program, operandTokens program instruction = []) :
      Spells [.word op.mnemonic.toList] (.plain instruction)
  | pushInt {text : List Char} {value : Int64} (read : Numeral.int64? text = some value) :
      Spells [.word Opcode.pushInt.mnemonic.toList, .word text] (.plain (.pushInt value))
  | pushFloat {text : List Char} {value : Binary64} (read : Binary64.ofOperand? text = some value) :
      Spells [.word Opcode.pushFloat.mnemonic.toList, .word text] (.plain (.pushFloat value))
  | pushBool (value : Bool) :
      Spells [.word Opcode.pushBool.mnemonic.toList, .word (Instruction.booleanText value)]
        (.plain (.pushBool value))
  | pooled {op : Opcode} {make : UInt32 → Instruction} (operand : PoolOperand)
      (named : ∀ index, (make index).opcode = op)
      (pooled : ∀ index, (make index).poolIndex? = some index)
      (written : ∀ program index, operandTokens program (make index) = [poolToken program index]) :
      Spells [.word op.mnemonic.toList, operandToken operand] (.pooled operand make)
  | callNative {text : List Char} {count : UInt8} (operand : PoolOperand)
      (read : Numeral.uint8? text = some count) :
      Spells [.word Opcode.callNative.mnemonic.toList, operandToken operand, .word text]
        (.pooled operand (.callNative · count))
  | jump {op : Opcode} {make : UInt32 → Instruction} {text : List Char} {target : Target}
      (jumps : op.isJump = true) (named : ∀ value, (make value).opcode = op)
      (unpooled : ∀ value, (make value).poolIndex? = none)
      (written : ∀ program value, operandTokens program (make value) = [numberToken value.toNat])
      (read : Statement.target text = .ok target) :
      Spells [.word op.mnemonic.toList, .word text] (.jump target make)

theorem takeWord_eq_ok_iff {op : Opcode} {operands rest : List Token} {text : List Char} :
    Statement.takeWord op operands = .ok (text, rest) ↔ operands = .word text :: rest := by
  unfold Statement.takeWord
  split <;> simp_all

theorem takePool_eq_ok_iff {op : Opcode} {operands rest : List Token} {operand : PoolOperand} :
    Statement.takePool op operands = .ok (operand, rest) ↔
      operands = operandToken operand :: rest := by
  unfold Statement.takePool
  split <;> cases operand <;> simp_all [operandToken]

theorem required_eq_ok_iff {α : Type} {read : Option α} {fault : String → AssemblyFault}
    {text : List Char} {value : α} :
    Statement.required read fault text = .ok value ↔ read = some value := by
  unfold Statement.required
  split <;> simp_all

theorem booleanText_of_boolean? {text : List Char} {value : Bool}
    (read : Statement.boolean? text = some value) : text = Instruction.booleanText value := by
  unfold Statement.boolean? at read
  split at read
  · cases read
    assumption
  · split at read
    · cases read
      assumption
    · cases read

theorem spells_of_ofOperands {op : Opcode} {operands : List Token} {statement : Statement}
    (read : Statement.ofOperands op operands = .ok (statement, [])) :
    Spells (.word op.mnemonic.toList :: operands) statement := by
  cases op with
  | pushInt =>
      obtain ⟨⟨text, rest⟩, word, read⟩ := bind_eq_ok_iff.mp read
      obtain ⟨value, found, finished⟩ := bind_eq_ok_iff.mp read
      cases finished
      rw [takeWord_eq_ok_iff.mp word]
      exact .pushInt (required_eq_ok_iff.mp found)
  | pushFloat =>
      obtain ⟨⟨text, rest⟩, word, read⟩ := bind_eq_ok_iff.mp read
      obtain ⟨value, found, finished⟩ := bind_eq_ok_iff.mp read
      cases finished
      rw [takeWord_eq_ok_iff.mp word]
      exact .pushFloat (required_eq_ok_iff.mp found)
  | pushBool =>
      obtain ⟨⟨text, rest⟩, word, read⟩ := bind_eq_ok_iff.mp read
      obtain ⟨value, found, finished⟩ := bind_eq_ok_iff.mp read
      cases finished
      rw [takeWord_eq_ok_iff.mp word, booleanText_of_boolean? (required_eq_ok_iff.mp found)]
      exact .pushBool value
  | pushString | storeGlobal | loadGlobal =>
      obtain ⟨⟨operand, rest⟩, pool, finished⟩ := bind_eq_ok_iff.mp read
      cases finished
      rw [takePool_eq_ok_iff.mp pool]
      exact .pooled operand (fun _ => rfl) (fun _ => rfl) fun _ _ => rfl
  | callNative =>
      obtain ⟨⟨operand, rest⟩, pool, read⟩ := bind_eq_ok_iff.mp read
      obtain ⟨⟨text, last⟩, word, read⟩ := bind_eq_ok_iff.mp read
      obtain ⟨count, found, finished⟩ := bind_eq_ok_iff.mp read
      cases finished
      rw [takePool_eq_ok_iff.mp pool, takeWord_eq_ok_iff.mp word]
      exact .callNative operand (required_eq_ok_iff.mp found)
  | jump | jumpIfFalse =>
      obtain ⟨⟨text, rest⟩, word, read⟩ := bind_eq_ok_iff.mp read
      obtain ⟨target, found, finished⟩ := bind_eq_ok_iff.mp read
      cases finished
      rw [takeWord_eq_ok_iff.mp word]
      exact .jump rfl (fun _ => rfl) (fun _ => rfl) (fun _ _ => rfl) found
  | _ =>
      cases read
      exact .bare rfl rfl fun _ => rfl

theorem spells_of_ofTokens {tokens : List Token} {statement : Statement}
    (read : Statement.ofTokens tokens = .ok (some statement)) : Spells tokens statement := by
  unfold Statement.ofTokens at read
  split at read
  · cases read
  · rename_i head operands
    split at read
    · rename_i directive
      split at read
      · cases read
        rw [directive]
        exact .constant _
      · cases read
    · split at read
      · cases read
      · rename_i op known
        obtain ⟨⟨found, rest⟩, spelled, read⟩ := bind_eq_ok_iff.mp read
        cases rest with
        | nil =>
            cases read
            have head_eq : head = op.mnemonic.toList := by
              rw [Opcode.mnemonic_of_ofMnemonic? known, String.toList_ofList]
            rw [head_eq]
            exact spells_of_ofOperands spelled
        | cons extra others => cases read
  · cases read

/-! ## Lines -/

/-- The jump target or argument count on a line. -/
def numericOperand? : List Token → Option (List Char)
  | [.word head, .word operand] =>
    if head = Opcode.jump.mnemonic.toList ∨ head = Opcode.jumpIfFalse.mnemonic.toList then
      some operand
    else none
  | [.word head, _, .word operand] =>
    if head = Opcode.callNative.mnemonic.toList then some operand else none
  | _ => none

/-- The instruction that a statement without labels and pool indices stands for, given the pool. -/
def resolve? (strings : List (List UInt8)) : Statement → Option Instruction
  | .plain instruction => some instruction
  | .pooled (.content bytes) make =>
    (strings.idxOf? bytes).map fun position => make (UInt32.ofNat position)
  | .jump (.offset value) make => some (make value)
  | _ => none

theorem numericOperand?_word (op : Opcode) (text : List Char) :
    numericOperand? [.word op.mnemonic.toList, .word text] =
      if op.isJump then some text else none := by
  have jumps : ∀ op ∈ Opcode.all,
      (op.mnemonic.toList = Opcode.jump.mnemonic.toList ∨
        op.mnemonic.toList = Opcode.jumpIfFalse.mnemonic.toList) ↔ op.isJump = true := by
    decide
  simp only [numericOperand?, jumps op op.mem_all]

theorem numericOperand?_pooled (op : Opcode) (operand : PoolOperand) :
    numericOperand? [.word op.mnemonic.toList, operandToken operand] = none := by
  cases operand <;> rfl

/-- Only the operands of pushes are respelled. -/
theorem canonicalTokens_word {op : Opcode} (text : List Char)
    (other : op ≠ .pushInt ∧ op ≠ .pushFloat) :
    canonicalTokens [.word op.mnemonic.toList, .word text] =
      [.word op.mnemonic.toList, .word text] := by
  have distinct : ∀ op ∈ Opcode.all, op ≠ .pushInt ∧ op ≠ .pushFloat →
      op.mnemonic.toList ≠ Opcode.pushInt.mnemonic.toList ∧
        op.mnemonic.toList ≠ Opcode.pushFloat.mnemonic.toList := by
    decide
  obtain ⟨no_int, no_float⟩ := distinct op op.mem_all other
  rw [canonicalTokens, canonicalOperand, if_neg no_int, if_neg no_float]

theorem canonicalTokens_pooled (op : Opcode) (operand : PoolOperand) :
    canonicalTokens [.word op.mnemonic.toList, operandToken operand] =
      [.word op.mnemonic.toList, operandToken operand] := by
  cases operand <;> rfl

/-- A string found by content is written by content. -/
theorem poolToken_of_idxOf? {program : Program} {bytes : List UInt8} {position : Nat}
    (indexable : program.strings.length ≤ UInt32.size)
    (found : program.strings.idxOf? bytes = some position) :
    program.string? (UInt32.ofNat position) = some bytes ∧
      poolToken program (UInt32.ofNat position) = .quoted bytes := by
  obtain ⟨inside, here, _⟩ := List.findIdx?_eq_some_iff_getElem.mp found
  have index_eq : (UInt32.ofNat position).toNat = position :=
    UInt32.toNat_ofNat_of_lt' (Nat.lt_of_lt_of_le inside indexable)
  have content : program.string? (UInt32.ofNat position) = some bytes := by
    rw [Program.string?, index_eq, List.getElem?_eq_getElem inside]
    exact congrArg some (by simpa using here)
  refine ⟨content, ?_⟩
  simp only [poolToken, content, index_eq, found, if_true]

theorem uint32?_of_target {text : List Char} {value : UInt32}
    (read : Statement.target text = .ok (.offset value)) : Numeral.uint32? text = some value := by
  unfold Statement.target at read
  split at read
  · rename_i found
    cases read
    exact found
  · split at read
    · split at read <;> cases read
    · cases read

/-- The disassembly of a line is its normal form up to the spelling of targets and counts. -/
theorem instructionTokens_eq_iff {program : Program} {tokens : List Token} {statement : Statement}
    {instruction : Instruction} (indexable : program.strings.length ≤ UInt32.size)
    (spells : Spells tokens statement)
    (resolved : resolve? program.strings statement = some instruction) :
    instructionTokens program instruction = canonicalTokens tokens ↔
      ∀ operand, numericOperand? tokens = some operand → Numeral.IsPlain operand := by
  cases spells with
  | constant => cases resolved
  | bare named unpooled written =>
      cases resolved
      simp [instructionTokens, written, named, canonicalTokens, numericOperand?]
  | pushInt read =>
      cases resolved
      rw [numericOperand?_word]
      simp [instructionTokens, operandTokens, canonicalTokens, canonicalOperand, read,
        Opcode.isJump, Instruction.opcode]
  | pushFloat read =>
      cases resolved
      have distinct : Opcode.pushFloat.mnemonic.toList ≠ Opcode.pushInt.mnemonic.toList := by decide
      rw [numericOperand?_word]
      simp [instructionTokens, operandTokens, canonicalTokens, canonicalOperand, read,
        Opcode.isJump, Instruction.opcode, distinct]
  | pushBool value =>
      cases resolved
      rw [numericOperand?_word, canonicalTokens_word _ (by decide)]
      simp [instructionTokens, operandTokens, Opcode.isJump, Instruction.opcode]
  | pooled operand named pooled written =>
      cases operand with
      | index value => cases resolved
      | content bytes =>
          obtain ⟨position, found, rfl⟩ := Option.map_eq_some_iff.mp resolved
          rw [numericOperand?_pooled, canonicalTokens_pooled, instructionTokens, named, written,
            (poolToken_of_idxOf? indexable found).2]
          simp [operandToken]
  | callNative operand read =>
      cases operand with
      | index value => cases resolved
      | content bytes =>
          obtain ⟨position, found, rfl⟩ := Option.map_eq_some_iff.mp resolved
          simp only [instructionTokens, operandTokens, (poolToken_of_idxOf? indexable found).2,
            numberToken, canonicalTokens, operandToken, numericOperand?, if_true,
            Instruction.opcode, List.cons.injEq, Token.word.injEq, true_and, and_true,
            Option.some.injEq, forall_eq']
          rw [Numeral.isPlain_iff_of_uint8? read]
          exact eq_comm
  | jump jumps named unpooled written read =>
      rename_i op make text target
      cases target with
      | label name => cases resolved
      | offset value =>
          cases resolved
          have other : op ≠ .pushInt ∧ op ≠ .pushFloat := by
            constructor <;> rintro rfl <;> cases jumps
          rw [numericOperand?_word, if_pos jumps, canonicalTokens_word _ other,
            instructionTokens, named, written, numberToken]
          simp only [List.cons.injEq, Token.word.injEq, true_and, and_true, Option.some.injEq,
            forall_eq']
          rw [Numeral.isPlain_iff_of_uint32? (uint32?_of_target read)]
          exact eq_comm

/-! ## Runs of the assembler -/

/-- Lines that define no label, are no pool entry and refer to no pool entry by index. -/
structure IsBasic (tokens : List Token) : Prop where
  unlabelled : (Statement.splitLabels tokens).1 = []
  undirected : tokens.head? ≠ some (.word Statement.constantDirective)
  unindexed : ∀ value, .index value ∉ tokens

/-- The tokens of the lines that hold any. -/
def tokenLines (texts : List (List Char)) : List (List Token) :=
  (texts.filterMap fun text => (Token.readLine text).toOption).filter fun tokens => !tokens.isEmpty

/-- The line of an instruction, given the pool. -/
def Renders (strings : List (List UInt8)) (tokens : List Token)
    (instruction : Instruction) : Prop :=
  ∃ statement, Spells tokens statement ∧ resolve? strings statement = some instruction

theorem splitLabels_of_unlabelled {tokens : List Token}
    (unlabelled : (Statement.splitLabels tokens).1 = []) :
    Statement.splitLabels tokens = ([], tokens) := by
  unfold Statement.splitLabels at unlabelled ⊢
  split at unlabelled
  · split at unlabelled
    · cases unlabelled
    · simp_all
  · rfl

theorem eq_nil_of_ofTokens {tokens : List Token} (read : Statement.ofTokens tokens = .ok none) :
    tokens = [] := by
  unfold Statement.ofTokens at read
  split at read
  · rfl
  · split at read
    · split at read <;> cases read
    · split at read
      · cases read
      · obtain ⟨⟨found, rest⟩, _, read⟩ := bind_eq_ok_iff.mp read
        cases rest <;> cases read
  · cases read

/-- What a line without labels does to the assembler. -/
theorem assembleLine_cases {assembler next : Assembler} {line : Nat} {text : List Char}
    (ran : assembler.assembleLine line text = .ok next)
    (basic : ∀ tokens, Token.readLine text = .ok tokens → tokens ≠ [] → IsBasic tokens) :
    Token.readLine text = .ok [] ∧ next = assembler ∨
      ∃ tokens statement, Token.readLine text = .ok tokens ∧ tokens ≠ [] ∧ Spells tokens statement ∧
        next = assembler.execute line statement := by
  obtain ⟨tokens, read, ran⟩ := bind_eq_ok_iff.mp ran
  have split_eq : Statement.splitLabels tokens = ([], tokens) := by
    by_cases empty : tokens = []
    · rw [empty, Statement.splitLabels]
      simp
    · exact splitLabels_of_unlabelled (basic tokens read empty).unlabelled
  rw [split_eq] at ran
  obtain ⟨same, defined, ran⟩ := bind_eq_ok_iff.mp ran
  cases defined
  obtain ⟨spelled, statement_eq, ran⟩ := bind_eq_ok_iff.mp ran
  cases spelled with
  | none =>
      cases ran
      exact .inl ⟨eq_nil_of_ofTokens statement_eq ▸ read, rfl⟩
  | some statement =>
      cases ran
      refine .inr ⟨tokens, statement, read, ?_, spells_of_ofTokens statement_eq, rfl⟩
      rintro rfl
      cases statement_eq

theorem strings_intern (builder : Builder) (bytes : List UInt8) :
    (builder.intern bytes).2.strings = addContent builder.strings bytes := by
  unfold Builder.intern addContent
  cases found : builder.strings.idxOf? bytes with
  | none =>
      have absent : bytes ∉ builder.strings := List.idxOf?_eq_none_iff.mp found
      simp [Builder.pushString, absent]
  | some position =>
      have member : bytes ∈ builder.strings := by
        by_contra absent
        cases found.symm.trans (List.idxOf?_eq_none_iff.mpr absent)
      simp [member]

/-- Interning a string for an instruction, when the pool under construction is a prefix of the final
one. -/
theorem emitInterned_eq {program : Program} {builder : Builder} {bytes : List UInt8}
    {make : UInt32 → Instruction} (pooled : ∀ index, (make index).poolIndex? = some index)
    (indexable : program.strings.length ≤ UInt32.size)
    (extended : (builder.emitInterned bytes make).strings <+: program.strings) :
    ∃ position, program.strings.idxOf? bytes = some position ∧
      builder.emitInterned bytes make =
        ⟨builder.code ++ (make (UInt32.ofNat position)).encode,
          (contents program [make (UInt32.ofNat position)]).foldl addContent builder.strings⟩ := by
  have extended : addContent builder.strings bytes <+: program.strings := by
    rw [← strings_intern]
    exact extended
  have added : bytes ∈ addContent builder.strings bytes := by
    unfold addContent
    split <;> simp_all
  cases found : program.strings.idxOf? bytes with
  | none => exact absurd (extended.subset added) (List.idxOf?_eq_none_iff.mp found)
  | some position =>
      obtain ⟨inside, _⟩ := List.findIdx?_eq_some_iff_getElem.mp found
      have index_eq : (UInt32.ofNat position).toNat = position :=
        UInt32.toNat_ofNat_of_lt' (Nat.lt_of_lt_of_le inside indexable)
      have first : program.strings.idxOf? bytes = some (UInt32.ofNat position).toNat := by
        rw [index_eq, found]
      refine ⟨position, rfl, ?_⟩
      rw [Builder.emitInterned, intern_eq extended first]
      simp [contents, pooled, (poolToken_of_idxOf? indexable found).1, Builder.emit]

theorem await_ne_nil (name : List Char) (line : Nat) (jump : Label) (waiting : List Waiting) :
    Assembler.await name line jump waiting ≠ [] := by
  cases waiting with
  | nil => exact List.cons_ne_nil _ _
  | cons entry rest =>
      unfold Assembler.await
      split <;> exact List.cons_ne_nil _ _

theorem labels_execute (assembler : Assembler) (line : Nat) (statement : Statement) :
    (assembler.execute line statement).labels = assembler.labels := by
  unfold Assembler.execute
  split
  all_goals first | rfl | (split <;> rfl)

/-- A basic line appends an instruction, unless it waits for a label. -/
theorem execute_renders {program : Program} {assembler : Assembler} {line : Nat}
    {tokens : List Token}
    {statement : Statement} (spells : Spells tokens statement) (basic : IsBasic tokens)
    (unlabelled : assembler.labels = [])
    (finished : (assembler.execute line statement).waiting = [])
    (indexable : program.strings.length ≤ UInt32.size)
    (extended : (assembler.execute line statement).builder.strings <+: program.strings) :
    ∃ instruction, resolve? program.strings statement = some instruction ∧
      assembler.execute line statement = { assembler with
        builder := ⟨assembler.builder.code ++ instruction.encode,
          (contents program [instruction]).foldl addContent assembler.builder.strings⟩ } := by
  have plain (instruction : Instruction) (unpooled : instruction.poolIndex? = none) :
      ∃ found, some instruction = some found ∧
        ({ assembler with builder := assembler.builder.emit instruction } : Assembler) =
          { assembler with
            builder := ⟨assembler.builder.code ++ found.encode,
              (contents program [found]).foldl addContent assembler.builder.strings⟩ } :=
    ⟨instruction, rfl, by simp [contents, unpooled, Builder.emit]⟩
  cases spells with
  | constant bytes => exact absurd rfl basic.undirected
  | bare named unpooled written => exact plain _ unpooled
  | pushInt read => exact plain _ rfl
  | pushFloat read => exact plain _ rfl
  | pushBool value => exact plain _ rfl
  | pooled operand named pooled written =>
      cases operand with
      | index value => exact absurd (by simp [operandToken]) (basic.unindexed value)
      | content bytes =>
          obtain ⟨position, found, emitted⟩ := emitInterned_eq pooled indexable extended
          exact ⟨_, by rw [resolve?, found]; rfl, by rw [Assembler.execute, emitted]⟩
  | callNative operand read =>
      cases operand with
      | index value => exact absurd (by simp [operandToken]) (basic.unindexed value)
      | content bytes =>
          obtain ⟨position, found, emitted⟩ := emitInterned_eq (fun _ => rfl) indexable extended
          exact ⟨_, by rw [resolve?, found]; rfl, by rw [Assembler.execute, emitted]⟩
  | jump jumps named unpooled written read =>
      rename_i op make text target
      cases target with
      | offset value => exact plain _ (unpooled value)
      | label name =>
          simp only [Assembler.execute, unlabelled, List.lookup_nil] at finished
          exact absurd finished (await_ne_nil _ _ _ _)

theorem assembleLines_renders {assembler final : Assembler} {line : Nat} {texts : List (List Char)}
    (ran : assembler.assembleLines line texts = .ok final)
    (unlabelled : assembler.labels = []) (finished : final.waiting = [])
    (indexable : final.builder.strings.length ≤ UInt32.size)
    (basic : ∀ tokens ∈ tokenLines texts, IsBasic tokens) :
    assembler.waiting = [] ∧ ∃ instructions,
      List.Forall₂ (Renders final.builder.strings) (tokenLines texts) instructions ∧
        final.builder.code = assembler.builder.code ++ instructions.flatMap Instruction.encode ∧
        (contents final.builder.program instructions).foldl addContent assembler.builder.strings =
          final.builder.strings := by
  induction texts generalizing assembler line with
  | nil =>
      cases ran
      exact ⟨finished, [], .nil, by simp, rfl⟩
  | cons text rest induction =>
      simp only [Assembler.assembleLines] at ran
      split at ran
      · cases ran
      rename_i next stepped
      have basic_here (tokens : List Token) (read : Token.readLine text = .ok tokens)
          (nonempty : tokens ≠ []) : IsBasic tokens :=
        basic tokens (by simp [tokenLines, read, Except.toOption, nonempty])
      rcases assembleLine_cases stepped basic_here with ⟨read, rfl⟩ |
        ⟨tokens, statement, read, nonempty, spells, rfl⟩
      · have lines_eq : tokenLines (text :: rest) = tokenLines rest := by
          simp [tokenLines, read, Except.toOption]
        rw [lines_eq] at basic ⊢
        exact induction ran unlabelled basic
      · have lines_eq : tokenLines (text :: rest) = tokens :: tokenLines rest := by
          simp [tokenLines, read, Except.toOption, nonempty]
        rw [lines_eq] at basic ⊢
        have still_unlabelled : (assembler.execute line statement).labels = [] := by
          rw [labels_execute, unlabelled]
        obtain ⟨waiting, instructions, renders, code_eq, strings_eq⟩ :=
          induction ran still_unlabelled (List.forall_mem_cons.mp basic).2
        have extended : (assembler.execute line statement).builder.strings <+:
            final.builder.program.strings := by
          show _ <+: final.builder.strings
          rw [← strings_eq]
          exact prefix_foldl_addContent _ _
        obtain ⟨instruction, resolved, executed⟩ :=
          execute_renders spells (basic_here tokens read nonempty) unlabelled waiting indexable
            extended
        rw [executed] at waiting code_eq strings_eq
        refine ⟨waiting, instruction :: instructions,
          .cons ⟨statement, spells, resolved⟩ renders, ?_, ?_⟩
        · rw [code_eq, List.flatMap_cons, List.append_assoc]
        · rw [contents_cons, List.foldl_append]
          exact strings_eq

/-- Lines are written as their normal forms when each of them is. -/
theorem map_instructionTokens_eq_iff {program : Program} {lines : List (List Token)}
    {instructions : List Instruction} (indexable : program.strings.length ≤ UInt32.size)
    (renders : List.Forall₂ (Renders program.strings) lines instructions) :
    instructions.map (instructionTokens program) = lines.map canonicalTokens ↔
      ∀ tokens ∈ lines, ∀ operand, numericOperand? tokens = some operand →
        Numeral.IsPlain operand := by
  induction renders with
  | nil => simp
  | cons head tail induction =>
      obtain ⟨statement, spells, resolved⟩ := head
      rw [List.map_cons, List.map_cons, List.cons.injEq, List.forall_mem_cons, induction,
        instructionTokens_eq_iff indexable spells resolved]

/-! ## Texts -/

theorem readable_canonicalTokens {tokens : List Token}
    (readable : ∀ token ∈ tokens, token.Readable) :
    ∀ token ∈ canonicalTokens tokens, token.Readable := by
  unfold canonicalTokens
  split
  · rename_i head operand
    have operand_readable : (Token.word operand).Readable := readable _ (by simp)
    refine List.forall_mem_cons.mpr
      ⟨readable _ List.mem_cons_self, List.forall_mem_singleton.mpr ?_⟩
    unfold canonicalOperand
    split
    · split
      · exact readable_integer _
      · exact operand_readable
    · split
      · split
        · exact readable_operandText _
        · exact operand_readable
      · exact operand_readable
  · exact readable

theorem canonicalTokens_ne_nil {tokens : List Token} (nonempty : tokens ≠ []) :
    canonicalTokens tokens ≠ [] := by
  unfold canonicalTokens
  split
  · exact List.cons_ne_nil _ _
  · exact nonempty

/-- The lines of a text whose lines can all be read, in normal form. -/
theorem filter_normalizeLine {texts : List (List Char)}
    (lexed : ∀ text ∈ texts, ∃ tokens, Token.readLine text = .ok tokens) :
    (texts.map normalizeLine).filter (fun line => !line.isEmpty) =
      ((tokenLines texts).map canonicalTokens).map Token.renderLine := by
  induction texts with
  | nil => rfl
  | cons text rest induction =>
      obtain ⟨⟨tokens, read⟩, later⟩ := List.forall_mem_cons.mp lexed
      have line_eq : normalizeLine text = Token.renderLine (canonicalTokens tokens) := by
        rw [normalizeLine, read]
      rw [List.map_cons, line_eq]
      by_cases empty : tokens = []
      · have lines_eq : tokenLines (text :: rest) = tokenLines rest := by
          simp [tokenLines, read, Except.toOption, empty]
        rw [lines_eq, ← induction later, empty]
        rfl
      · have lines_eq : tokenLines (text :: rest) = tokens :: tokenLines rest := by
          simp [tokenLines, read, Except.toOption, empty]
        have nonempty := Token.renderLine_ne_nil
          (readable_canonicalTokens (Token.readable_of_readLine read))
          (canonicalTokens_ne_nil empty)
        rw [lines_eq, List.filter_cons_of_pos (by simpa using nonempty), induction later]
        rfl

theorem readable_of_mem_map_canonicalTokens (texts : List (List Char)) :
    ∀ tokens ∈ (tokenLines texts).map canonicalTokens, ∀ token ∈ tokens, token.Readable := by
  intro tokens line
  obtain ⟨read, member, rfl⟩ := List.mem_map.mp line
  obtain ⟨text, _, read_eq⟩ := List.mem_filterMap.mp (List.mem_filter.mp member).1
  exact readable_canonicalTokens (Token.readable_of_readLine (toOption_eq_some_iff.mp read_eq))

/-- Readable lines are found again in their text. -/
theorem lines_flatMap_terminate {lines : List (List Token)}
    (readable : ∀ tokens ∈ lines, ∀ token ∈ tokens, token.Readable) :
    Text.lines ((lines.map Token.renderLine).flatMap terminate) = lines.map Token.renderLine := by
  refine Text.lines_flatMap_newline fun text member c inside => ?_
  obtain ⟨tokens, line, rfl⟩ := List.mem_map.mp member
  exact Token.staysInLine_of_mem_renderLine (readable tokens line) inside

/-- Readable lines are told apart by their texts. -/
theorem eq_of_flatMap_terminate {left right : List (List Token)}
    (left_readable : ∀ tokens ∈ left, ∀ token ∈ tokens, token.Readable)
    (right_readable : ∀ tokens ∈ right, ∀ token ∈ tokens, token.Readable)
    (same : (left.map Token.renderLine).flatMap terminate =
      (right.map Token.renderLine).flatMap terminate) : left = right := by
  have read_eq {lines : List (List Token)}
      (readable : ∀ tokens ∈ lines, ∀ token ∈ tokens, token.Readable) :
      (lines.map Token.renderLine).map Token.readLine = lines.map .ok := by
    rw [List.map_map]
    exact List.map_congr_left fun tokens line => Token.readLine_renderLine (readable tokens line)
  have texts_eq : left.map Token.renderLine = right.map Token.renderLine := by
    rw [← lines_flatMap_terminate left_readable, same, lines_flatMap_terminate right_readable]
  have oks_eq : left.map (Except.ok (ε := AssemblyFault)) = right.map .ok := by
    rw [← read_eq left_readable, texts_eq, read_eq right_readable]
  exact List.map_injective_iff.mpr (fun _ _ => Except.ok.inj) oks_eq

theorem exists_readLine_of_assembleLines {assembler final : Assembler} {line : Nat}
    {texts : List (List Char)} (ran : assembler.assembleLines line texts = .ok final) :
    ∀ text ∈ texts, ∃ tokens, Token.readLine text = .ok tokens := by
  induction texts generalizing assembler line with
  | nil => simp
  | cons text rest induction =>
      simp only [Assembler.assembleLines] at ran
      split at ran
      · cases ran
      rename_i next stepped
      obtain ⟨tokens, read, _⟩ := bind_eq_ok_iff.mp stepped
      exact List.forall_mem_cons.mpr ⟨⟨tokens, read⟩, induction ran⟩

/-- Equal texts of a disassembly and a normal form have equal lines. -/
theorem disassemble_eq_normalize_iff_tokens {source : String} (program : Program)
    (lexed : ∀ text ∈ Text.lines source.toList, ∃ tokens, Token.readLine text = .ok tokens) :
    disassemble program = normalize source ↔
      programTokens program = (tokenLines (Text.lines source.toList)).map canonicalTokens := by
  rw [disassemble, normalize, filter_normalizeLine lexed, ← List.flatMap_map]
  constructor
  · intro same
    exact eq_of_flatMap_terminate (fun _ line => readable_programTokens line)
      (readable_of_mem_map_canonicalTokens _) (String.ofList_injective same)
  · intro same
    rw [same]

/-! ## Pools -/

theorem mem_of_mem_foldl_addContent {pool contents : List (List UInt8)} {bytes : List UInt8}
    (member : bytes ∈ contents.foldl addContent pool) : bytes ∈ pool ∨ bytes ∈ contents := by
  induction contents generalizing pool with
  | nil => exact .inl member
  | cons first rest induction =>
      rcases induction member with known | later
      · unfold addContent at known
        split at known
        · exact .inl known
        · refine (List.mem_append.mp known).imp_right fun last => ?_
          rw [List.mem_singleton.mp last]
          exact List.mem_cons_self
      · exact .inr (List.mem_cons_of_mem first later)

/-- A pool that instructions imply can be addressed by them. -/
theorem length_le_of_impliedPool_eq {program : Program} {instructions : List Instruction}
    (implied : impliedPool program instructions = program.strings) :
    program.strings.length ≤ UInt32.size := by
  have distinct : program.strings.Nodup := by
    rw [← implied]
    exact nodup_foldl_addContent _ List.nodup_nil
  have addressed : program.strings ⊆ program.strings.take UInt32.size := by
    intro bytes member
    rw [← implied] at member
    obtain ⟨index, _, found⟩ := List.mem_filterMap.mp
      ((mem_of_mem_foldl_addContent member).resolve_left List.not_mem_nil)
    refine List.mem_iff_getElem?.mpr ⟨index.toNat, ?_⟩
    rw [List.getElem?_take_of_lt index.toNat_lt]
    exact found
  have short := (distinct.subperm addressed).length_le
  exact short.trans (List.length_take_le _ _)

theorem head?_canonicalTokens (tokens : List Token) :
    (canonicalTokens tokens).head? = tokens.head? := by
  unfold canonicalTokens
  split <;> rfl

/-- No basic line is written as an entry of the pool. -/
theorem impliedPool_eq_of_basic {program : Program} {lines : List (List Token)}
    (basic : ∀ tokens ∈ lines, IsBasic tokens)
    (same : programTokens program = lines.map canonicalTokens) :
    impliedPool program (program.listing.instructions.map Prod.snd) = program.strings := by
  by_contra differs
  cases pool : program.strings with
  | nil =>
      refine differs ?_
      have absent : program.string? = fun _ => none := by
        funext index
        rw [Program.string?, pool, List.getElem?_nil]
      simp [impliedPool, absent, pool]
  | cons bytes rest =>
      have spelled : constantTokens bytes ∈ programTokens program := by
        rw [programTokens, if_neg differs, pool]
        exact List.mem_cons_self
      rw [same] at spelled
      obtain ⟨tokens, member, written⟩ := List.mem_map.mp spelled
      refine (basic tokens member).undirected ?_
      rw [← head?_canonicalTokens, written]
      rfl

end Disassembly

open Disassembly

/-- The disassembly of an assembled text without labels, pool entries and pool indices is the normal
form of the text exactly when jump targets and argument counts are spelled plainly and pool operands
can address every string. -/
theorem disassemble_eq_normalize_iff {source : String} {program : Program}
    (assembled : assemble source = .ok program)
    (basic : ∀ tokens ∈ tokenLines (Text.lines source.toList), IsBasic tokens) :
    disassemble program = normalize source ↔
      program.strings.length ≤ UInt32.size ∧
      ∀ tokens ∈ tokenLines (Text.lines source.toList), ∀ operand,
        numericOperand? tokens = some operand → Numeral.IsPlain operand := by
  obtain ⟨final, ran, finished⟩ := bind_eq_ok_iff.mp assembled
  obtain ⟨waiting, rfl⟩ := Assembler.waiting_of_finish_eq_ok finished
  rw [disassemble_eq_normalize_iff_tokens _ (exists_readLine_of_assembleLines ran)]
  -- Only for a pool that can be addressed are the instructions those of the lines.
  by_cases indexable : final.builder.program.strings.length ≤ UInt32.size
  · obtain ⟨_, instructions, renders, code_eq, strings_eq⟩ :=
      assembleLines_renders ran rfl waiting indexable basic
    have decoded : final.builder.program.listing.instructions.map Prod.snd = instructions := by
      rw [Program.listing, Listing.ofCode, Builder.program, code_eq]
      exact Listing.instructions_decodeFrom_flatMap_encode 0 instructions
    have written : programTokens final.builder.program =
        instructions.map (instructionTokens final.builder.program) := by
      have implied :
          impliedPool final.builder.program instructions = final.builder.program.strings :=
        strings_eq
      simp [programTokens, decoded, implied]
    rw [written, map_instructionTokens_eq_iff indexable renders]
    exact (and_iff_right indexable).symm
  · refine iff_of_false (fun same => indexable ?_) fun plain => indexable plain.1
    exact length_le_of_impliedPool_eq (impliedPool_eq_of_basic basic same)

/-- The tokens of two lines that push a number and call a native with some count of arguments. -/
def callLines (count : List Char) : List (List Token) :=
  [[.word "push_int".toList, .word "+007".toList],
    [.word "call_native".toList, .quoted [112, 114, 105, 110, 116], .word count]]

theorem disassemble_eq_normalize_unless_padded :
    ∃ program,
      assemble "push_int +007 ; seven\ncall_native \"pri\\x6et\" 1\n" = .ok program ∧
        disassemble program = normalize "push_int +007 ; seven\ncall_native \"pri\\x6et\" 1\n" ∧
        assemble "push_int +007 ; seven\ncall_native \"pri\\x6et\" 01\n" = .ok program ∧
        disassemble program ≠ normalize
          "push_int +007 ; seven\ncall_native \"pri\\x6et\" 01\n" := by
  have basic (count : List Char) : ∀ tokens ∈ callLines count, IsBasic tokens := by
    simp only [callLines, List.forall_mem_cons]
    exact ⟨⟨rfl, by decide, by simp⟩,
      ⟨rfl, by simp [Statement.constantDirective], by simp⟩, by simp⟩
  have plain_lines : tokenLines (Text.lines
      "push_int +007 ; seven\ncall_native \"pri\\x6et\" 1\n".toList) = callLines ['1'] := by
    decide +kernel
  have padded_lines : tokenLines (Text.lines
      "push_int +007 ; seven\ncall_native \"pri\\x6et\" 01\n".toList) = callLines ['0', '1'] := by
    decide +kernel
  have plain : assemble "push_int +007 ; seven\ncall_native \"pri\\x6et\" 1\n" = .ok
      ⟨[[112, 114, 105, 110, 116]], [1, 7, 0, 0, 0, 0, 0, 0, 0, 80, 0, 0, 0, 0, 1]⟩ := by
    decide +kernel
  have padded : assemble "push_int +007 ; seven\ncall_native \"pri\\x6et\" 01\n" = .ok
      ⟨[[112, 114, 105, 110, 116]], [1, 7, 0, 0, 0, 0, 0, 0, 0, 80, 0, 0, 0, 0, 1]⟩ := by
    decide +kernel
  refine ⟨_, plain, ?_, padded, ?_⟩
  · rw [disassemble_eq_normalize_iff plain (plain_lines ▸ basic _), plain_lines]
    have unnumbered : numericOperand? [.word "push_int".toList, .word "+007".toList] = none := rfl
    have numbered : numericOperand? [.word "call_native".toList, .quoted [112, 114, 105, 110, 116],
        .word ['1']] = some ['1'] := rfl
    simp only [callLines, List.forall_mem_cons, unnumbered, numbered, Option.some.injEq, forall_eq']
    exact ⟨by decide, nofun, by decide, nofun⟩
  · rw [Ne, disassemble_eq_normalize_iff padded (padded_lines ▸ basic _), padded_lines]
    have count_padded : ¬ Numeral.IsPlain ['0', '1'] := by decide
    rintro ⟨_, spelled⟩
    exact count_padded (spelled _ (.tail _ (.head _)) _ rfl)

end StackMachine
