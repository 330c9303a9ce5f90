import StackMachine.Proofs.Machine.Globals
import StackMachine.Proofs.Machine.Loading
import StackMachine.Proofs.Machine.Record

/-!
# Faults keep the machine well defined

An instruction that fails has changed nothing that a program sees, but for two operands that
arithmetic or an ordering has taken off the stack and rejects.  This hangs on two things that hold
wherever a machine comes: every string held is live, so that only the kinds and sizes of operands
are to blame, and the stack is within its room, so that a result fits where its operands were.  A
machine that a fault has stopped stays so, and does not change under steps and runs, until a program
is loaded or reset.
-/

namespace StackMachine

/-- Two optional values that are not both there. -/
theorem eq_none_or_eq_none {α β : Type} {left : Option α} {right : Option β}
    (missing : ∀ x y, left = some x → right = some y → False) : left = none ∨ right = none := by
  cases left with
  | none => exact .inl rfl
  | some x =>
      cases right with
      | none => exact .inr rfl
      | some y => exact (missing x y rfl rfl).elim

theorem Value.string?_eq_some_iff {value : Value} {ref : StringRef} :
    value.string? = some ref ↔ value = .string ref := by
  cases value <;> simp [Value.string?]

theorem Value.nonstring_of_ne {left right : Value}
    (differ : ∀ x y, left = .string x → right = .string y → False) :
    left.string? = none ∨ right.string? = none :=
  eq_none_or_eq_none fun x y left_eq right_eq =>
    differ x y (string?_eq_some_iff.mp left_eq) (string?_eq_some_iff.mp right_eq)

/-- A sink takes bytes after those it has, all of them or some. -/
theorem Sink.written_write (sink : Sink) (bytes : List UInt8) :
    ∃ taken, (sink.write bytes).2.written = sink.written ++ taken ∧
      ((sink.write bytes).1 = true → taken = bytes) := by
  rw [write]
  cases sink.room with
  | none => exact ⟨bytes, by simp [written], fun _ => rfl⟩
  | some room =>
      refine ⟨bytes.take room, by simp [written], fun complete => ?_⟩
      exact List.take_of_length_le (of_decide_eq_true complete)

theorem Sink.written_prefix_write (sink : Sink) (bytes : List UInt8) :
    sink.written <+: (sink.write bytes).2.written := by
  obtain ⟨taken, written_eq, _⟩ := sink.written_write bytes
  exact ⟨taken, written_eq.symm⟩

namespace Machine

variable {machine before after : Machine}

/-! ## Room on the stack -/

/-- A change that keeps the set-up of the stack and leaves it within its room. -/
def KeepsRoom (before after : Machine) : Prop :=
  before.stack.Becomes after.stack

theorem keepsRoom_of_same (same : after.stack = before.stack) : KeepsRoom before after := by
  rw [KeepsRoom, same]
  exact .refl _

instance : Routine KeepsRoom where
  refl _ := keepsRoom_of_same rfl
  trans _ _ _ := OperandStack.Becomes.trans
  stack _ _ becomes := becomes
  natives _ _ := keepsRoom_of_same rfl
  sink _ _ := keepsRoom_of_same rfl
  pool _ _ := keepsRoom_of_same rfl
  lastError _ _ := keepsRoom_of_same rfl
  stored _ _ := keepsRoom_of_same rfl

theorem within_install_keepsRoom (program : Program) :
    (install program).Within KeepsRoom fun _ => True := by
  intro machine
  have kept (after : Machine) (enriched : Enriched machine after) : KeepsRoom machine after := by
    obtain ⟨_, _, _, rfl⟩ := enriched.rest
    exact keepsRoom_of_same rfl
  refine ((ensures_addConstants_added machine program.strings).mono
    (fun _ after held => ⟨kept after held.1, trivial⟩) fun _ after held => kept after held.1).bind
      fun refs after kept => ?_
  exact OperandStack.Becomes.trans kept (OperandStack.becomes_truncate _ 0)

theorem conduct_keepsRoom : Conduct (fun _ => True) KeepsRoom where
  assigned _ _ _ := keepsRoom_of_same rfl
  load image _ := Routine.within_load within_install_keepsRoom image
  loadProgram program _ := Routine.within_loadProgram (within_install_keepsRoom program)
  reset _ := Routine.within_outside _ fun machine => machine.stack.becomes_truncate 0
  collect _ := keepsRoom_of_same rfl
  setMode _ _ _ := keepsRoom_of_same rfl
  setThreshold _ _ := keepsRoom_of_same rfl
  runs := id
  step _ _ _ natives :=
    Routine.keeps_stepWith (fun _ _ => keepsRoom_of_same rfl)
      (fun _ _ _ _ => keepsRoom_of_same rfl) (fun _ => keepsRoom_of_same rfl) natives
  refused converted := converted
  returned _ := OperandStack.Becomes.trans

theorem Reached.bounded (reached : Reached machine) : machine.stack.Bounded := by
  induction reached with
  | created created =>
      obtain ⟨_, made, kept⟩ := Routine.of_create KeepsRoom created
      exact kept.bounded (OperandStack.bounded_of_create made)
  | served _ served induction =>
      exact (conduct_keepsRoom.related_of_served served).bounded induction
  | entered _ _ _ induction => exact induction

/-! ## Failures that change little -/

/-- Only the heap, where no string is gone, output, which grows, and the record of failures
differ. -/
structure Spares (before after : Machine) : Prop where
  stack : after.stack = before.stack
  globals : after.globals = before.globals
  natives : after.natives = before.natives
  program : after.program = before.program
  offset : after.offset = before.offset
  phase : after.phase = before.phase
  inNative : after.inNative = before.inNative
  heap : before.heap.Preserves after.heap
  written : before.sink.written <+: after.sink.written

instance : Modest Spares where
  refl machine := ⟨rfl, rfl, rfl, rfl, rfl, rfl, rfl, .refl machine.heap, List.prefix_rfl⟩
  trans _ _ _ early late :=
    { stack := late.stack.trans early.stack
      globals := late.globals.trans early.globals
      natives := late.natives.trans early.natives
      program := late.program.trans early.program
      offset := late.offset.trans early.offset
      phase := late.phase.trans early.phase
      inNative := late.inNative.trans early.inNative
      heap := early.heap.trans late.heap
      written := early.written.trans late.written }
  sink machine bytes :=
    ⟨rfl, rfl, rfl, rfl, rfl, rfl, rfl, .refl machine.heap, machine.sink.written_prefix_write bytes⟩
  lastError machine _ :=
    ⟨rfl, rfl, rfl, rfl, rfl, rfl, rfl, .refl machine.heap, List.prefix_rfl⟩
  stored machine bytes :=
    ⟨rfl, rfl, rfl, rfl, rfl, rfl, rfl, machine.heap.preserves_store bytes, List.prefix_rfl⟩

theorem within_invoke_spares (fuel : Nat) {entry : NativeEntry}
    (builtin : entry.native.Admitted true) (arguments : List Value) :
    (invoke fuel entry arguments).Within Spares fun _ => True := by
  cases fuel with
  | zero => exact Action.within_exhausted
  | succ fuel =>
      refine .of_keeps fun _ => Modest.keeps_runEntry ?_ ?_ fun {_ inside} _ =>
        (Modest.within_runNative builtin _).keeps inside
      · exact fun converted => { converted with }
      · intro start before after arguments converted ran
        have entered : Spares before { before with scratch := before.scratch ++ arguments } :=
          ⟨rfl, rfl, rfl, rfl, rfl, rfl, rfl, .refl _, List.prefix_rfl⟩
        have ended : Spares before after := IsTrans.trans _ _ _ entered ran
        exact { IsTrans.trans _ _ _ converted ended with }

/-! ## Rejected operands -/

/-- Operands that arithmetic or an ordering does not apply to, and how it says so. -/
inductive Rejects (heap : StringHeap) (left right : Value) : Opcode → MachineError → Prop
  /-- Only numbers are subtracted, multiplied and divided. -/
  | nonnumeric {op : Opcode} (among : op ∈ [Opcode.sub, .mul, .div])
      (nonnumeric : left.number? = none ∨ right.number? = none) :
      Rejects heap left right op (mismatch op left right)
  /-- Only two numbers or two strings are added and ordered. -/
  | unlike {op : Opcode} (among : op ∈ [Opcode.add, .lt, .gt, .le, .ge])
      (nonnumeric : left.number? = none ∨ right.number? = none)
      (nonstring : left.string? = none ∨ right.string? = none) :
      Rejects heap left right op (mismatch op left right)
  /-- Nothing is divided by zero. -/
  | zero {dividend divisor : Number} (left_eq : left.number? = some dividend)
      (right_eq : right.number? = some divisor) (zero : divisor.toFloat.isZero = true) :
      Rejects heap left right .div (.runtime .divisionByZero)
  /-- No string is longer than the heap allows. -/
  | tooLong {front back : List UInt8} (first : left.string?.bind heap.bytes? = some front)
      (second : right.string?.bind heap.bytes? = some back)
      (long : StringHeap.maxLength < (front ++ back).length) :
      Rejects heap left right .add (.ofStorage (.tooLong (front ++ back).length))

theorem nonnumeric_of_arithmetic {operation : ArithmeticOperation} {left right : Value}
    {error : MachineError} (refused : left.arithmetic operation right = .error error) :
    error = mismatch operation.opcode left right ∧
      (left.number? = none ∨ right.number? = none) := by
  rw [Value.arithmetic] at refused
  split at refused
  · cases refused
  · rename_i nonnumeric
    cases refused
    exact ⟨rfl, eq_none_or_eq_none nonnumeric⟩

theorem rejects_of_divide {heap : StringHeap} {left right : Value} {error : MachineError}
    (refused : left.divide right = .error error) : Rejects heap left right .div error := by
  rw [Value.divide] at refused
  split at refused
  · rename_i left_eq right_eq
    split at refused
    · rename_i zero
      cases refused
      exact .zero left_eq right_eq zero
    · cases refused
  · rename_i nonnumeric
    cases refused
    exact .nonnumeric (by decide) (eq_none_or_eq_none nonnumeric)

/-- Live strings have an order. -/
theorem rejects_of_order {heap : StringHeap} {op : Opcode} {left right : Value}
    {error : MachineError} (among : op ∈ [Opcode.add, .lt, .gt, .le, .ge])
    (left_live : left.LiveIn heap) (right_live : right.LiveIn heap)
    (refused : left.order heap op right = .error error) : Rejects heap left right op error := by
  rw [Value.order.eq_def] at refused
  split at refused
  · obtain ⟨front, front_eq⟩ := Value.liveIn_string.mp left_live
    obtain ⟨back, back_eq⟩ := Value.liveIn_string.mp right_live
    rw [front_eq, back_eq] at refused
    cases refused
  · rename_i nonstring
    split at refused
    · cases refused
    · rename_i nonnumeric
      cases refused
      exact .unlike among (eq_none_or_eq_none nonnumeric) (Value.nonstring_of_ne nonstring)

/-! ## Instructions -/

variable {failed : MachineError → Machine → Prop}

/-- How an instruction fails: it changes none of what programs see, or it has taken off two operands
that it rejects. -/
inductive Misfires (machine : Machine) (op : Opcode) (error : MachineError) : Machine → Prop
  | spares {after : Machine} (spares : Spares machine after) : Misfires machine op error after
  | rejected {left right : Value} {stack : OperandStack}
      (popped : machine.stack.pop2 op.mnemonic = .ok (left, right, stack))
      (rejects : Rejects machine.heap left right op error) :
      Misfires machine op error { machine with stack }

theorem misfires_unchanged (machine : Machine) (op : Opcode) (error : MachineError) :
    Misfires machine op error machine :=
  .spares (Std.Refl.refl machine)

theorem ensures_pushing {value : Value}
    (full : ∀ error, machine.stack.push value = .error error → failed error machine) :
    (pushing value).Ensures machine failed fun _ _ => True :=
  (ensures_pushOperand full).bind fun _ _ _ => trivial

/-- There is room for the result of an operation, so that only the operation itself can fail once
the operands are taken off. -/
theorem ensures_binary_misfires {op : Opcode} {operation : Value → Value → Update Value}
    (bounded : machine.stack.Bounded)
    (operates : ∀ left right stack, machine.stack.pop2 op.mnemonic = .ok (left, right, stack) →
      (operation left right).Ensures { machine with stack }
        (fun error after => after = { machine with stack } ∧
          Rejects machine.heap left right op error) fun _ after => after.stack = stack) :
    (binary op operation).Ensures machine (Misfires machine op) fun _ _ => True := by
  refine (ensures_popOperands op fun _ => misfires_unchanged _ _ _).bind fun values after held => ?_
  obtain ⟨stack, done, rfl⟩ := held
  have operated : (operation values.1 values.2).Ensures { machine with stack }
      (Misfires machine op) fun _ after => after.stack = stack := by
    apply (operates values.1 values.2 stack done).mono _ fun _ _ => id
    rintro error after ⟨rfl, rejects⟩
    exact .rejected done rejects
  refine operated.bind fun result after same => ensures_pushing fun error full => ?_
  -- The result of an operation never finds the stack full.
  obtain ⟨last, pushed⟩ := bounded.exists_push_of_pop2 done result
  rw [same, pushed] at full
  cases full

/-- Arithmetic that fails on operands it rejects, and changes nothing. -/
theorem ensures_ofExcept_rejects {op : Opcode} {heap : StringHeap} {left right : Value}
    {stack : OperandStack} {result : Except MachineError Value}
    (rejects : ∀ error, result = .error error → Rejects heap left right op error) :
    (Update.ofExcept result).Ensures { machine with stack }
      (fun error after => after = { machine with stack } ∧ Rejects heap left right op error)
      fun _ after => after.stack = stack := by
  cases result with
  | error error => exact ⟨rfl, rejects error rfl⟩
  | ok value => exact rfl

theorem ensures_addValues_rejects {left right : Value} (stack : OperandStack)
    (left_live : left.LiveIn machine.heap) (right_live : right.LiveIn machine.heap) :
    (addValues left right).Ensures { machine with stack }
      (fun error after => after = { machine with stack } ∧
        Rejects machine.heap left right .add error) fun _ after => after.stack = stack := by
  rw [addValues.eq_def]
  split
  · rename_i front back
    obtain ⟨first, first_eq⟩ := Value.liveIn_string.mp left_live
    obtain ⟨second, second_eq⟩ := Value.liveIn_string.mp right_live
    have joined : machine.heap.joined front back = .ok (first ++ second) := by
      rw [StringHeap.joined, first_eq, second_eq]
    refine .get_bind ?_
    rw [joined]
    have allocated : (allocate (first ++ second)).Ensures { machine with stack }
        (fun error after => after = { machine with stack } ∧
          Rejects machine.heap (.string front) (.string back) .add error)
        fun _ after => after.stack = stack := by
      rw [allocate, allocateWith, StringHeap.checkLength]
      split
      · rename_i long
        exact ⟨rfl, .tooLong first_eq second_eq long⟩
      · exact rfl
    exact allocated.bind fun _ _ same => same
  · rename_i nonstring
    refine ensures_ofExcept_rejects fun error refused => ?_
    obtain ⟨rfl, nonnumeric⟩ := nonnumeric_of_arithmetic refused
    exact .unlike (by decide) nonnumeric (Value.nonstring_of_ne nonstring)

theorem live_of_pop2 {onlyBuiltins : Bool} {operation : String} {left right : Value}
    {stack : OperandStack} (intact : machine.Intact onlyBuiltins)
    (popped : machine.stack.pop2 operation = .ok (left, right, stack)) :
    left.LiveIn machine.heap ∧ right.LiveIn machine.heap := by
  have held := OperandStack.toList_of_pop2 popped
  exact ⟨intact.stack left (by simp [held]), intact.stack right (by simp [held])⟩

theorem ensures_ordering_misfires {op : Opcode} (wanted : List Ordering)
    (among : op ∈ [Opcode.add, .lt, .gt, .le, .ge]) (intact : machine.Intact true)
    (bounded : machine.stack.Bounded) :
    (ordering op wanted).Ensures machine (Misfires machine op) fun _ _ => True := by
  refine ensures_binary_misfires bounded fun left right stack popped => .get_bind ?_
  obtain ⟨left_live, right_live⟩ := live_of_pop2 intact popped
  refine .ofExcept_bind (fun error refused => ⟨rfl, ?_⟩) fun _ _ => rfl
  exact rejects_of_order among left_live right_live refused

/-- The name of a global is live, so that a value taken off for it is stored. -/
theorem ensures_storeGlobal_misfires (index : UInt32) (intact : machine.Intact true) :
    (storeGlobal index).Ensures machine (Misfires machine .storeGlobal) fun _ _ => True := by
  refine (ensures_constant fun _ => misfires_unchanged _ _ _).bind fun key start found => ?_
  obtain ⟨rfl, constant⟩ := found
  refine (ensures_popOperand .storeGlobal (misfires_unchanged start .storeGlobal)).bind
    fun value after held => ?_
  obtain ⟨stack, _, rfl⟩ := held
  obtain ⟨name, live⟩ := intact.constants key (List.mem_of_getElem? constant)
  obtain ⟨previous, globals, stored, _⟩ :=
    intact.globals_sound.exists_put_eq_ok intact.globals_balanced intact.hashed live value
  refine .get_bind ?_
  rw [stored]
  trivial

theorem ensures_loadGlobal_misfires (index : UInt32) :
    (loadGlobal index).Ensures machine (Misfires machine .loadGlobal) fun _ _ => True := by
  refine (ensures_constant fun _ => misfires_unchanged _ _ _).bind fun key start found => ?_
  obtain ⟨rfl, _⟩ := found
  refine .get_bind ?_
  cases start.globals.get? start.heap key with
  | none => exact misfires_unchanged _ _ _
  | some value => exact ensures_pushing fun _ _ => misfires_unchanged _ _ _

/-- The arguments of a native leave room for its result, and where there are none a full stack stays
as it was. -/
theorem ensures_replacing_misfires {op : Opcode} {count : Nat} (spares : Spares machine after)
    (bounded : machine.stack.Bounded) (enough : count ≤ machine.stack.depth) (result : Value) :
    (do
      modify fun (machine' : Machine) =>
        { machine' with stack := machine'.stack.truncate (machine.stack.depth - count) }
      pushing result : Action Flow).Ensures after (Misfires machine op) fun _ _ => True := by
  refine Action.ensures_modify_bind (Action.ensures_lift (ensures_pushing fun error full => ?_))
  rw [spares.stack] at full ⊢
  rcases Nat.eq_zero_or_pos count with rfl | some
  -- Without arguments the stack may be full, but nothing has been taken off either.
  · rw [Nat.sub_zero, OperandStack.truncate_depth]
    exact .spares { spares with stack := rfl }
  · have less : machine.stack.depth - count < machine.stack.depth := by omega
    obtain ⟨last, pushed⟩ := bounded.exists_push_truncate less result
    cases pushed.symm.trans full

theorem ensures_callConstant_misfires (fuel : Nat) (index : UInt32) (count : Nat)
    (intact : machine.Intact true) (bounded : machine.stack.Bounded) :
    (callConstant (invoke fuel) index count).Ensures machine (Misfires machine .callNative)
      fun _ _ => True := by
  refine (Action.ensures_lift (ensures_constant fun _ => misfires_unchanged _ _ _)).bind
    fun key start found => ?_
  obtain ⟨rfl, _⟩ := found
  refine Action.ensures_get_bind ?_
  cases registered : start.natives.get? start.heap key with
  | none => exact Action.ensures_of_eq_some rfl (misfires_unchanged _ _ _)
  | some entry =>
      have builtin := intact.admitted_of_get? registered
      refine (Action.ensures_lift (Update.ensures_ofStack fun _ _ =>
        misfires_unchanged _ _ _)).bind fun _ last held => ?_
      obtain ⟨required, rfl⟩ := held
      have enough := OperandStack.require_eq_ok_iff.mp required
      have left (after : Machine) (spares : Spares { last with inNative := true } after) :
          Spares last { after with inNative := last.inNative } :=
        { spares with inNative := rfl }
      have called : (enterNative (invoke fuel) entry (last.stack.top count) last.inNative).Ensures
          last (Misfires last .callNative) fun _ after => Spares last after :=
        ensures_enterNative ((within_invoke_spares fuel builtin _ _).mono
          (fun _ after held => .spares (left after held.1)) fun _ after held => left after held)
      exact Action.Ensures.bind called fun result ended spares =>
        ensures_replacing_misfires spares bounded enough result

/-- An instruction that fails has changed nothing but output and the heap, or has taken off the two
operands that it rejects. -/
theorem ensures_execute_misfires (fuel : Nat) (instruction : Instruction)
    (intact : machine.Intact true) (bounded : machine.stack.Bounded) :
    (execute (invoke fuel) instruction).Ensures machine (Misfires machine instruction.opcode)
      fun _ _ => True := by
  have unchanged {op : Opcode} := misfires_unchanged machine op
  have pushes {op : Opcode} (value : Value) :
      (liftM (pushing value) : Action Flow).Ensures machine (Misfires machine op) fun _ _ => True :=
    Action.ensures_lift (ensures_pushing fun error _ => unchanged error)
  have pops (op : Opcode) (flow : Value → Flow) :
      (do return flow (← popOperand op) : Action Flow).Ensures machine (Misfires machine op)
        fun _ _ => True :=
    (Action.ensures_lift (ensures_popOperand op unchanged)).bind fun _ _ _ =>
      Action.ensures_of_eq_some rfl trivial
  cases instruction with
  | pushInt | pushFloat | pushNil | pushBool => exact pushes _
  | pushString index =>
      refine (Action.ensures_lift (ensures_constant fun _ => unchanged _)).bind
        fun ref after found => ?_
      obtain ⟨rfl, _⟩ := found
      exact pushes _
  | add =>
      refine Action.ensures_lift (ensures_binary_misfires bounded fun left right stack popped => ?_)
      obtain ⟨left_live, right_live⟩ := live_of_pop2 intact popped
      exact ensures_addValues_rejects stack left_live right_live
  | sub | mul =>
      refine Action.ensures_lift (ensures_binary_misfires bounded fun left right stack popped =>
        ensures_ofExcept_rejects fun error refused => ?_)
      obtain ⟨rfl, nonnumeric⟩ := nonnumeric_of_arithmetic refused
      exact .nonnumeric (by decide) nonnumeric
  | div =>
      exact Action.ensures_lift (ensures_binary_misfires bounded fun left right stack popped =>
        ensures_ofExcept_rejects fun error refused => rejects_of_divide refused)
  | eq | neq =>
      exact Action.ensures_lift (ensures_binary_misfires bounded fun left right stack popped =>
        .get_bind rfl)
  | lt | gt | le | ge =>
      exact Action.ensures_lift (ensures_ordering_misfires _ (by decide) intact bounded)
  | print =>
      refine (Action.ensures_lift (ensures_topOperand _ unchanged)).bind fun value after found => ?_
      obtain ⟨rfl, _⟩ := found
      have written : (write (Utf8.encode (value.text after.heap ++ ['\n']))).Ensures after
          (Misfires after .print) fun _ _ => True :=
        (Modest.within_write _ after).mono (fun _ _ held => .spares held.1) fun _ _ _ => trivial
      exact Action.ensures_get_bind ((Action.ensures_lift written).bind fun _ _ _ =>
        Action.ensures_of_eq_some rfl trivial)
  | pop => exact pops .pop fun _ => .next
  | dup =>
      refine (Action.ensures_lift (ensures_topOperand _ unchanged)).bind fun value after found => ?_
      obtain ⟨rfl, _⟩ := found
      exact pushes value
  | swap =>
      refine Action.ensures_get_bind ?_
      exact (Action.ensures_lift (Update.ensures_ofStack fun _ _ => unchanged _)).bind
        fun _ _ _ => Action.ensures_of_eq_some rfl trivial
  | storeGlobal index => exact Action.ensures_lift (ensures_storeGlobal_misfires index intact)
  | loadGlobal index => exact Action.ensures_lift (ensures_loadGlobal_misfires index)
  | callNative index count =>
      exact ensures_callConstant_misfires fuel index count.toNat intact bounded
  | jump | halt => exact Action.ensures_of_eq_some rfl trivial
  | jumpIfFalse target =>
      exact pops .jumpIfFalse fun value => if value.isTruthy then .next else .jump target

/-! ## Steps -/

/-- How a failed instruction leaves a machine that was to carry it out. -/
structure Faulted (before : Machine) (error : MachineError) (after : Machine) : Prop where
  phase : after.phase = .faulted
  outside : after.inNative = false
  offset : after.offset = before.offset
  program : after.program = before.program
  globals : after.globals = before.globals
  natives : after.natives = before.natives
  /-- The strings of the stack, the globals, the natives and the program have their contents. -/
  contents : ∀ ref ∈ before.held, after.heap.bytes? ref = before.heap.bytes? ref
  lastError : after.lastError = some ⟨error.status, error.message⟩
  /-- The stack is as before, or has lost the two operands that the instruction rejects. -/
  stack : after.stack = before.stack ∨
    ∃ instruction left right, before.fetch = .ok instruction ∧
      Rejects before.heap left right instruction.opcode error ∧
      before.stack.toList = after.stack.toList ++ [left, right] ∧
      after.stack.config = before.stack.config

/-- A collection changes no string that is held. -/
theorem exists_swept_eq (machine : Machine) :
    ∃ heap pool collector, machine.swept = { machine with heap, pool, collector } ∧
      ∀ ref ∈ machine.held, heap.bytes? ref = machine.heap.bytes? ref := by
  rw [swept]
  split
  · exact ⟨_, _, _, rfl, fun ref member =>
      Collector.bytes?_collect machine.heap (mem_roots_of_mem_held member)⟩
  · exact ⟨_, _, _, rfl, fun _ _ => rfl⟩

theorem faulted_of_spares {error : MachineError} (intact : machine.Intact true)
    (outside : machine.inNative = false) (spares : Spares machine.swept after) :
    Faulted machine error (({ after with phase := .faulted } : Machine).remember error) := by
  obtain ⟨heap, pool, collector, swept_eq, kept⟩ := exists_swept_eq machine
  rw [swept_eq] at spares
  exact
    { phase := rfl
      outside := spares.inNative.trans outside
      offset := spares.offset
      program := spares.program
      globals := spares.globals
      natives := spares.natives
      contents := fun ref member => by
        obtain ⟨bytes, live⟩ := intact.live_of_mem_held member
        rw [live]
        exact spares.heap ref bytes ((kept ref member).trans live)
      lastError := rfl
      stack := .inl spares.stack }

theorem Rejects.congr {heap heap' : StringHeap} {left right : Value} {op : Opcode}
    {error : MachineError} (rejects : Rejects heap left right op error)
    (left_eq : left.string?.bind heap.bytes? = left.string?.bind heap'.bytes?)
    (right_eq : right.string?.bind heap.bytes? = right.string?.bind heap'.bytes?) :
    Rejects heap' left right op error := by
  cases rejects with
  | nonnumeric among nonnumeric => exact .nonnumeric among nonnumeric
  | unlike among nonnumeric nonstring => exact .unlike among nonnumeric nonstring
  | zero left_eq right_eq zero => exact .zero left_eq right_eq zero
  | tooLong first second long => exact .tooLong (left_eq ▸ first) (right_eq ▸ second) long

theorem faulted_of_rejected {instruction : Instruction} {error : MachineError} {left right : Value}
    {stack : OperandStack} (fetched : machine.fetch = .ok instruction)
    (outside : machine.inNative = false)
    (popped : machine.swept.stack.pop2 instruction.opcode.mnemonic = .ok (left, right, stack))
    (rejects : Rejects machine.swept.heap left right instruction.opcode error) :
    Faulted machine error
      (({ machine.swept with stack, phase := .faulted } : Machine).remember error) := by
  obtain ⟨heap, pool, collector, swept_eq, kept⟩ := exists_swept_eq machine
  rw [swept_eq] at popped rejects ⊢
  have stack_eq := OperandStack.toList_of_pop2 popped
  have content (value : Value) (member : value ∈ machine.stack.toList) :
      value.string?.bind heap.bytes? = value.string?.bind machine.heap.bytes? := by
    cases value with
    | string ref => exact kept ref (mem_held_iff.mpr (.inl member))
    | _ => rfl
  have rejects := rejects.congr (content left (by simp [stack_eq]))
    (content right (by simp [stack_eq]))
  exact
    { phase := rfl
      outside
      offset := rfl
      program := rfl
      globals := rfl
      natives := rfl
      contents := kept
      lastError := rfl
      stack := .inr ⟨instruction, left, right, fetched, rejects, stack_eq,
        (OperandStack.becomes_of_pop2 popped).config⟩ }

theorem ensures_step_faulted (fuel : Nat) (ready : machine.Ready) (intact : machine.Intact true)
    (bounded : machine.stack.Bounded) :
    (stepWith (invoke fuel)).Ensures machine (Faulted machine) fun _ _ => True := by
  obtain ⟨outside, phase_eq⟩ := ready
  refine ensures_stepWith ?_ ?_ ?_ ?_ fun _ _ => ?_
  · exact fun _ inside => absurd (outside.symm.trans inside) nofun
  · exact fun halted => absurd (phase_eq.symm.trans halted) nofun
  · exact fun faulted => absurd (phase_eq.symm.trans faulted) nofun
  · exact fun _ empty => absurd (phase_eq.symm.trans empty) nofun
  · have swept_fetch : machine.swept.fetch = machine.fetch :=
      swept_elim (motive := fun swept => swept.fetch = machine.fetch) rfl rfl
    have swept_intact : machine.swept.Intact true := swept_elim intact intact.collect
    have swept_bounded : machine.swept.stack.Bounded :=
      swept_elim (motive := fun swept => swept.stack.Bounded) bounded bounded
    refine ensures_executeNext (fun error _ => ?_) fun instruction fetched => ?_
    · exact faulted_of_spares intact outside (Std.Refl.refl _)
    · refine (ensures_execute_misfires fuel instruction swept_intact swept_bounded).mono
        (fun error after misfires => ?_) fun flow _ _ => trivial
      cases misfires with
      | spares spares => exact faulted_of_spares intact outside spares
      | rejected popped rejects =>
          exact faulted_of_rejected (swept_fetch ▸ fetched) outside popped rejects

/-! ## Until a program is loaded or reset -/

/-- Calls that do not move the program leave the place alone. -/
theorem conduct_inPlace : Conduct (fun call => call.motion? = none) InPlace where
  assigned _ := inPlace_assigned
  load _ moves := nomatch moves
  loadProgram _ moves := nomatch moves
  reset moves := nomatch moves
  collect := inPlace_collect
  setMode machine _ _ := inPlace_aside machine _ machine.scratch
  setThreshold machine _ := inPlace_aside machine _ machine.scratch
  runs moves := nomatch moves
  step moves := nomatch moves
  refused {_ before} converted :=
    IsTrans.trans _ _ _ converted (inPlace_aside before before.collector _)
  returned {_ before after} arguments converted ran := by
    have started := inPlace_aside before before.collector (before.scratch ++ arguments)
    have ended := inPlace_aside after after.collector
    exact IsTrans.trans _ _ _ converted (IsTrans.trans _ _ _ started
      (IsTrans.trans _ _ _ ran (ended _)))

theorem InPlace.stuck (inPlace : InPlace before after) (stuck : before.Stuck) : after.Stuck :=
  ⟨inPlace.inNative.trans stuck.1, inPlace.phase.trans stuck.2⟩

end Machine

/-- A request that loads or resets the program of a machine, and succeeds. -/
def Request.Renews (machine : Machine) : Request → Prop
  | .call (.load image) => ∃ after, (Machine.load image).apply machine = (.ok (), after)
  | .call (.loadProgram program) =>
    ∃ after, (Machine.loadProgram program).apply machine = (.ok (), after)
  | .call .reset => ∃ after, Machine.reset.apply machine = (.ok (), after)
  | _ => False

namespace Machine

/-- Machines that come of one by requests that register builtins only and of which none loads or
resets a program and succeeds. -/
inductive Lingers (start : Machine) : Machine → Prop
  | start : Lingers start start
  | served {machine after : Machine} {fuel : Nat} {request : Request}
      {result : Except MachineError Unit} (lingers : Lingers start machine)
      (admitted : request.Admitted true) (unrenewed : ¬ request.Renews machine)
      (served : (request.serve (invoke fuel) fuel).apply machine = some (result, after)) :
      Lingers start after

/-- A program that cannot be installed leaves the place alone. -/
theorem ensures_installing_inPlace {α : Type} (what : String) {checked : Except MachineError α}
    {choice : α → Program} :
    (Update.recorded do
      requireOutsideNative what
      let value ← Update.ofExcept checked
      install (choice value)).Ensures machine (fun _ after => InPlace machine after)
        fun _ _ => True := by
  refine Update.Ensures.recorded ?_
  have same (error : MachineError) : InPlace machine (machine.remember error) :=
    Modest.lastError machine _
  refine (ensures_requireOutsideNative what fun error _ _ => same error).bind fun _ after held => ?_
  obtain ⟨rfl, _⟩ := held
  refine .ofExcept_bind (fun error _ => same error) fun value _ => ?_
  have added : (addConstants (choice value).strings).Ensures after
      (fun error last => InPlace after (last.remember error)) fun _ _ => True :=
    Update.Ensures.mono (keeps_addConstants_stocked (choice value).strings)
      (fun error _ stocked => Modest.remember error stocked.toInPlace) fun _ _ _ => trivial
  exact added.bind fun _ _ _ => trivial

theorem ensures_reset_inPlace :
    reset.Ensures machine (fun _ after => InPlace machine after) fun _ _ => True := by
  have same (error : MachineError) : InPlace machine (machine.remember error) :=
    Modest.lastError machine _
  refine Update.Ensures.recorded ?_
  exact (ensures_requireOutsideNative _ fun error _ _ => same error).bind fun _ _ _ => trivial

/-- A load or reset that does not succeed leaves the place alone. -/
theorem inPlace_of_refused {update : Update Unit} {result : Except MachineError Unit}
    (ensured : update.Ensures machine (fun _ after => InPlace machine after) fun _ _ => True)
    (refused : ¬ ∃ after, update.apply machine = (.ok (), after))
    (served : (do let _ ← Action.attempt (liftM update : Action Unit) : Action Unit).apply machine =
      some (result, after)) : InPlace machine after := by
  obtain ⟨outcome, ended⟩ := exists_apply_of_attempt served
  have applied : update.apply machine = (outcome, after) := Option.some.inj ended
  rw [Update.Ensures, applied] at ensured
  cases outcome with
  | error error => exact ensured
  | ok value => exact absurd ⟨after, applied⟩ refused

theorem keeps_stepWith_of_stuck {natives : Invoker} (stuck : machine.Stuck) :
    (stepWith natives).Keeps Eq machine fun _ _ => False := by
  obtain ⟨outside, phase_eq⟩ := stuck
  refine ensures_stepWith ?_ ?_ ?_ ?_ fun _ ready => ?_
  · exact fun _ inside => absurd (outside.symm.trans inside) nofun
  · exact fun halted => absurd (phase_eq.symm.trans halted) nofun
  · exact fun _ => rfl
  · exact fun _ empty => absurd (phase_eq.symm.trans empty) nofun
  · exact absurd (phase_eq.symm.trans ready) nofun

theorem keeps_runWith_of_stuck {natives : Invoker} (stuck : machine.Stuck) (fuel limit : Nat) :
    (runWith natives fuel limit).Keeps Eq machine fun _ _ => True := by
  have ran (count : Nat) : (runFor natives count).Keeps Eq machine fun _ _ => True := by
    cases count with
    | zero => exact .pure trivial
    | succ count => exact (keeps_stepWith_of_stuck stuck).bind fun _ _ _ never => never.elim
  rw [runWith]
  split
  · refine (ran fuel).bind fun exit _ _ _ => ?_
    cases exit with
    | halted => exact .pure trivial
    | stepLimit => exact Action.keeps_exhausted
  · exact ran limit

/-- A stuck machine stays so when nothing loads or resets its program. -/
theorem stuck_of_served {fuel : Nat} {request : Request} {result : Except MachineError Unit}
    (stuck : machine.Stuck) (intact : machine.Intact true) (unrenewed : ¬ request.Renews machine)
    (served : (request.serve (invoke fuel) fuel).apply machine = some (result, after)) :
    after.Stuck := by
  -- Requests that do not move the program are a matter of the place alone.
  have still (steady : ∀ call, request = .call call → call.motion? = none) : after.Stuck :=
    ((conduct_inPlace.keeps_serve (conduct_inPlace.behaves_invoke fuel) fuel steady
      intact).related served).stuck stuck
  cases request with
  | register name signature native => exact still nofun
  | call call =>
      cases call with
      | load image =>
          exact (inPlace_of_refused (ensures_installing_inPlace _) unrenewed served).stuck stuck
      | loadProgram program =>
          exact (inPlace_of_refused (ensures_installing_inPlace _) unrenewed served).stuck stuck
      | reset => exact (inPlace_of_refused ensures_reset_inPlace unrenewed served).stuck stuck
      | step =>
          obtain ⟨outcome, ended⟩ := exists_apply_of_attempt served
          obtain rfl := (keeps_stepWith_of_stuck stuck).related ended
          exact stuck
      | run limit =>
          obtain ⟨outcome, ended⟩ := exists_apply_of_attempt served
          obtain rfl := (keeps_runWith_of_stuck stuck fuel limit).related ended
          exact stuck
      | _ => exact still (by rintro _ ⟨⟩; rfl)

theorem Lingers.stuck_intact {start : Machine} (lingers : Lingers start machine)
    (stuck : start.Stuck) (intact : start.Intact true) : machine.Stuck ∧ machine.Intact true := by
  induction lingers with
  | start => exact ⟨stuck, intact⟩
  | @served before after fuel request result _ admitted unrenewed served induction =>
      obtain ⟨stuck_before, intact_before⟩ := induction
      have followed : Follows true before after :=
        (keeps_serve (careful_invoke fuel) fuel admitted intact_before).related served
      have stuck_after := stuck_of_served stuck_before intact_before unrenewed served
      exact ⟨stuck_after, (followed intact_before).1⟩

/-- A step that fails stops the machine at the instruction that failed.  The program, the globals
and the natives are as before, with the strings they refer to, and the failure is on record.  The
stack is as before too, unless arithmetic or an ordering has taken off its two operands and rejects
them.  From then on every step and run fails and changes nothing, whatever else is asked of the
machine, until a program is loaded or reset. -/
theorem fault_keeps_machine {config : MachineConfig} {start machine after : Machine}
    {requests : List (Nat × Request)} {fuel : Nat} {error : MachineError}
    (created : create config = .ok start)
    (builtins : ∀ request ∈ requests, request.2.Admitted true)
    (served : serve invoke requests start = some machine) (ready : machine.Ready)
    (failed : (step fuel).apply machine = some (.error error, after)) :
    Faulted machine error after ∧
      ∀ last, Lingers after last → ∀ fuel call, call.carriesOn = true →
        ∃ reply, (perform (fuel + 1) call).apply last = some (.ok reply, last) ∧
          call.outcome? reply = some (.error (.runtime .faulted)) := by
  have intact : machine.Intact true :=
    (follows_of_serve careful_invoke builtins served (intact_of_create created).1).1
  have bounded := ((Reached.created created).of_serve served).bounded
  have faulted : Faulted machine error after :=
    ensures_step_faulted fuel ready intact bounded _ failed
  have followed : Follows true machine after :=
    (keeps_stepWith (careful_invoke fuel) intact).related failed
  refine ⟨faulted, fun last lingers fuel call on => ?_⟩
  have stuck : after.Stuck := ⟨faulted.outside, faulted.phase⟩
  exact perform_of_stuck (lingers.stuck_intact stuck (followed intact).1).1 on fuel

/-- Loads a program that adds a number to nil, and stops before the addition. -/
def beforeMismatch : List (Nat × Request) :=
  mismatched ++ [(0, .call .step), (0, .call .step)]

theorem fault_keeps_machine_across_refused_load :
    ∃ start machine after last reply, create { builtins := false } = .ok start ∧
      serve invoke beforeMismatch start = some machine ∧
      (step 0).apply machine = some (.error (.runtime (.typeMismatch "add" "nil" "int")), after) ∧
      Faulted machine (.runtime (.typeMismatch "add" "nil" "int")) after ∧
      [machine.stack.toList, after.stack.toList] = [[.nil, .int 1], []] ∧
      serve invoke [(0, .call (.load [0]))] after = some last ∧
      (perform 1 (.run 0)).apply last = some (.ok reply, last) ∧
      Call.outcome? (.run 0) reply = some (.error (.runtime .faulted)) := by
  have ran : ((create { builtins := false }).toOption.bind fun start =>
      (serve invoke beforeMismatch start).bind fun machine =>
        ((step 0).apply machine).map fun outcome =>
          ((machine.inNative, machine.phase), outcome.1,
            [machine.stack.toList, outcome.2.stack.toList])) =
      some ((false, .ready), .error (.runtime (.typeMismatch "add" "nil" "int")),
        [[.nil, .int 1], []]) := by
    decide +kernel
  simp only [Option.bind_eq_some_iff, Option.map_eq_some_iff, Prod.mk.injEq,
    toOption_eq_some_iff] at ran
  obtain ⟨start, created, machine, served, ⟨result, after⟩, stepped, ⟨outside, ready⟩, rfl,
    operands⟩ := ran
  have builtins : ∀ request ∈ beforeMismatch, request.2.Admitted true := by
    simp [beforeMismatch, mismatched, Request.Admitted]
  obtain ⟨faulted, stays⟩ := fault_keeps_machine created builtins served ⟨outside, ready⟩ stepped
  have unread : (load [0]).apply after = (.error (.badBytecode (.tooShort 1 5)),
      after.remember (.badBytecode (.tooShort 1 5))) := by
    rw [load, Update.apply_recorded, Update.apply_bind, apply_requireOutsideNative, faulted.outside]
    rfl
  let last : Machine := after.remember (.badBytecode (.tooShort 1 5))
  have refused : ((Request.call (.load [0])).serve (invoke 0) 0).apply after =
      some (.ok (), last) := by
    have attempted : (performWith (invoke 0) 0 (.load [0])).apply after =
        some (.ok (.error (.badBytecode (.tooShort 1 5))), last) :=
      apply_attempt_of_error (by rw [apply_lift, unread])
    rw [Request.serve, Action.apply_bind, attempted]
    rfl
  have unrenewed : ¬ Request.Renews after (.call (.load [0])) := by
    rintro ⟨loaded, succeeded⟩
    cases unread.symm.trans succeeded
  have lingers : Lingers after last := .served .start (by trivial) unrenewed refused
  obtain ⟨reply, answered, outcome⟩ := stays last lingers 0 (.run 0) rfl
  have served_last : serve invoke [(0, .call (.load [0]))] after = some last := by
    rw [serve, refused]
    rfl
  exact ⟨start, machine, after, last, reply, created, served, stepped, faulted, operands,
    served_last, answered, outcome⟩

end Machine

end StackMachine
