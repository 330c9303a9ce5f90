import StackMachine.Proofs.Machine.Fault

/-!
# The effect of instructions

A step that goes on replaces the operands of one instruction by its results and moves on.  `Acts` is
the table of instructions: what each makes of its operands, and what else of the machine it changes.
All that a step leaves alone is read off that table: the values below the operands, the program, the
natives, the record of failures, the globals unless one is stored, output unless some is written,
and the heap unless strings are made.
-/

namespace StackMachine

/-! ## Operands -/

namespace Instruction

/-- The number of values on top of the stack that an instruction works on. -/
def operandCount : Instruction → Nat
  | pushInt _ | pushFloat _ | pushString _ | pushNil | pushBool _ => 0
  | loadGlobal _ | jump _ | halt => 0
  | print | pop | dup | storeGlobal _ | jumpIfFalse _ => 1
  | add | sub | mul | div | eq | neq | lt | gt | le | ge | swap => 2
  | callNative _ argumentCount => argumentCount.toNat

/-- Where execution goes after an instruction. -/
def flow : Instruction → (operands : List Value) → Flow
  | jump target, _ => .jump target
  | jumpIfFalse target, [condition] => if condition.isTruthy then .next else .jump target
  | halt, _ => .halt
  | _, _ => .next

/-- An instruction leads from its offset to the following one, or to the target of a jump that is
taken. -/
def LeadsTo (instruction : Instruction) (operands : List Value) (offset next : Nat) : Prop :=
  instruction.flow operands = .next ∧ next = offset + instruction.encodedLength ∨
    ∃ target, instruction.flow operands = .jump target ∧ next = target.toNat

/-- Whether an instruction may write output. -/
def writes : Instruction → Bool
  | print | callNative _ _ => true
  | _ => false

/-- Whether an instruction may make strings. -/
def allocates : Instruction → (operands : List Value) → Bool
  | add, [.string _, .string _] => true
  | callNative _ _, _ => true
  | _, _ => false

end Instruction

namespace Machine

open OperandStack (Trades)

/-- What an instruction makes of its operands, and of the machine but for the stack. -/
inductive Acts (fuel : Nat) (machine : Machine) :
    Instruction → (operands results : List Value) → Machine → Prop
  | pushInt (value : Int64) : Acts fuel machine (.pushInt value) [] [.int value] machine
  | pushFloat (value : Binary64) : Acts fuel machine (.pushFloat value) [] [.float value] machine
  | pushString {index : UInt32} {ref : StringRef}
      (constant : machine.program.constants[index.toNat]? = some ref) :
      Acts fuel machine (.pushString index) [] [.string ref] machine
  | pushNil : Acts fuel machine .pushNil [] [.nil] machine
  | pushBool (value : Bool) : Acts fuel machine (.pushBool value) [] [.bool value] machine
  | add {left right result : Value} (done : left.arithmetic .add right = .ok result) :
      Acts fuel machine .add [left, right] [result] machine
  /-- The sum of two strings is a new one. -/
  | join {left right : StringRef} {front back : List UInt8}
      (front_eq : machine.heap.bytes? left = some front)
      (back_eq : machine.heap.bytes? right = some back) :
      Acts fuel machine .add [.string left, .string right] [.string machine.heap.nextRef]
        { machine with
          heap := machine.heap.store (front ++ back)
          collector := (machine.collector.track machine.heap.nextRef machine.heap.nextSlot).2 }
  | sub {left right result : Value} (done : left.arithmetic .sub right = .ok result) :
      Acts fuel machine .sub [left, right] [result] machine
  | mul {left right result : Value} (done : left.arithmetic .mul right = .ok result) :
      Acts fuel machine .mul [left, right] [result] machine
  | div {left right result : Value} (done : left.divide right = .ok result) :
      Acts fuel machine .div [left, right] [result] machine
  | eq (left right : Value) :
      Acts fuel machine .eq [left, right] [.bool (left.isEqual machine.heap right)] machine
  | neq (left right : Value) :
      Acts fuel machine .neq [left, right] [.bool (!left.isEqual machine.heap right)] machine
  | lt {left right : Value} {order : Option Ordering}
      (done : left.order machine.heap .lt right = .ok order) :
      Acts fuel machine .lt [left, right] [.bool (order.any Ordering.isLT)] machine
  | gt {left right : Value} {order : Option Ordering}
      (done : left.order machine.heap .gt right = .ok order) :
      Acts fuel machine .gt [left, right] [.bool (order.any Ordering.isGT)] machine
  | le {left right : Value} {order : Option Ordering}
      (done : left.order machine.heap .le right = .ok order) :
      Acts fuel machine .le [left, right] [.bool (order.any Ordering.isLE)] machine
  | ge {left right : Value} {order : Option Ordering}
      (done : left.order machine.heap .ge right = .ok order) :
      Acts fuel machine .ge [left, right] [.bool (order.any Ordering.isGE)] machine
  | print {value : Value} {sink : Sink}
      (wrote : machine.sink.write (Utf8.encode (value.text machine.heap ++ ['\n'])) =
        (true, sink)) :
      Acts fuel machine .print [value] [value] { machine with sink }
  | pop (value : Value) : Acts fuel machine .pop [value] [] machine
  | dup (value : Value) : Acts fuel machine .dup [value] [value, value] machine
  | swap (left right : Value) : Acts fuel machine .swap [left, right] [right, left] machine
  | storeGlobal {index : UInt32} {key : StringRef} {value : Value} {previous : Option Value}
      {globals : ContentMap Value} (constant : machine.program.constants[index.toNat]? = some key)
      (stored : machine.globals.put machine.heap key value = .ok (previous, globals)) :
      Acts fuel machine (.storeGlobal index) [value] [] { machine with globals }
  | loadGlobal {index : UInt32} {key : StringRef} {value : Value}
      (constant : machine.program.constants[index.toNat]? = some key)
      (found : machine.globals.get? machine.heap key = some value) :
      Acts fuel machine (.loadGlobal index) [] [value] machine
  /-- The native runs inside the program, on arguments that are still on the stack. -/
  | callNative {index : UInt32} {count : UInt8} {key : StringRef} {entry : NativeEntry}
      {arguments : List Value} {result : Value} {called : Machine}
      (constant : machine.program.constants[index.toNat]? = some key)
      (registered : machine.natives.get? machine.heap key = some entry)
      (length_eq : arguments.length = count.toNat)
      (ran : (invoke fuel entry arguments).apply { machine with inNative := true } =
        some (.ok result, called)) :
      Acts fuel machine (.callNative index count) arguments [result]
        { called with inNative := machine.inNative }
  | jump (target : UInt32) : Acts fuel machine (.jump target) [] [] machine
  | jumpIfFalse (target : UInt32) (condition : Value) :
      Acts fuel machine (.jumpIfFalse target) [condition] [] machine
  | halt : Acts fuel machine .halt [] [] machine

variable {fuel : Nat} {machine changed after : Machine} {instruction : Instruction}
  {operands results : List Value}

theorem Acts.length_operands (acts : Acts fuel machine instruction operands results changed) :
    operands.length = instruction.operandCount := by
  cases acts with
  | callNative _ _ length_eq => exact length_eq
  | _ => rfl

/-! ## Instructions that succeed -/

/-- An instruction is carried out as the table says, and its operands are replaced by its
results. -/
def Carried (fuel : Nat) (machine : Machine) (instruction : Instruction) (flow : Flow)
    (after : Machine) : Prop :=
  ∃ operands results changed stack, Acts fuel machine instruction operands results changed ∧
    Trades operands results machine.stack stack ∧ after = { changed with stack } ∧
    flow = instruction.flow operands

/-- The last result of an instruction is pushed. -/
theorem ensures_pushing_carried {result : Value} {stack : OperandStack}
    (trades : Trades operands results machine.stack stack)
    (acts : Acts fuel machine instruction operands (results ++ [result]) changed)
    (straight : instruction.flow operands = .next) :
    (pushing result).Ensures { changed with stack } (fun _ _ => True)
      (Carried fuel machine instruction) := by
  refine (ensures_pushOperand fun _ _ => trivial).bind fun _ after held => ?_
  obtain ⟨last, done, rfl⟩ := held
  exact ⟨operands, _, changed, last, acts, trades.push done, rfl, straight.symm⟩

theorem ensures_binary_carried {op : Opcode} {operation : Value → Value → Update Value}
    (straight : ∀ operands, instruction.flow operands = .next)
    (operates : ∀ left right stack,
      (operation left right).Ensures { machine with stack } (fun _ _ => True) fun result after =>
        ∃ changed, Acts fuel machine instruction [left, right] [result] changed ∧
          after = { changed with stack }) :
    (binary op operation).Ensures machine (fun _ _ => True) (Carried fuel machine instruction) := by
  refine (ensures_popOperands op fun _ => trivial).bind fun values after held => ?_
  obtain ⟨stack, done, rfl⟩ := held
  refine (operates values.1 values.2 stack).bind fun result after held => ?_
  obtain ⟨changed, acts, rfl⟩ := held
  exact ensures_pushing_carried (OperandStack.trades_of_pop2 done) acts (straight _)

/-- An operation that changes nothing but the stack. -/
theorem ensures_ofExcept_acts {left right : Value} {stack : OperandStack}
    {outcome : Except MachineError Value}
    (acts : ∀ result, outcome = .ok result →
      Acts fuel machine instruction [left, right] [result] machine) :
    (Update.ofExcept outcome).Ensures { machine with stack } (fun _ _ => True) fun result after =>
      ∃ changed, Acts fuel machine instruction [left, right] [result] changed ∧
        after = { changed with stack } := by
  cases outcome with
  | error error => trivial
  | ok result => exact ⟨machine, acts result rfl, rfl⟩

theorem ensures_addValues_acts (left right : Value) (stack : OperandStack) :
    (addValues left right).Ensures { machine with stack } (fun _ _ => True) fun result after =>
      ∃ changed, Acts fuel machine .add [left, right] [result] changed ∧
        after = { changed with stack } := by
  rw [addValues.eq_def]
  split
  · rename_i left right
    refine .get_bind (.ofStorage_bind (fun _ => trivial) fun bytes joined => ?_)
    obtain ⟨front, back, front_eq, back_eq, rfl⟩ := StringHeap.exists_of_joined joined
    have allocated : (allocate (front ++ back)).Ensures { machine with stack } (fun _ _ => True)
        fun ref after => ∃ changed,
          Acts fuel machine .add [.string left, .string right] [.string ref] changed ∧
            after = { changed with stack } :=
      .ofStorage_bind (fun _ => trivial) fun _ _ => ⟨_, .join front_eq back_eq, rfl⟩
    exact allocated.bind fun _ _ held => held
  · exact ensures_ofExcept_acts fun result done => .add done

theorem ensures_ordering_carried {op : Opcode} {wanted : List Ordering} {holds : Ordering → Bool}
    (straight : ∀ operands, instruction.flow operands = .next)
    (accepts : ∀ order, wanted.contains order = holds order)
    (acts : ∀ left right order, left.order machine.heap op right = .ok order →
      Acts fuel machine instruction [left, right] [.bool (order.any holds)] machine) :
    (ordering op wanted).Ensures machine (fun _ _ => True) (Carried fuel machine instruction) := by
  obtain rfl : wanted.contains = holds := funext accepts
  refine ensures_binary_carried straight fun left right stack => .get_bind ?_
  exact .ofExcept_bind (fun _ _ => trivial) fun order done =>
    ⟨machine, acts left right order done, rfl⟩

theorem ensures_write (bytes : List UInt8) :
    (write bytes).Ensures machine (fun _ _ => True) fun _ after =>
      ∃ sink, machine.sink.write bytes = (true, sink) ∧ after = { machine with sink } := by
  refine .get_bind ?_
  rcases machine.sink.write bytes with ⟨complete, sink⟩
  refine .set_bind ?_
  cases complete with
  | true => exact ⟨sink, rfl, rfl⟩
  | false => trivial

theorem ensures_storeGlobal_carried (index : UInt32) :
    (storeGlobal index).Ensures machine (fun _ _ => True)
      (Carried fuel machine (.storeGlobal index)) := by
  refine (ensures_constant fun _ => trivial).bind fun key start found => ?_
  obtain ⟨rfl, constant⟩ := found
  refine (ensures_popOperand .storeGlobal fun _ => trivial).bind fun value popped held => ?_
  obtain ⟨stack, done, rfl⟩ := held
  refine .get_bind (.ofStorage_bind (fun _ => trivial) fun stored put => .set_bind ?_)
  exact ⟨[value], [], _, stack, .storeGlobal constant put, OperandStack.trades_of_pop done,
    rfl, rfl⟩

theorem ensures_loadGlobal_carried (index : UInt32) :
    (loadGlobal index).Ensures machine (fun _ _ => True)
      (Carried fuel machine (.loadGlobal index)) := by
  refine (ensures_constant fun _ => trivial).bind fun key start found => ?_
  obtain ⟨rfl, constant⟩ := found
  refine .get_bind ?_
  cases found : start.globals.get? start.heap key with
  | none => trivial
  | some value =>
      exact ensures_pushing_carried start.stack.trades_nil (.loadGlobal constant found) rfl

/-- Builtins leave the stack alone, so that the arguments of a call are still on top of it when the
result takes their place. -/
theorem ensures_callConstant_carried (index : UInt32) (count : UInt8)
    (intact : machine.Intact true) :
    (callConstant (invoke fuel) index count.toNat).Ensures machine (fun _ _ => True)
      (Carried fuel machine (.callNative index count)) := by
  refine (Action.ensures_lift (ensures_constant fun _ => trivial)).bind fun key start found => ?_
  obtain ⟨rfl, constant⟩ := found
  refine Action.ensures_get_bind ?_
  cases registered : start.natives.get? start.heap key with
  | none => exact Action.ensures_of_eq_some rfl trivial
  | some entry =>
      refine (Action.ensures_lift (Update.ensures_ofStack fun _ _ => trivial)).bind
        fun _ last held => ?_
      obtain ⟨required, rfl⟩ := held
      have enough := OperandStack.require_eq_ok_iff.mp required
      have builtin := intact.admitted_of_get? registered
      have called : (enterNative (invoke fuel) entry (last.stack.top count.toNat)
          last.inNative).Ensures last (fun _ _ => True) fun result after =>
            ∃ called, (invoke fuel entry (last.stack.top count.toNat)).apply
                { last with inNative := true } = some (.ok result, called) ∧
              called.stack = last.stack ∧ after = { called with inNative := last.inNative } := by
        -- Whether the native leaves the stack alone matters only when it succeeds.
        refine ensures_enterNative ?_
        rintro ⟨_ | result, called⟩ ran
        · trivial
        · have spares := within_invoke_spares fuel builtin _ _ _ ran
          exact ⟨called, ran, spares.stack, rfl⟩
      refine Action.Ensures.bind called fun result after held => ?_
      obtain ⟨called, ran, stack_eq, rfl⟩ := held
      refine Action.ensures_modify_bind (Action.ensures_lift ?_)
      have trades : Trades (last.stack.top count.toNat) [] last.stack
          (called.stack.truncate (last.stack.depth - count.toNat)) := by
        rw [stack_eq]
        exact last.stack.trades_top count.toNat
      exact ensures_pushing_carried trades
        (.callNative constant registered (OperandStack.length_top enough) ran) rfl

/-- An instruction that succeeds is carried out as the table says. -/
theorem ensures_execute_carried (fuel : Nat) (instruction : Instruction)
    (intact : machine.Intact true) :
    (execute (invoke fuel) instruction).Ensures machine (fun _ _ => True)
      (Carried fuel machine instruction) := by
  have pushes {instruction : Instruction} {value : Value}
      (acts : Acts fuel machine instruction [] [value] machine)
      (straight : instruction.flow [] = .next) :
      (liftM (pushing value) : Action Flow).Ensures machine (fun _ _ => True)
        (Carried fuel machine instruction) :=
    Action.ensures_lift (ensures_pushing_carried machine.stack.trades_nil acts straight)
  have pops {instruction : Instruction} (op : Opcode) (flow : Value → Flow)
      (acts : ∀ value, Acts fuel machine instruction [value] [] machine)
      (leads : ∀ value, flow value = instruction.flow [value]) :
      (do return flow (← popOperand op) : Action Flow).Ensures machine (fun _ _ => True)
        (Carried fuel machine instruction) := by
    refine (Action.ensures_lift (ensures_popOperand op fun _ => trivial)).bind
      fun value after held => ?_
    obtain ⟨stack, done, rfl⟩ := held
    exact Action.ensures_of_eq_some rfl
      ⟨[value], [], machine, stack, acts value, OperandStack.trades_of_pop done, rfl, leads value⟩
  cases instruction with
  | pushInt value => exact pushes (.pushInt value) rfl
  | pushFloat value => exact pushes (.pushFloat value) rfl
  | pushString index =>
      refine (Action.ensures_lift (ensures_constant fun _ => trivial)).bind
        fun ref after found => ?_
      obtain ⟨rfl, constant⟩ := found
      exact pushes (.pushString constant) rfl
  | pushNil => exact pushes .pushNil rfl
  | pushBool value => exact pushes (.pushBool value) rfl
  | add =>
      exact Action.ensures_lift (ensures_binary_carried (fun _ => rfl) ensures_addValues_acts)
  | sub =>
      exact Action.ensures_lift (ensures_binary_carried (fun _ => rfl) fun _ _ _ =>
        ensures_ofExcept_acts fun _ done => .sub done)
  | mul =>
      exact Action.ensures_lift (ensures_binary_carried (fun _ => rfl) fun _ _ _ =>
        ensures_ofExcept_acts fun _ done => .mul done)
  | div =>
      exact Action.ensures_lift (ensures_binary_carried (fun _ => rfl) fun _ _ _ =>
        ensures_ofExcept_acts fun _ done => .div done)
  | eq =>
      exact Action.ensures_lift (ensures_binary_carried (fun _ => rfl) fun left right _ =>
        .get_bind ⟨machine, .eq left right, rfl⟩)
  | neq =>
      exact Action.ensures_lift (ensures_binary_carried (fun _ => rfl) fun left right _ =>
        .get_bind ⟨machine, .neq left right, rfl⟩)
  | lt =>
      exact Action.ensures_lift (ensures_ordering_carried (fun _ => rfl) (by rintro ⟨⟩ <;> rfl)
        fun _ _ _ done => .lt done)
  | gt =>
      exact Action.ensures_lift (ensures_ordering_carried (fun _ => rfl) (by rintro ⟨⟩ <;> rfl)
        fun _ _ _ done => .gt done)
  | le =>
      exact Action.ensures_lift (ensures_ordering_carried (fun _ => rfl) (by rintro ⟨⟩ <;> rfl)
        fun _ _ _ done => .le done)
  | ge =>
      exact Action.ensures_lift (ensures_ordering_carried (fun _ => rfl) (by rintro ⟨⟩ <;> rfl)
        fun _ _ _ done => .ge done)
  | print =>
      refine (Action.ensures_lift (ensures_topOperand _ fun _ => trivial)).bind
        fun value after found => ?_
      obtain ⟨rfl, rest, stack_eq⟩ := found
      refine Action.ensures_get_bind ((Action.ensures_lift (ensures_write _)).bind
        fun _ last held => ?_)
      obtain ⟨sink, wrote, rfl⟩ := held
      exact Action.ensures_of_eq_some rfl
        ⟨[value], [value], _, _, .print wrote, ⟨rest, stack_eq, stack_eq⟩, rfl, rfl⟩
  | pop => exact pops .pop (fun _ => .next) .pop fun _ => rfl
  | dup =>
      refine (Action.ensures_lift (ensures_topOperand _ fun _ => trivial)).bind
        fun value after found => ?_
      obtain ⟨rfl, rest, stack_eq⟩ := found
      have kept : Trades [value] [value] after.stack after.stack := ⟨rest, stack_eq, stack_eq⟩
      exact Action.ensures_lift (ensures_pushing_carried kept (.dup value) rfl)
  | swap =>
      refine Action.ensures_get_bind ?_
      refine (Action.ensures_lift (Update.ensures_ofStack fun _ _ => trivial)).bind
        fun stack after held => ?_
      obtain ⟨done, rfl⟩ := held
      obtain ⟨left, right, trades⟩ := OperandStack.trades_of_swapTop done
      exact Action.ensures_of_eq_some rfl ⟨_, _, _, stack, .swap left right, trades, rfl, rfl⟩
  | storeGlobal index => exact Action.ensures_lift (ensures_storeGlobal_carried index)
  | loadGlobal index => exact Action.ensures_lift (ensures_loadGlobal_carried index)
  | callNative index count => exact ensures_callConstant_carried index count intact
  | jump target =>
      exact Action.ensures_of_eq_some rfl
        ⟨[], [], machine, _, .jump target, machine.stack.trades_nil, rfl, rfl⟩
  | jumpIfFalse target =>
      exact pops .jumpIfFalse (fun value => if value.isTruthy then .next else .jump target)
        (.jumpIfFalse target) fun _ => rfl
  | halt =>
      exact Action.ensures_of_eq_some rfl
        ⟨[], [], machine, _, .halt, machine.stack.trades_nil, rfl, rfl⟩

/-! ## What is left alone -/

/-- What an instruction leaves alone on a machine that carries it out. -/
structure Leaves (before : Machine) (instruction : Instruction) (operands : List Value)
    (after : Machine) : Prop where
  program : after.program = before.program
  natives : after.natives = before.natives
  phase : after.phase = before.phase
  inNative : after.inNative = before.inNative
  lastError : after.lastError = before.lastError
  globals : (∀ index, instruction ≠ .storeGlobal index) → after.globals = before.globals
  written : before.sink.written <+: after.sink.written
  sink : instruction.writes = false → after.sink = before.sink
  kept : before.heap.Preserves after.heap
  heap : instruction.allocates operands = false → after.heap = before.heap

/-- Only stores change globals, only output instructions the sink, and only sums of strings and
natives the heap. -/
theorem Acts.leaves (acts : Acts fuel machine instruction operands results changed)
    (intact : machine.Intact true) : Leaves machine instruction operands changed := by
  cases acts with
  | join =>
      exact ⟨rfl, rfl, rfl, rfl, rfl, fun _ => rfl, List.prefix_rfl, fun _ => rfl,
        machine.heap.preserves_store _, nofun⟩
  | @print value sink wrote =>
      have grown :=
        machine.sink.written_prefix_write (Utf8.encode (value.text machine.heap ++ ['\n']))
      rw [wrote] at grown
      exact ⟨rfl, rfl, rfl, rfl, rfl, fun _ => rfl, grown, nofun, .refl _, fun _ => rfl⟩
  | storeGlobal =>
      exact ⟨rfl, rfl, rfl, rfl, rfl, fun other => absurd rfl (other _), List.prefix_rfl,
        fun _ => rfl, .refl _, fun _ => rfl⟩
  | callNative constant registered length_eq ran =>
      have builtin := intact.admitted_of_get? registered
      have spares : Spares { machine with inNative := true } _ :=
        within_invoke_spares fuel builtin _ _ _ ran
      have quiet := quiet_invoke fuel builtin _ _ _ ran
      exact ⟨spares.program, spares.natives, spares.phase, rfl, quiet,
        fun _ => spares.globals, spares.written, nofun, spares.heap, nofun⟩
  -- All other rows change nothing but the stack.
  | _ =>
      exact ⟨rfl, rfl, rfl, rfl, rfl, fun _ => rfl, List.prefix_rfl, fun _ => rfl, .refl _,
        fun _ => rfl⟩

/-! ## Steps that go on -/

/-- How a step that goes on changes a machine.  The instruction is carried out on the machine that a
collection leaves, if one was wanted. -/
structure Advances (fuel : Nat) (before : Machine) (instruction : Instruction)
    (operands results : List Value) (after : Machine) : Prop where
  fetched : before.fetch = .ok instruction
  arity : operands.length = instruction.operandCount
  acts : ∃ changed, Acts fuel before.swept instruction operands results changed ∧
    after = { changed with stack := after.stack, offset := after.offset }
  stack : Trades operands results before.stack after.stack
  offset : instruction.LeadsTo operands before.offset after.offset
  ready : after.Ready
  program : after.program = before.program
  natives : after.natives = before.natives
  lastError : after.lastError = before.lastError
  /-- Only a store writes a global, and only the one that it names. -/
  wrote : Wrote before.storing?.toList before after
  globals : (∀ index, instruction ≠ .storeGlobal index) → after.globals = before.globals
  written : before.sink.written <+: after.sink.written
  sink : instruction.writes = false → after.sink = before.sink
  /-- The strings of the stack, the globals, the natives and the program have their contents, when
  the instruction is carried out and afterwards. -/
  contents : ∀ ref ∈ before.held, before.swept.heap.bytes? ref = before.heap.bytes? ref ∧
    after.heap.bytes? ref = before.heap.bytes? ref
  allocated : ∃ log, before.heap.Evolves log after.heap ∧
    (instruction.allocates operands = false → log = [])

theorem ensures_step_carried (fuel : Nat) (ready : machine.Ready) (intact : machine.Intact true) :
    (stepWith (invoke fuel)).Ensures machine (fun _ _ => True) fun exit after =>
      exit = .continued → ∃ instruction operands results changed stack offset,
        machine.fetch = .ok instruction ∧
        Acts fuel machine.swept instruction operands results changed ∧
        Trades operands results machine.stack stack ∧
        instruction.LeadsTo operands machine.offset offset ∧
        after = { changed with stack, offset } := by
  have swept_intact : machine.swept.Intact true := (follows_swept intact).1
  obtain ⟨heap, pool, collector, swept_eq, _⟩ := exists_swept_eq machine
  refine ensures_stepWith (fun _ _ _ => trivial) ?_ (fun _ => trivial) (fun _ _ _ => trivial) ?_
  · exact fun halted => absurd (ready.2.symm.trans halted) nofun
  intro _ _
  refine ensures_executeNext (fun _ _ => trivial) fun instruction fetched => ?_
  refine (ensures_execute_carried fuel instruction swept_intact).mono (fun _ _ _ => trivial) ?_
  rintro flow _ ⟨operands, results, changed, stack, acts, trades, rfl, flow_eq⟩
  -- A collection moves neither the program nor the stack.
  have same : machine.swept.fetch = machine.fetch ∧ machine.swept.stack = machine.stack ∧
      machine.swept.offset = machine.offset := by
    rw [swept_eq]
    exact ⟨rfl, rfl, rfl⟩
  rw [same.1] at fetched
  rw [same.2.1] at trades
  rw [same.2.2]
  intro last continued
  refine ⟨instruction, operands, results, changed, stack, ?_⟩
  cases flow with
  | next => exact ⟨_, fetched, acts, trades, .inl ⟨flow_eq.symm, rfl⟩, rfl⟩
  | jump target => exact ⟨_, fetched, acts, trades, .inr ⟨target, flow_eq.symm, rfl⟩, rfl⟩
  | halt => cases continued

/-- A collection allocates nothing. -/
theorem evolves_swept (machine : Machine) : machine.heap.Evolves [] machine.swept.heap :=
  swept_elim (motive := fun swept => machine.heap.Evolves [] swept.heap) .refl
    (Collector.evolves_collect _ _ _)

theorem advances_of_step (ready : machine.Ready) (intact : machine.Intact true)
    (continued : (step fuel).apply machine = some (.ok .continued, after)) :
    ∃ instruction operands results, Advances fuel machine instruction operands results after := by
  obtain ⟨_, log, evolves⟩ := (keeps_stepWith (careful_invoke fuel) intact).related continued intact
  have wrote := ensures_stepWith_wrote intact _ continued
  obtain ⟨instruction, operands, results, changed, stack, offset, fetched, acts, trades,
      leads, rfl⟩ :=
    ensures_step_carried fuel ready intact _ continued rfl
  have leaves := acts.leaves (follows_swept intact).1
  have allocated : ∃ log, machine.heap.Evolves log changed.heap ∧
      (instruction.allocates operands = false → log = []) := by
    cases makes : instruction.allocates operands with
    | true => exact ⟨log, evolves, nofun⟩
    | false =>
        rw [leaves.heap makes]
        exact ⟨[], evolves_swept machine, fun _ => rfl⟩
  obtain ⟨heap, pool, collector, swept_eq, swept_kept⟩ := exists_swept_eq machine
  have contents (ref : StringRef) (member : ref ∈ machine.held) :
      machine.swept.heap.bytes? ref = machine.heap.bytes? ref ∧
        changed.heap.bytes? ref = machine.heap.bytes? ref := by
    obtain ⟨bytes, live⟩ := intact.live_of_mem_held member
    have swept_live : machine.swept.heap.bytes? ref = some bytes := by
      rw [swept_eq, swept_kept ref member, live]
    rw [live]
    exact ⟨swept_live, leaves.kept ref bytes swept_live⟩
  rw [swept_eq] at leaves
  exact ⟨instruction, operands, results,
    { fetched
      arity := acts.length_operands
      acts := ⟨changed, acts, rfl⟩
      stack := trades
      offset := leads
      ready := ⟨leaves.inNative.trans ready.1, leaves.phase.trans ready.2⟩
      program := leaves.program
      natives := leaves.natives
      lastError := leaves.lastError
      wrote
      globals := leaves.globals
      written := leaves.written
      sink := leaves.sink
      contents
      allocated }⟩

/-! ## Reachable machines -/

/-- Whatever it is asked, a machine keeps the stack as it was set up. -/
theorem config_of_serve {config : MachineConfig} {start : Machine} {requests : List (Nat × Request)}
    (created : create config = .ok start) (served : serve invoke requests start = some machine) :
    machine.stack.config = config.stack := by
  obtain ⟨stack, made, created_room⟩ := Routine.of_create KeepsRoom created
  have served_room : KeepsRoom start machine :=
    conduct_keepsRoom.related_of_serve
      (fun fuel => Invoker.behaves_of_within (conduct_keepsRoom.within_invoke fuel))
      (fun _ _ _ => trivial) (fun _ _ _ _ _ _ _ _ => trivial) trivial served
  rw [served_room.config, created_room.config, OperandStack.eq_of_create made]

/-- A step that goes on takes the operands of one instruction off the stack, as many as the table of
instructions says, and puts exactly the results in their place, so that all values below are
untouched and in order.  It goes on at the following instruction or at the target of the jump that
it takes.  Only a store changes globals, and only the one that it names; only `print` and
`callNative` write output; only the sum of two strings and `callNative` allocate; the program, the
natives, the phase and the record of failures stay as they are.  A fixed stack is never deeper than
it was set up to be. -/
theorem step_trades_operands_for_results {config : MachineConfig} {start machine after : Machine}
    {requests : List (Nat × Request)} {fuel : Nat} (created : create config = .ok start)
    (builtins : ∀ request ∈ requests, request.2.Admitted true)
    (served : serve invoke requests start = some machine) (ready : machine.Ready)
    (continued : (step fuel).apply machine = some (.ok .continued, after)) :
    (∃ instruction operands results,
      Advances fuel machine instruction operands results after) ∧
      (config.stack.growable = false →
        machine.stack.depth ≤ config.stack.capacity ∧
          after.stack.depth ≤ config.stack.capacity) := by
  have intact : machine.Intact true :=
    (follows_of_serve careful_invoke builtins served (intact_of_create created).1).1
  have bounded := ((Reached.created created).of_serve served).bounded
  have config_eq := config_of_serve created served
  have room : KeepsRoom machine after :=
    (conduct_keepsRoom.keeps_stepWith trivial
      (Invoker.behaves_of_within (conduct_keepsRoom.within_invoke fuel)) trivial).related continued
  refine ⟨advances_of_step ready intact continued, fun fixed => ?_⟩
  rw [← config_eq] at fixed ⊢
  refine ⟨bounded.fixed fixed, ?_⟩
  rw [← room.config] at fixed ⊢
  exact (room.bounded bounded).fixed fixed

/-- A machine with room for four values that frees strings whenever a new one was made. -/
def tightConfig : MachineConfig :=
  { eagerConfig with stack := { capacity := 4 } }

/-- Goes as far as a call of a builtin on a number and a string, when a string that was dropped is
yet to be freed. -/
def beforeCall : List (Nat × Request) :=
  [(0, .register "c" (some "s,s,*->s") (.builtin .concat)),
    (0, .call (.loadProgram ⟨[[97], [99]], [Instruction.pushString 0, .dup, .add, .pop, .pushNil,
      .pushInt 5, .pushString 0, .dup, .add, .callNative 1 2, .halt].flatMap Instruction.encode⟩)),
    (0, .call (.run 9))]

theorem step_trades_operands_for_results_of_call :
    ∃ start machine after, create tightConfig = .ok start ∧
      serve invoke beforeCall start = some machine ∧ machine.Ready ∧
      (step 1).apply machine = some (.ok .continued, after) ∧
      [machine.collector.totalFreed, after.collector.totalFreed] = [0, 1] ∧
      machine.stack.toList = [.nil, .int 5, .string ⟨4⟩] ∧
      after.stack.toList = [.nil, .string ⟨6⟩] ∧
      after.bytes? (.string ⟨6⟩) = some (Utf8.encode "5aa".toList) ∧
      Advances 1 machine (.callNative 1 2) [.int 5, .string ⟨4⟩] [.string ⟨6⟩] after ∧
      machine.stack.depth ≤ 4 ∧ after.stack.depth ≤ 4 := by
  have ran : ((create tightConfig).toOption.bind fun start =>
      (serve invoke beforeCall start).bind fun machine =>
        ((step 1).apply machine).map fun outcome => decide
          ((machine.inNative = false ∧ machine.phase = .ready) ∧
            machine.fetch.toOption = some (.callNative 1 2) ∧ outcome.1.toOption = some .continued ∧
            [machine.collector.totalFreed, outcome.2.collector.totalFreed] = [0, 1] ∧
            machine.stack.toList = [.nil, .int 5, .string ⟨4⟩] ∧
            outcome.2.stack.toList = [.nil, .string ⟨6⟩] ∧
            outcome.2.bytes? (.string ⟨6⟩) = some (Utf8.encode "5aa".toList))) = some true := by
    decide +kernel
  simp only [Option.bind_eq_some_iff, Option.map_eq_some_iff, Prod.exists, decide_eq_true_iff,
    toOption_eq_some_iff] at ran
  obtain ⟨start, created, machine, served, _, after, stepped, ready, fetched, rfl, freed, stack_eq,
    after_eq, content⟩ := ran
  have builtins : ∀ request ∈ beforeCall, request.2.Admitted true := by
    simp [beforeCall, Request.Admitted, Native.Admitted]
  obtain ⟨⟨instruction, operands, results, advances⟩, room⟩ :=
    step_trades_operands_for_results created builtins served ready stepped
  cases advances.fetched.symm.trans fetched
  obtain ⟨rest, before_eq, last_eq⟩ := advances.stack
  have split : rest = [.nil] ∧ operands = [.int 5, .string ⟨4⟩] := by
    have whole : rest ++ operands = [.nil] ++ [.int 5, .string ⟨4⟩] := before_eq.symm.trans stack_eq
    exact List.append_inj' whole advances.arity
  obtain ⟨rfl, rfl⟩ := split
  obtain rfl : results = [.string ⟨6⟩] :=
    List.append_cancel_left (last_eq.symm.trans after_eq)
  exact ⟨start, machine, after, created, served, ready, stepped, freed, stack_eq, after_eq, content,
    advances, room rfl⟩

end Machine

end StackMachine
