import StackMachine.Proofs.Machine.Reachability
import StackMachine.Proofs.Machine.Routine

/-!
# What steps, calls and natives stay within

A step is made of a possible collection, one instruction and a move to the next one; an instruction
that neither calls a native nor stores a global is routine.  A relation between machines is a
`Conduct` when it is routine and holds across those of the permitted calls of the interface that are
not: setting globals, loading, resetting, stepping, collecting and changing the collector.  Natives
act through the interface alone, so that they stay within a conduct that permits every call, and the
builtins, which make no calls, within every conduct.
-/

namespace StackMachine

variable {α β : Type} {relation : Machine → Machine → Prop} {allowed : MachineError → Prop}

/-- An update has a given result whenever it succeeds. -/
def Update.Yields (value : α) (update : Update α) : Prop :=
  ∀ machine, update.Ensures machine (fun _ _ => True) fun result _ => result = value

theorem Update.Yields.bind {value : β} {first : Update α} {next : α → Update β}
    (continued : ∀ result, (next result).Yields value) : (first >>= next).Yields value := by
  intro machine
  have ended : first.Ensures machine (fun _ _ => True) fun _ _ => True := by
    rw [Ensures]
    rcases first.apply machine with ⟨_ | _, after⟩ <;> trivial
  exact ended.bind fun result after _ => continued result after

theorem Action.ensures_true (action : Action α) (machine : Machine) :
    action.Ensures machine (fun _ _ => True) fun _ _ => True := by
  rintro ⟨_ | _, after⟩ _ <;> trivial

/-- An action has a given result whenever it succeeds. -/
def Action.Yields (value : α) (action : Action α) : Prop :=
  ∀ machine, action.Ensures machine (fun _ _ => True) fun result _ => result = value

theorem Action.Yields.bind {value : β} {first : Action α} {next : α → Action β}
    (continued : ∀ result, (next result).Yields value) : (first >>= next).Yields value :=
  fun machine => (first.ensures_true machine).bind fun result after _ => continued result after

theorem Action.Yields.pure (value : α) : (Pure.pure value : Action α).Yields value :=
  fun _ => ensures_of_eq_some rfl rfl

theorem Action.yields_lift {value : α} {update : Update α} (yields : update.Yields value) :
    (liftM update : Action α).Yields value :=
  fun machine => ensures_lift (yields machine)

theorem Action.Ensures.and {action : Action α} {machine : Machine}
    {failed failed' : MachineError → Machine → Prop} {done done' : α → Machine → Prop}
    (first : action.Ensures machine failed done) (second : action.Ensures machine failed' done') :
    action.Ensures machine (fun error after => failed error after ∧ failed' error after)
      fun value after => done value after ∧ done' value after := by
  intro outcome ended
  have left := first outcome ended
  have right := second outcome ended
  obtain ⟨result, after⟩ := outcome
  cases result <;> exact ⟨left, right⟩

namespace Machine

/-! ## Instructions -/

section Instructions

variable {machine : Machine} {failed : MachineError → Machine → Prop}

/-- Fetching a constant changes nothing, and fails only past the pool. -/
theorem ensures_constant {index : UInt32}
    (missing : machine.program.constants[index.toNat]? = none →
      failed (.badBytecode (.stringIndexOutOfRange index machine.program.constants.length
        machine.offset)) machine) :
    (constant index).Ensures machine failed fun ref after =>
      after = machine ∧ machine.program.constants[index.toNat]? = some ref := by
  refine .get_bind ?_
  cases found : machine.program.constants[index.toNat]? with
  | none => exact missing found
  | some ref => exact ⟨rfl, rfl⟩

/-- Taking off an operand fails only on an empty stack, and without a change. -/
theorem ensures_popOperand (op : Opcode) (empty : ∀ error, failed error machine) :
    (popOperand op).Ensures machine failed fun value after =>
      ∃ stack, machine.stack.pop op.mnemonic = .ok (value, stack) ∧
        after = { machine with stack } :=
  .get_bind (.ofStack_bind (fun _ _ => empty _) fun popped done => .set_bind ⟨popped.2, done, rfl⟩)

theorem ensures_popOperands (op : Opcode) (few : ∀ error, failed error machine) :
    (popOperands op).Ensures machine failed fun values after =>
      ∃ stack, machine.stack.pop2 op.mnemonic = .ok (values.1, values.2, stack) ∧
        after = { machine with stack } :=
  .get_bind (.ofStack_bind (fun _ _ => few _) fun popped done => .set_bind ⟨popped.2.2, done, rfl⟩)

theorem ensures_pushOperand {value : Value}
    (full : ∀ error, machine.stack.push value = .error error → failed error machine) :
    (pushOperand value).Ensures machine failed fun _ after =>
      ∃ stack, machine.stack.push value = .ok stack ∧ after = { machine with stack } :=
  .get_bind (.ofExcept_bind full fun stack pushed => ⟨stack, pushed, rfl⟩)

theorem ensures_topOperand (op : Opcode) (empty : ∀ error, failed error machine) :
    (topOperand op).Ensures machine failed fun value after =>
      after = machine ∧ ∃ rest, machine.stack.toList = rest ++ [value] :=
  .get_bind (.ofStack_bind (fun _ _ => empty _) fun _ done =>
    ⟨rfl, OperandStack.exists_toList_eq_append_peek (OperandStack.require_eq_ok_iff.mp done)⟩)

/-- What routine updates do, where more failures are allowed. -/
theorem Routine.ensures {update : Update α} (ordinary : ∀ error, error.IsOrdinary → allowed error)
    (within : update.Within relation MachineError.IsOrdinary) (machine : Machine) :
    update.Ensures machine (fun error after => relation machine after ∧ allowed error)
      fun _ after => relation machine after :=
  within.weaken (fun _ _ => id) ordinary machine

variable [Routine relation]

theorem ensures_storeGlobal {index : UInt32}
    (assigned : ∀ (machine : Machine) (globals : ContentMap Value),
      relation machine { machine with globals })
    (ordinary : ∀ error, error.IsOrdinary → allowed error)
    (missing : machine.program.constants[index.toNat]? = none →
      allowed (.badBytecode (.stringIndexOutOfRange index machine.program.constants.length
        machine.offset))) :
    (storeGlobal index).Ensures machine (fun error after => relation machine after ∧ allowed error)
      fun _ after => relation machine after := by
  refine (ensures_constant fun absent => ⟨Std.Refl.refl machine, missing absent⟩).bind
    fun key after found => ?_
  obtain ⟨rfl, _⟩ := found
  refine Routine.ensures ordinary
    ((Routine.within_popOperand .storeGlobal).bind fun value => ?_) after
  refine fun machine => .get_bind (.ofStorage_bind (fun reason => ?_) fun stored _ => ?_)
  · exact ⟨Std.Refl.refl machine, MachineError.isOrdinary_ofStorage reason⟩
  · exact .set_bind (assigned machine stored.2)

theorem ensures_loadGlobal {index : UInt32} (ordinary : ∀ error, error.IsOrdinary → allowed error)
    (missing : machine.program.constants[index.toNat]? = none →
      allowed (.badBytecode (.stringIndexOutOfRange index machine.program.constants.length
        machine.offset))) :
    (loadGlobal index).Ensures machine (fun error after => relation machine after ∧ allowed error)
      fun _ after => relation machine after := by
  refine (ensures_constant fun absent => ⟨Std.Refl.refl machine, missing absent⟩).bind
    fun key after found => ?_
  obtain ⟨rfl, _⟩ := found
  refine .get_bind ?_
  cases after.globals.get? after.heap key with
  | none => exact ⟨Std.Refl.refl after, ordinary _ trivial⟩
  | some value => exact Routine.ensures ordinary (Routine.within_pushing value) after

theorem within_swap {invoke : Invoker} :
    (execute invoke .swap).Within relation MachineError.IsOrdinary := by
  refine fun machine => Action.ensures_get_bind ?_
  refine (Action.ensures_lift (Update.ensures_ofStack fun fault refused =>
    ⟨Std.Refl.refl machine, OperandStack.isOrdinary_of_swapTop refused⟩)).bind
      fun stack after held => ?_
  obtain ⟨done, rfl⟩ := held
  exact Action.ensures_of_eq_some rfl
    (Routine.stack after stack (OperandStack.becomes_of_swapTop done) : relation _ _)

/-- The native of a call runs marked as such, on the arguments on top of the stack. -/
def enterNative (invoke : Invoker) (entry : NativeEntry) (arguments : List Value)
    (nested : Bool) : Action Value :=
  Action.afterwards (do
    modify fun (machine : Machine) => { machine with inNative := true }
    invoke entry arguments) fun after => { after with inNative := nested }

omit [Routine relation] in
theorem ensures_enterNative {invoke : Invoker} {entry : NativeEntry} {arguments : List Value}
    {nested : Bool} {done : Value → Machine → Prop}
    (called : (invoke entry arguments).Ensures { machine with inNative := true }
      (fun error after => failed error { after with inNative := nested })
      fun value after => done value { after with inNative := nested }) :
    (enterNative invoke entry arguments nested).Ensures machine failed done :=
  Action.Ensures.afterwards (Action.ensures_modify_bind called)

/-- A call of a native is routine but for the native itself. -/
theorem ensures_callConstant {invoke : Invoker} {index : UInt32} {count : Nat}
    (ordinary : ∀ error, error.IsOrdinary → allowed error)
    (missing : machine.program.constants[index.toNat]? = none →
      allowed (.badBytecode (.stringIndexOutOfRange index machine.program.constants.length
        machine.offset)))
    (called : ∀ key entry, machine.program.constants[index.toNat]? = some key →
      machine.natives.get? machine.heap key = some entry →
      (enterNative invoke entry (machine.stack.top count) machine.inNative).Ensures machine
        (fun error after => relation machine after ∧ allowed error)
        fun _ after => relation machine after) :
    (callConstant invoke index count).Ensures machine
      (fun error after => relation machine after ∧ allowed error)
      fun _ after => relation machine after := by
  refine (Action.ensures_lift (ensures_constant fun absent =>
    ⟨Std.Refl.refl machine, missing absent⟩)).bind fun key after found => ?_
  obtain ⟨rfl, constant⟩ := found
  refine Action.ensures_get_bind ?_
  cases registered : after.natives.get? after.heap key with
  | none => exact Action.ensures_of_eq_some rfl ⟨Std.Refl.refl after, ordinary _ trivial⟩
  | some entry =>
      refine (Action.ensures_lift (Update.ensures_ofStack fun fault refused =>
        ⟨Std.Refl.refl after, ordinary _ (OperandStack.isOrdinary_of_require refused)⟩)).bind
          fun _ last held => ?_
      obtain ⟨_, rfl⟩ := held
      refine Action.Ensures.bind (called key entry constant registered)
        fun result ended related => ?_
      -- What follows the native is routine.
      have finished : (do
          modify fun (machine : Machine) =>
            { machine with stack := machine.stack.truncate (last.stack.depth - count) }
          pushing result : Action Flow).Within relation allowed :=
        (Action.Within.modify fun machine =>
          Routine.stack machine _ (machine.stack.becomes_truncate _)).bind fun _ =>
          Action.within_lift ((Routine.within_pushing result).weaken (fun _ _ => id) ordinary)
      refine (finished ended).mono (fun error final held => ⟨?_, held.2⟩) fun _ final held => ?_
      · exact IsTrans.trans _ _ _ related held.1
      · exact IsTrans.trans _ _ _ related held

/-- Every instruction is routine but for stores and calls of natives. -/
theorem ensures_execute {invoke : Invoker} {instruction : Instruction}
    (ordinary : ∀ error, error.IsOrdinary → allowed error)
    (missing : ∀ index, instruction.poolIndex? = some index →
      machine.program.constants[index.toNat]? = none →
      allowed (.badBytecode (.stringIndexOutOfRange index machine.program.constants.length
        machine.offset)))
    (stored : ∀ index, instruction = .storeGlobal index →
      (storeGlobal index).Ensures machine
        (fun error after => relation machine after ∧ allowed error)
        fun _ after => relation machine after)
    (called : ∀ index count key entry, instruction = .callNative index count →
      machine.program.constants[index.toNat]? = some key →
      machine.natives.get? machine.heap key = some entry →
      (enterNative invoke entry (machine.stack.top count.toNat) machine.inNative).Ensures machine
        (fun error after => relation machine after ∧ allowed error)
        fun _ after => relation machine after) :
    (execute invoke instruction).Ensures machine
      (fun error after => relation machine after ∧ allowed error)
      fun _ after => relation machine after := by
  have acts {action : Action Flow} (within : action.Within relation MachineError.IsOrdinary) :
      action.Ensures machine (fun error after => relation machine after ∧ allowed error)
        fun _ after => relation machine after :=
    within.weaken (fun _ _ => id) ordinary machine
  have routine {update : Update Flow} (within : update.Within relation MachineError.IsOrdinary) :
      (liftM update : Action Flow).Ensures machine
        (fun error after => relation machine after ∧ allowed error)
        fun _ after => relation machine after :=
    acts (Action.within_lift within)
  cases instruction with
  | pushInt | pushFloat | pushNil | pushBool => exact routine (Routine.within_pushing _)
  | pushString index =>
      refine (Action.ensures_lift (ensures_constant fun absent =>
        ⟨Std.Refl.refl machine, missing index rfl absent⟩)).bind fun ref after found => ?_
      obtain ⟨rfl, _⟩ := found
      exact routine (Routine.within_pushing _)
  | add => exact routine (Routine.within_binary _ Routine.within_addValues)
  | sub | mul => exact routine (Routine.within_binary _ (Routine.within_arithmetic _))
  | div => exact routine (Routine.within_binary _ Routine.within_divide)
  | eq | neq =>
      exact routine (Routine.within_binary _ fun left right =>
        Routine.within_test fun machine => _)
  | lt | gt | le | ge => exact routine (Routine.within_ordering _ _)
  | print =>
      have topped : (topOperand .print).Within relation MachineError.IsOrdinary :=
        Routine.within_topOperand .print
      exact acts ((Action.within_lift topped).bind fun value => .get_bind fun machine =>
        (Action.within_lift (Modest.within_write _)).bind fun _ => .pure _)
  | pop =>
      have popped : (popOperand .pop).Within relation MachineError.IsOrdinary :=
        Routine.within_popOperand .pop
      exact acts ((Action.within_lift popped).bind fun _ => .pure _)
  | dup =>
      have topped : (topOperand .dup).Within relation MachineError.IsOrdinary :=
        Routine.within_topOperand .dup
      exact acts ((Action.within_lift topped).bind fun value =>
        Action.within_lift (Routine.within_pushing value))
  | swap => exact acts within_swap
  | storeGlobal index => exact Action.ensures_lift (stored index rfl)
  | loadGlobal index => exact Action.ensures_lift (ensures_loadGlobal ordinary (missing index rfl))
  | callNative index count =>
      exact ensures_callConstant ordinary (missing index rfl) fun key entry =>
        called index count key entry rfl
  | jump target => exact acts (.pure _)
  | jumpIfFalse target =>
      have popped : (popOperand .jumpIfFalse).Within relation MachineError.IsOrdinary :=
        Routine.within_popOperand .jumpIfFalse
      exact acts ((Action.within_lift popped).bind fun _ => .pure _)
  | halt => exact acts (.pure _)

theorem yields_pushing (value : Value) : (pushing value).Yields .next :=
  .bind fun _ _ => rfl

theorem yields_callConstant (invoke : Invoker) (index : UInt32) (count : Nat) :
    (callConstant invoke index count).Yields .next := by
  refine .bind fun key => .bind fun machine => ?_
  cases machine.natives.get? machine.heap key with
  | none => exact fun _ => Action.ensures_of_eq_some rfl trivial
  | some entry =>
      exact .bind fun _ => .bind fun result => .bind fun _ =>
        Action.yields_lift (yields_pushing result)

/-- An instruction without a target ends the program or is followed by the next one. -/
theorem yields_execute (invoke : Invoker) {instruction : Instruction}
    (straight : instruction.jumpTarget? = none) :
    (execute invoke instruction).Yields (if instruction = .halt then .halt else .next) := by
  have binary {op : Opcode} {operation : Value → Value → Update Value} :
      (binary op operation).Yields .next :=
    .bind fun _ => .bind yields_pushing
  cases instruction with
  | pushInt | pushFloat | pushNil | pushBool => exact Action.yields_lift (yields_pushing _)
  | pushString => exact .bind fun _ => Action.yields_lift (yields_pushing _)
  | add | sub | mul | div | eq | neq | lt | gt | le | ge => exact Action.yields_lift binary
  | print | swap => exact .bind fun _ => .bind fun _ => .bind fun _ => .pure _
  | pop => exact .bind fun _ => .pure _
  | dup => exact .bind fun _ => Action.yields_lift (yields_pushing _)
  | storeGlobal =>
      exact Action.yields_lift (.bind fun _ => .bind fun _ => .bind fun _ => .bind fun _ =>
        .bind fun _ _ => rfl)
  | loadGlobal =>
      refine Action.yields_lift (.bind fun key => .bind fun machine => ?_)
      cases machine.globals.get? machine.heap key with
      | none => exact fun _ => trivial
      | some value => exact yields_pushing value
  | callNative index count => exact yields_callConstant invoke index count.toNat
  | jump | jumpIfFalse => cases straight
  | halt => exact .pure _

/-- Execution jumps only to the target of the instruction. -/
theorem ensures_execute_target (invoke : Invoker) (instruction : Instruction) (machine : Machine) :
    (execute invoke instruction).Ensures machine (fun _ _ => True) fun flow _ =>
      ∀ target, flow = .jump target → instruction.jumpTarget? = some target := by
  cases leads : instruction.jumpTarget? with
  | none =>
      refine (yields_execute invoke leads machine).mono (fun _ _ => id)
        fun flow _ ends target jumps => ?_
      rw [ends] at jumps
      split at jumps <;> cases jumps
  | some target =>
      cases instruction with
      | jump =>
          refine Action.ensures_of_eq_some rfl fun found jumps => ?_
          cases jumps
          exact leads.symm
      | jumpIfFalse =>
          refine (Action.ensures_true _ machine).bind fun value after _ => ?_
          refine Action.ensures_of_eq_some rfl fun found jumps => ?_
          split at jumps
          · cases jumps
          · cases jumps
            exact leads.symm
      | _ => cases leads

end Instructions

/-! ## Steps -/

section Steps

variable {machine : Machine} {failed : MachineError → Machine → Prop}
  {done : StepExit → Machine → Prop} {invoke : Invoker}

/-- The machine that the instruction of a step is carried out on. -/
def swept (machine : Machine) : Machine :=
  if machine.collector.wantsCollection then machine.collect.2 else machine

theorem swept_elim {motive : Machine → Prop} (unswept : motive machine)
    (collected : motive machine.collect.2) : motive machine.swept := by
  unfold swept
  split
  · exact collected
  · exact unswept

/-- The machine after an instruction of a given length that leaves it somewhere and says where to go
on. -/
def moved (start length : Nat) (after : Machine) : Flow → StepExit × Machine
  | .next => (.continued, { after with offset := start + length })
  | .jump target => (.continued, { after with offset := target.toNat })
  | .halt => (.halted, { after with phase := .halted })

theorem ensures_executeNext
    (unfetched : ∀ error, machine.fetch = .error error → failed error machine)
    (executed : ∀ instruction, machine.fetch = .ok instruction →
      (execute invoke instruction).Ensures machine failed fun flow after =>
        let last := moved machine.offset instruction.encodedLength after flow
        done last.1 last.2) :
    (executeNext invoke).Ensures machine failed done := by
  refine Action.ensures_get_bind (Action.ensures_get_bind ?_)
  cases fetched : machine.fetch with
  | error error => exact Action.ensures_of_eq_some rfl (unfetched error fetched)
  | ok instruction =>
      have passed : (Update.ofExcept (.ok instruction)).Ensures machine failed fun found after =>
          found = instruction ∧ after = machine := ⟨rfl, rfl⟩
      refine (Action.ensures_lift passed).bind fun found after same => ?_
      obtain ⟨rfl, rfl⟩ := same
      refine (executed found fetched).bind fun flow middle finished => ?_
      cases flow <;> exact Action.ensures_of_eq_some rfl finished

/-- What is refused inside natives is refused without a change. -/
theorem ensures_requireOutsideNative (what : String)
    (inside : ∀ error, machine.inNative = true → error.IsOrdinary → failed error machine) :
    (requireOutsideNative what).Ensures machine failed fun _ after =>
      after = machine ∧ machine.inNative = false := by
  refine .get_bind ?_
  cases native : machine.inNative with
  | true => exact inside _ native trivial
  | false => exact ⟨rfl, rfl⟩

/-- A step refuses, does nothing or carries out an instruction, depending on the phase. -/
theorem ensures_stepWith
    (inside : ∀ error, machine.inNative = true → error.IsOrdinary →
      failed error (machine.remember error))
    (halted : machine.phase = .halted → done .halted machine)
    (faulted : machine.phase = .faulted → failed (.runtime .faulted) machine)
    (empty : ∀ error, machine.phase = .empty → error.IsOrdinary →
      failed error (machine.remember error))
    (ready : machine.inNative = false → machine.phase = .ready →
      (executeNext invoke).Ensures machine.swept
        (fun error after =>
          failed error (({ after with phase := .faulted } : Machine).remember error)) done) :
    (stepWith invoke).Ensures machine failed done := by
  refine (Action.ensures_lift (.recorded (ensures_requireOutsideNative "step" inside))).bind
    fun _ after same => ?_
  obtain ⟨rfl, outside⟩ := same
  refine Action.ensures_get_bind ?_
  cases phase : after.phase with
  | halted => exact Action.ensures_of_eq_some rfl (halted phase)
  | faulted => exact Action.ensures_of_eq_some rfl (faulted phase)
  | empty => exact Action.ensures_of_eq_some rfl (empty _ phase trivial)
  | ready =>
      have executed := (ready outside phase).faulting
      unfold swept at executed
      cases wanted : after.collector.wantsCollection with
      | false => simpa [wanted] using executed
      | true =>
          have collected : (set after.collect.2 : Action PUnit).Ensures after failed fun _ last =>
              last = after.collect.2 := Action.ensures_of_eq_some rfl rfl
          refine collected.bind fun _ last same => ?_
          subst same
          simpa [wanted] using executed

/-- A step stays within a routine relation that ignores the place in the program, as far as natives
do. -/
theorem Routine.keeps_stepWith [Routine relation]
    (assigned : ∀ (machine : Machine) (globals : ContentMap Value),
      relation machine { machine with globals })
    (placed : ∀ (machine : Machine) (offset : Nat) (phase : Phase) (inNative : Bool),
      relation machine { machine with offset, phase, inNative })
    (collected : ∀ machine : Machine, relation machine machine.collect.2)
    (natives : ∀ key entry arguments,
      machine.swept.natives.get? machine.swept.heap key = some entry →
        (invoke entry arguments).Within relation fun _ => True) :
    (stepWith invoke).Keeps relation machine fun _ _ => True := by
  have same : relation machine machine := Std.Refl.refl machine
  have swept : relation machine machine.swept := swept_elim same (collected machine)
  have faulted {after : Machine} (related : relation machine.swept after) (error : MachineError) :
      relation machine (({ after with phase := .faulted } : Machine).remember error) :=
    Modest.remember error (IsTrans.trans _ _ _ swept
      (IsTrans.trans _ _ _ related (placed after after.offset .faulted after.inNative)))
  refine ensures_stepWith ?_ ?_ ?_ ?_ fun _ _ => ?_
  · exact fun error _ _ => Modest.remember error same
  · exact fun _ => ⟨same, trivial⟩
  · exact fun _ => same
  · exact fun error _ _ => Modest.remember error same
  refine ensures_executeNext (fun error _ => faulted (Std.Refl.refl _) error)
    fun instruction _ => ?_
  have executed : (execute invoke instruction).Ensures machine.swept
      (fun _ after => relation machine.swept after ∧ True) fun _ after =>
        relation machine.swept after := by
    refine ensures_execute (fun _ _ => trivial) (fun _ _ _ => trivial) ?_ ?_
    · exact fun index _ => ensures_storeGlobal assigned (fun _ _ => trivial) fun _ => trivial
    intro index count key entry _ _ found
    have entered := placed machine.swept machine.swept.offset machine.swept.phase true
    have left (after : Machine) (related : relation { machine.swept with inNative := true } after) :
        relation machine.swept { after with inNative := machine.swept.inNative } :=
      IsTrans.trans _ _ _ entered (IsTrans.trans _ _ _ related
        (placed after after.offset after.phase machine.swept.inNative))
    exact ensures_enterNative ((natives key entry _ found _).mono
      (fun _ after held => ⟨left after held.1, trivial⟩) fun _ after => left after)
  refine executed.mono (fun error after held => faulted held.1 error) fun flow after held => ?_
  have moved := IsTrans.trans _ _ _ swept held
  cases flow with
  | next => exact ⟨IsTrans.trans _ _ _ moved (placed after _ after.phase after.inNative), trivial⟩
  | jump target =>
      exact ⟨IsTrans.trans _ _ _ moved (placed after _ after.phase after.inNative), trivial⟩
  | halt =>
      exact ⟨IsTrans.trans _ _ _ moved (placed after after.offset .halted after.inNative), trivial⟩

end Steps

/-! ## Calls and natives -/

/-- A routine relation that holds across the rest of what permitted calls of the interface do, as
far as natives stay within it. -/
structure Conduct (permits : Call → Prop) (relation : Machine → Machine → Prop) : Prop where
  assigned {name : String} {value : Value} (permitted : permits (.setGlobal name value))
    (machine : Machine) (globals : ContentMap Value) : relation machine { machine with globals }
  load (image : List UInt8) (permitted : permits (.load image)) :
    (load image).Within relation fun _ => True
  loadProgram (program : Program) (permitted : permits (.loadProgram program)) :
    (loadProgram program).Within relation fun _ => True
  reset (permitted : permits .reset) : reset.Within relation fun _ => True
  collect (machine : Machine) : relation machine machine.collect.2
  setMode (machine : Machine) (mode : CollectionMode) (permitted : permits (.setMode mode)) :
    relation machine (machine.setMode mode)
  setThreshold (machine : Machine) (threshold : Option Nat) :
    relation machine (machine.setThreshold threshold)
  /-- A run is made of steps. -/
  runs {limit : Nat} (permitted : permits (.run limit)) : permits .step
  step (permitted : permits .step) (machine : Machine) (invoke : Invoker)
    (natives : ∀ key entry arguments,
      machine.swept.natives.get? machine.swept.heap key = some entry →
      (invoke entry arguments).Within relation fun _ => True) :
    (stepWith invoke).Keeps relation machine fun _ _ => True
  /-- The arguments of a native could not be converted. -/
  refused {start before : Machine} (converted : relation start before) :
    relation start { before with scratch := before.scratch.take start.scratch.length }
  /-- A native ran with its converted arguments in the scratch area. -/
  returned {start before after : Machine} (arguments : List Value)
    (converted : relation start before)
    (ran : relation { before with scratch := before.scratch ++ arguments } after) :
    relation start { after with scratch := after.scratch.take start.scratch.length }

/-- A native is in the table, under a constant or under a name. -/
def Registers (machine : Machine) (entry : NativeEntry) : Prop :=
  (∃ key, machine.natives.get? machine.heap key = some entry) ∨
    ∃ bytes, machine.natives.getBytes? machine.heap bytes = some entry

end Machine

/-- Natives that stay within a relation when a machine with a given property calls them.  The
property outlasts collections and steps. -/
structure Invoker.Behaves (property : Machine → Prop) (relation : Machine → Machine → Prop)
    (invoke : Invoker) : Prop where
  collected {machine : Machine} (proper : property machine) : property machine.collect.2
  stepped {machine after : Machine} {result : Except MachineError StepExit}
    (proper : property machine)
    (ended : (Machine.stepWith invoke).apply machine = some (result, after)) : property after
  called {machine : Machine} {entry : NativeEntry} (proper : property machine)
    (registered : machine.Registers entry) (arguments : List Value) :
    (invoke entry arguments).Within relation fun _ => True

/-- Calls of the interface that make additive changes at most. -/
def Call.IsAdditive : Call → Prop
  | push _ | getGlobal _ | newString _ | intern _ | unregister _ | hasNative _ | clearError | text _
  | bytes _ | equal _ _ | view => True
  | _ => False

theorem Invoker.behaves_of_within {invoke : Invoker}
    (within : ∀ entry arguments, (invoke entry arguments).Within relation fun _ => True) :
    invoke.Behaves (fun _ => True) relation where
  collected _ := trivial
  stepped _ _ := trivial
  called _ _ arguments := within _ arguments

namespace Machine

section Calls

variable {permits : Call → Prop} {property : Machine → Prop} {invoke : Invoker} {machine : Machine}

theorem Conduct.keeps_stepWith (conduct : Conduct permits relation) (permitted : permits .step)
    (behaves : invoke.Behaves property relation) (proper : property machine) :
    (stepWith invoke).Keeps relation machine fun _ _ => True := by
  have swept : property machine.swept := swept_elim proper (behaves.collected proper)
  exact conduct.step permitted machine invoke fun key entry arguments found =>
    behaves.called swept (.inl ⟨key, found⟩) arguments

variable [Routine relation]

theorem Conduct.keeps_runFor (conduct : Conduct permits relation) (permitted : permits .step)
    (behaves : invoke.Behaves property relation) (count : Nat) (proper : property machine) :
    (runFor invoke count).Keeps relation machine fun _ _ => True := by
  induction count generalizing machine with
  | zero => exact .pure trivial
  | succ count induction =>
      have stepped : (stepWith invoke).Keeps relation machine fun _ after => property after := by
        rintro ⟨result, after⟩ ended
        have related := (conduct.keeps_stepWith permitted behaves proper).related ended
        cases result with
        | error error => exact related
        | ok exit => exact ⟨related, behaves.stepped proper ended⟩
      refine stepped.bind fun exit after _ proper => ?_
      cases exit with
      | halted => exact .pure trivial
      | continued => exact induction proper

theorem Conduct.keeps_runWith (conduct : Conduct permits relation) (permitted : permits .step)
    (behaves : invoke.Behaves property relation) (fuel limit : Nat) (proper : property machine) :
    (runWith invoke fuel limit).Keeps relation machine fun _ _ => True := by
  unfold runWith
  split
  · refine (conduct.keeps_runFor permitted behaves fuel proper).bind fun exit _ _ _ => ?_
    cases exit with
    | halted => exact .pure trivial
    | stepLimit => exact Action.keeps_exhausted
  · exact conduct.keeps_runFor permitted behaves limit proper

omit [Routine relation] in
/-- A call of a native by its name stays within a relation as far as the native does. -/
theorem Modest.keeps_callNativeWith [Modest relation] {name : String} {arguments : List Value}
    (called : ∀ entry,
      machine.natives.getBytes? machine.heap (Utf8.encode name.toList) = some entry →
        (invoke entry arguments).Keeps relation machine fun _ _ => True) :
    (callNativeWith invoke name arguments).Keeps relation machine fun _ _ => True := by
  refine Action.Keeps.recorded (.get_bind ?_) fun _ error => Modest.remember error
  cases found : machine.natives.getBytes? machine.heap (Utf8.encode name.toList) with
  | none => exact .throw
  | some entry => exact called entry found

omit [Routine relation] in
theorem Additive.keeps_performWith [Additive relation] (fuel : Nat) {call : Call}
    (additive : call.IsAdditive) :
    (performWith invoke fuel call).Keeps relation machine fun _ _ => True := by
  have lifted {α : Type} {update : Update α} {allowed : MachineError → Prop}
      (within : update.Within relation allowed) :
      (Action.attempt (liftM update : Action α)).Keeps relation machine fun _ _ => True :=
    ((Action.within_lift within).keeps machine).attempt
  cases call with
  | push value => exact lifted (Routine.within_push value)
  | getGlobal name => exact lifted (Routine.within_getGlobal name)
  | newString bytes => exact lifted (Modest.within_newString bytes)
  | intern text => exact lifted (Routine.within_intern text)
  | unregister name =>
      rw [performWith]
      exact .changing (Routine.unregister machine name)
  | clearError =>
      rw [performWith]
      exact .changing (Modest.lastError machine none)
  | hasNative | text | bytes | equal | view =>
      rw [performWith]
      exact .changing (Std.Refl.refl machine)
  | _ => exact additive.elim

/-- Calls of the interface stay within a conduct as far as natives do. -/
theorem Conduct.keeps_performWith (conduct : Conduct permits relation)
    (behaves : invoke.Behaves property relation) (fuel : Nat) {call : Call}
    (permitted : permits call)
    (proper : property machine) :
    (performWith invoke fuel call).Keeps relation machine fun _ _ => True := by
  have lifted {α : Type} {update : Update α} {allowed : MachineError → Prop}
      (within : update.Within relation allowed) :
      (Action.attempt (liftM update : Action α)).Keeps relation machine fun _ _ => True :=
    ((Action.within_lift within).keeps machine).attempt
  cases call with
  | load image => exact lifted (conduct.load image permitted)
  | loadProgram program => exact lifted (conduct.loadProgram program permitted)
  | reset => exact lifted (conduct.reset permitted)
  | step => exact (conduct.keeps_stepWith permitted behaves proper).attempt
  | run limit =>
      exact (conduct.keeps_runWith (conduct.runs permitted) behaves fuel limit proper).attempt
  | pop => exact .changing (Routine.pop machine)
  | setGlobal name value =>
      exact lifted (Routine.within_setGlobal (conduct.assigned permitted) name value)
  | callNative name arguments =>
      exact (Modest.keeps_callNativeWith fun entry found =>
        (behaves.called proper (.inr ⟨_, found⟩) arguments).keeps machine).attempt
  | collect => exact .changing (conduct.collect machine)
  | setMode mode =>
      rw [performWith]
      exact .changing (conduct.setMode machine mode permitted)
  | setThreshold threshold =>
      rw [performWith]
      exact .changing (conduct.setThreshold machine threshold)
  | _ => exact Additive.keeps_performWith fuel trivial

theorem Conduct.keeps_serve (conduct : Conduct permits relation)
    (behaves : invoke.Behaves property relation) (fuel : Nat) {request : Request}
    (permitted : ∀ call, request = .call call → permits call) (proper : property machine) :
    (request.serve invoke fuel).Keeps relation machine fun _ _ => True := by
  cases request with
  | call call =>
      refine (conduct.keeps_performWith behaves fuel (permitted call rfl) proper).bind
        fun _ _ _ _ => .pure trivial
  | register name signature native =>
      have registered : (register name signature native).Within relation MachineError.IsOrdinary :=
        Routine.within_register name signature native
      exact (((Action.within_lift registered).keeps machine).attempt).bind fun _ _ _ _ =>
        .pure trivial

/-- Requests stay within a conduct as long as the machine has the property that natives rely on. -/
theorem Conduct.related_of_serve {natives : Nat → Invoker} {final : Machine}
    {requests : List (Nat × Request)} (conduct : Conduct permits relation)
    (behaves : ∀ fuel, (natives fuel).Behaves property relation)
    (permitted : ∀ fuel call, (fuel, .call call) ∈ requests → permits call)
    (outlasts : ∀ fuel request, (fuel, request) ∈ requests → ∀ before result after,
      property before →
      (request.serve (natives fuel) fuel).apply before = some (result, after) → property after)
    (proper : property machine) (served : serve natives requests machine = some final) :
    relation machine final := by
  induction requests generalizing machine with
  | nil =>
      cases served
      exact Std.Refl.refl _
  | cons request rest induction =>
      obtain ⟨fuel, request⟩ := request
      obtain ⟨⟨result, after⟩, ended, served⟩ := Option.bind_eq_some_iff.mp served
      have related : relation machine after :=
        (conduct.keeps_serve (behaves fuel) fuel
          (fun call same => permitted fuel call (same ▸ List.mem_cons_self)) proper).related ended
      have later := induction
        (fun fuel call member => permitted fuel call (List.mem_cons_of_mem _ member))
        (fun fuel request member => outlasts fuel request (List.mem_cons_of_mem _ member))
        (outlasts fuel request List.mem_cons_self machine result after proper ended) served
      exact IsTrans.trans _ _ _ related later

theorem Routine.within_registerBuiltins (builtins : List (String × Option String × Builtin)) :
    (registerBuiltins builtins).Within relation MachineError.IsOrdinary := by
  induction builtins with
  | nil => exact .pure _
  | cons builtin rest induction =>
      obtain ⟨name, signature, builtin⟩ := builtin
      exact (Routine.within_register name signature (.builtin builtin)).bind fun _ => induction

variable (relation) in
/-- A new machine is an empty one after routine changes. -/
theorem Routine.of_create {config : MachineConfig} (created : create config = .ok machine) :
    ∃ stack, OperandStack.create config.stack = .ok stack ∧ relation {
      stack
      collector := Collector.ofConfig config.collector
      sink := config.sink
      sharesConstants := config.sharesConstants } machine := by
  obtain ⟨stack, made, created⟩ := bind_eq_ok_iff.mp created
  obtain ⟨_, _, finished⟩ := bind_eq_ok_iff.mp created
  cases finished
  exact ⟨stack, made, (Routine.within_registerBuiltins _).apply_snd _⟩

variable {perform : (call : Call) → Action call.Reply}

/-- A script stays within a relation when the calls it makes do. -/
theorem Routine.within_script (performs : ∀ call, (perform call).Within relation fun _ => True) :
    (script : Script) → (script.run perform).Within relation fun _ => True
  | .finish _ => Action.within_lift (.ofExcept fun _ _ => trivial)
  | .call request next => (performs request).bind fun reply => within_script performs (next reply)
  | .register name signature native next => by
    have registered : (register name signature native).Within relation MachineError.IsOrdinary :=
      Routine.within_register name signature native
    exact (Action.within_lift registered).attempt.bind fun outcome =>
      within_script performs (next outcome)

omit [Routine relation] in
/-- A builtin makes no calls. -/
theorem Modest.within_runNative [Modest relation] {native : Native}
    (admitted : native.Admitted true) (arguments : List Value) :
    (runNative perform native arguments).Within relation fun _ => True := by
  cases native with
  | builtin builtin =>
      exact Action.within_lift ((Modest.within_builtin builtin arguments).weaken (fun _ _ => id)
        fun _ _ => trivial)
  | host body => cases admitted

/-- A native stays within a relation when it is a builtin or the calls it makes do. -/
theorem Routine.within_runNative {native : Native}
    (performs : native.Admitted true ∨ ∀ call, (perform call).Within relation fun _ => True)
    (arguments : List Value) :
    (runNative perform native arguments).Within relation fun _ => True := by
  rcases performs with admitted | performs
  · exact Modest.within_runNative admitted arguments
  · cases native with
    | builtin builtin =>
        have admitted : (Native.builtin builtin).Admitted true := trivial
        exact Modest.within_runNative admitted arguments
    | host body => exact within_script performs (body arguments)

/-- The function of a native that is called with some arguments is entered with given values. -/
inductive Enters (entry : NativeEntry) (arguments : List Value) (machine : Machine) :
    List Value → Machine → Prop
  | plain (unsigned : entry.signature = none) : Enters entry arguments machine arguments machine
  | converted {signature : Signature} {values : List Value} {after : Machine}
      (signed : entry.signature = some signature)
      (coerced : (coerceArguments signature entry.name arguments).apply machine =
        (.ok values, after)) :
      Enters entry arguments machine values { after with scratch := after.scratch ++ values }

omit [Routine relation] in
theorem Enters.related [Modest relation]
    (put : ∀ (machine : Machine) (values : List Value),
      relation machine { machine with scratch := machine.scratch ++ values })
    {entry : NativeEntry} {arguments values : List Value} {inside : Machine}
    (enters : Enters entry arguments machine values inside) : relation machine inside := by
  cases enters with
  | plain => exact Std.Refl.refl machine
  | @converted signature values after _ coerced =>
      have converted : relation machine _ :=
        (Modest.within_coerceArguments signature entry.name arguments).apply_snd machine
      rw [coerced] at converted
      exact IsTrans.trans _ _ _ converted (put after values)

omit [Routine relation] in
/-- A registered native stays within a relation that holds across the use of the scratch area, as
far as its function does on the values that it is entered with. -/
theorem Modest.keeps_runEntry [Modest relation]
    (refused : ∀ {start before : Machine}, relation start before →
      relation start { before with scratch := before.scratch.take start.scratch.length })
    (returned : ∀ {start before after : Machine} (arguments : List Value), relation start before →
      relation { before with scratch := before.scratch ++ arguments } after →
      relation start { after with scratch := after.scratch.take start.scratch.length })
    {entry : NativeEntry} {arguments : List Value}
    (ran : ∀ {values inside}, Enters entry arguments machine values inside →
      (runNative perform entry.native values).Keeps relation inside fun _ _ => True) :
    (runEntry perform entry arguments).Keeps relation machine fun _ _ => True := by
  unfold runEntry
  cases signed : entry.signature with
  | none => exact ran (.plain signed)
  | some signature =>
      refine Action.ensures_get_bind (Action.Ensures.afterwards ?_)
      have finished (result : Value) : (coerceResult signature entry.name result).Within relation
          MachineError.IsOrdinary :=
        Modest.within_coerceResult signature entry.name result
      have converts : (coerceArguments signature entry.name arguments).Ensures machine
          (fun _ after => relation machine
            { after with scratch := after.scratch.take machine.scratch.length })
          fun values after =>
            (coerceArguments signature entry.name arguments).apply machine = (.ok values, after) ∧
              relation machine after := by
        have within : relation machine _ :=
          (Modest.within_coerceArguments signature entry.name arguments).apply_snd machine
        rw [Update.Ensures]
        generalize (coerceArguments signature entry.name arguments).apply machine =
          outcome at within ⊢
        obtain ⟨_ | _, after⟩ := outcome
        · exact refused within
        · exact ⟨rfl, within⟩
      refine (Action.ensures_lift converts).bind fun converted before early => ?_
      have ended := (ran (.converted signed early.1)).bind fun result after _ _ =>
        (Action.within_lift (finished result)).keeps after
      refine Action.ensures_modify_bind (Action.Ensures.mono ended ?_ ?_)
      · exact fun _ _ late => returned converted early.2 late
      · exact fun _ _ late => ⟨returned converted early.2 late.1, trivial⟩

theorem Conduct.within_runEntry (conduct : Conduct permits relation) {entry : NativeEntry}
    (performs : entry.native.Admitted true ∨ ∀ call, (perform call).Within relation fun _ => True)
    (arguments : List Value) :
    (runEntry perform entry arguments).Within relation fun _ => True :=
  .of_keeps fun _ => Modest.keeps_runEntry conduct.refused conduct.returned fun {_ inside} _ =>
    (Routine.within_runNative performs _).keeps inside

/-- Builtin natives make no calls of the interface. -/
theorem Conduct.behaves_invoke (conduct : Conduct permits relation) (fuel : Nat) :
    (Machine.invoke fuel).Behaves (Intact true) relation where
  collected := Intact.collect
  stepped intact ended :=
    ((Machine.keeps_stepWith (careful_invoke fuel) intact).related ended intact).1
  called {machine entry} intact registered arguments := by
    have builtin : entry.native.Admitted true := by
      have found : ∃ key, (key, entry) ∈ machine.natives.entries := by
        rcases registered with ⟨key, found⟩ | ⟨bytes, found⟩
        · exact intact.natives_sound.exists_mem_of_get? intact.natives_balanced intact.hashed found
        · exact intact.natives_sound.exists_mem_of_getBytes? intact.natives_balanced found
      obtain ⟨key, stored⟩ := found
      exact intact.natives_admitted (key, entry) stored
    cases fuel with
    | zero => exact Action.within_exhausted
    | succ fuel => exact conduct.within_runEntry (.inl builtin) arguments

/-- Natives stay within a conduct that permits every call. -/
theorem Conduct.within_invoke (conduct : Conduct (fun _ => True) relation) (fuel : Nat)
    (entry : NativeEntry) (arguments : List Value) :
    (Machine.invoke fuel entry arguments).Within relation fun _ => True := by
  induction fuel generalizing entry arguments with
  | zero => exact Action.within_exhausted
  | succ fuel induction =>
      have behaves := Invoker.behaves_of_within induction
      have performs (call : Call) :
          (performWith (Machine.invoke fuel) fuel call).Within relation fun _ => True :=
        .of_keeps fun machine => conduct.keeps_performWith behaves fuel trivial trivial
      exact conduct.within_runEntry (.inr performs) arguments

/-- Calls of the interface stay within a conduct that permits them all. -/
theorem Conduct.within_perform (conduct : Conduct (fun _ => True) relation) (fuel : Nat)
    (call : Call) : (Machine.perform fuel call).Within relation fun _ => True := by
  have behaves := Invoker.behaves_of_within (conduct.within_invoke fuel)
  exact .of_keeps fun machine => conduct.keeps_performWith behaves fuel trivial trivial

/-- A request stays within a conduct that permits every call, whatever the natives do. -/
theorem Conduct.related_of_served (conduct : Conduct (fun _ => True) relation) {fuel : Nat}
    {request : Request} {result : Except MachineError Unit} {after : Machine}
    (served : (request.serve (Machine.invoke fuel) fuel).apply machine = some (result, after)) :
    relation machine after := by
  have behaves := Invoker.behaves_of_within (conduct.within_invoke fuel)
  exact (conduct.keeps_serve behaves fuel (fun _ _ => trivial) trivial).related served

end Calls

end Machine

end StackMachine
