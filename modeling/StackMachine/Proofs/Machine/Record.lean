import StackMachine.Proofs.Machine.Confinement

/-!
# The record of the last failure

Every call that fails leaves its failure on record, but for steps and runs of a machine that a
failed instruction has stopped: these fail without a change, so that the failure of the instruction
stays on record.  A call that succeeds leaves the record alone as long as the natives that run are
builtins; natives of the host may make calls that fail, and clear the record.
-/

namespace StackMachine

variable {α β : Type}

/-! ## Success leaves the record alone -/

namespace Update

/-- A success leaves the record of failures alone. -/
def Quiet (update : Update α) : Prop :=
  ∀ machine, update.Ensures machine (fun _ _ => True) fun _ after =>
    after.lastError = machine.lastError

namespace Quiet

theorem bind {first : Update α} {next : α → Update β} (before : first.Quiet)
    (continued : ∀ value, (next value).Quiet) : (first >>= next).Quiet := by
  intro machine
  refine (before machine).bind fun value middle early => ?_
  exact (continued value middle).mono (fun _ _ => id) fun _ _ late => late.trans early

theorem pure (value : α) : (Pure.pure value : Update α).Quiet :=
  fun _ => rfl

theorem throw (error : MachineError) : (MonadExcept.throw error : Update α).Quiet :=
  fun _ => trivial

theorem ofExcept (result : Except MachineError α) : (Update.ofExcept result).Quiet := by
  intro machine
  cases result with
  | error error => trivial
  | ok value => exact rfl

theorem recorded {update : Update α} (quiet : update.Quiet) : (Update.recorded update).Quiet :=
  fun machine => .recorded (quiet machine)

end Quiet

/-- A failure is left on record. -/
def Records (update : Update α) : Prop :=
  ∀ machine, update.Ensures machine (fun error after => after.lastError = some (.ofError error))
    fun _ _ => True

theorem records_recorded (update : Update α) : (Update.recorded update).Records := by
  intro machine
  rw [Ensures, apply_recorded]
  rcases update.apply machine with ⟨_ | _, after⟩
  · exact rfl
  · trivial

end Update

namespace Action

/-- A success leaves the record of failures alone. -/
def Quiet (action : Action α) : Prop :=
  ∀ machine, action.Ensures machine (fun _ _ => True) fun _ after =>
    after.lastError = machine.lastError

theorem quiet_lift {update : Update α} (quiet : update.Quiet) : (liftM update : Action α).Quiet :=
  fun machine => ensures_lift (quiet machine)

theorem quiet_exhausted : (exhausted : Action α).Quiet := by
  intro machine outcome ended
  cases ended

namespace Quiet

theorem bind {first : Action α} {next : α → Action β} (before : first.Quiet)
    (continued : ∀ value, (next value).Quiet) : (first >>= next).Quiet := by
  intro machine
  refine (before machine).bind fun value middle early => ?_
  exact (continued value middle).mono (fun _ _ => id) fun _ _ late => late.trans early

theorem pure (value : α) : (Pure.pure value : Action α).Quiet :=
  fun _ => ensures_of_eq_some rfl rfl

theorem get_bind {next : Machine → Action β} (continued : ∀ machine, (next machine).Quiet) :
    (get >>= next : Action β).Quiet :=
  fun machine => ensures_get_bind (continued machine machine)

theorem modify {change : Machine → Machine}
    (kept : ∀ machine, (change machine).lastError = machine.lastError) :
    (modify change : Action PUnit).Quiet :=
  fun machine => ensures_of_eq_some rfl (kept machine)

theorem afterwards {action : Action α} {restore : Machine → Machine} (quiet : action.Quiet)
    (kept : ∀ machine, (restore machine).lastError = machine.lastError) :
    (Action.afterwards action restore).Quiet :=
  fun machine => .afterwards ((quiet machine).mono (fun _ _ => id) fun _ after early =>
    (kept after).trans early)

end Quiet

end Action

namespace Machine

/-! ### Updates -/

theorem quiet_allocateWith (tell : Collector → StringRef → Nat → Bool × Collector)
    (bytes : List UInt8) :
    (allocateWith tell bytes).Quiet :=
  .bind (.ofExcept _) fun _ _ => rfl

theorem quiet_newString (bytes : List UInt8) : (newString bytes).Quiet :=
  .recorded (.bind (quiet_allocateWith _ bytes) fun _ => .pure _)

theorem quiet_intern (text : String) : (intern text).Quiet := by
  refine .recorded fun machine =>
    .get_bind (.ofStorage_bind (fun _ => trivial) fun interned _ => ?_)
  exact .set_bind rfl

theorem quiet_requireLive (value : Value) : (requireLive value).Quiet := by
  intro machine
  cases value with
  | string ref =>
      refine .get_bind ?_
      cases machine.heap.contains ref with
      | true => exact rfl
      | false => trivial
  | _ => exact rfl

theorem quiet_requireOutsideNative (what : String) : (requireOutsideNative what).Quiet := by
  refine fun machine => .get_bind ?_
  cases machine.inNative with
  | true => trivial
  | false => exact rfl

theorem quiet_addConstant (bytes : List UInt8) : (addConstant bytes).Quiet := by
  refine fun machine => .get_bind ?_
  cases machine.sharesConstants with
  | true =>
      refine .get_bind (.ofStorage_bind (fun _ => trivial) fun interned _ => ?_)
      exact .set_bind rfl
  | false => exact quiet_allocateWith _ bytes machine

theorem quiet_addConstants (contents : List (List UInt8)) : (addConstants contents).Quiet := by
  induction contents with
  | nil => exact .pure _
  | cons bytes rest induction =>
      exact .bind (quiet_addConstant bytes) fun _ => .bind induction fun _ => .pure _

theorem quiet_install (program : Program) : (install program).Quiet :=
  .bind (quiet_addConstants program.strings) fun _ _ => rfl

theorem quiet_load (image : List UInt8) : (load image).Quiet :=
  .recorded (.bind (quiet_requireOutsideNative _) fun _ => .bind (.ofExcept _) quiet_install)

theorem quiet_loadProgram (program : Program) : (loadProgram program).Quiet :=
  .recorded (.bind (quiet_requireOutsideNative _) fun _ => .bind (.ofExcept _) fun _ =>
    quiet_install program)

theorem quiet_reset : reset.Quiet :=
  .recorded (.bind (quiet_requireOutsideNative _) fun _ _ => rfl)

/-- The key for a content is found in a map or allocated. -/
theorem quiet_keyOrAllocate {V : Type} (map : ContentMap V) (heap : StringHeap) (bytes : List UInt8)
    {next : StringRef → Update α} (continued : ∀ key, (next key).Quiet) :
    (match map.keyOfBytes? heap bytes with
      | some key => pure key >>= next
      | none => allocate bytes >>= next).Quiet := by
  cases map.keyOfBytes? heap bytes with
  | some key => exact .bind (.pure key) continued
  | none => exact .bind (quiet_allocateWith _ bytes) continued

theorem quiet_putNative (entry : NativeEntry) : (putNative entry).Quiet := by
  refine fun machine => .get_bind (quiet_keyOrAllocate _ _ _ (fun key => ?_) machine)
  exact fun machine => .get_bind (.ofStorage_bind (fun _ => trivial) fun _ _ => rfl)

theorem quiet_register (name : String) (signature : Option String) (native : Native) :
    (register name signature native).Quiet := by
  refine .recorded ?_
  cases signature with
  | none => exact quiet_putNative _
  | some text => exact .bind (.ofExcept _) fun _ => quiet_putNative _

theorem quiet_getGlobal (name : String) : (getGlobal name).Quiet := by
  refine .recorded fun machine => .get_bind ?_
  cases machine.globals.getBytes? machine.heap (Utf8.encode name.toList) with
  | some value => exact rfl
  | none => trivial

theorem quiet_setGlobal (name : String) (value : Value) : (setGlobal name value).Quiet := by
  refine .recorded (.bind (quiet_requireLive value) fun _ => ?_)
  refine fun machine => .get_bind (quiet_keyOrAllocate _ _ _ (fun key => ?_) machine)
  exact fun machine => .get_bind (.ofStorage_bind (fun _ => trivial) fun _ _ => rfl)

theorem quiet_pushOperand (value : Value) : (pushOperand value).Quiet :=
  fun _ => .get_bind (.ofExcept_bind (fun _ _ => trivial) fun _ _ => rfl)

theorem quiet_push (value : Value) : (push value).Quiet :=
  .recorded (.bind (quiet_requireLive value) fun _ => quiet_pushOperand value)

theorem quiet_write (bytes : List UInt8) : (write bytes).Quiet := by
  refine fun machine => .get_bind ?_
  rcases machine.sink.write bytes with ⟨complete, sink⟩
  refine .set_bind ?_
  cases complete with
  | true => exact rfl
  | false => trivial

/-! ### Conversions and builtins -/

theorem quiet_coerce (type : ParameterType) (value : Value) : (coerce type value).Quiet := by
  refine fun machine => .get_bind ?_
  cases type with
  | string =>
      cases value with
      | string ref => exact rfl
      | _ => exact Update.Quiet.bind (quiet_newString _) (fun _ => .pure _) machine
  | _ => exact rfl

theorem quiet_coerceFrom (name : String) (types : List ParameterType) (arguments : List Value)
    (position : Nat) : (coerceFrom name position types arguments).Quiet := by
  induction types generalizing position arguments with
  | nil => cases arguments <;> exact .pure _
  | cons type types induction =>
      cases arguments with
      | nil => exact .pure _
      | cons argument rest =>
          refine .bind (quiet_coerce type argument) fun converted => ?_
          cases converted with
          | none => exact .throw _
          | some value => exact .bind (induction rest (position + 1)) fun _ => .pure _

theorem quiet_coerceArguments (signature : Signature) (name : String) (arguments : List Value) :
    (coerceArguments signature name arguments).Quiet :=
  .bind (.ofExcept _) fun _ => quiet_coerceFrom name signature.parameters arguments 1

theorem quiet_coerceResult (signature : Signature) (name : String) (value : Value) :
    (coerceResult signature name value).Quiet := by
  unfold coerceResult
  split
  · exact .pure _
  · refine .bind (quiet_coerce signature.result value) fun converted => ?_
    cases converted with
    | none => exact .throw _
    | some result => exact .pure _

theorem quiet_builtin (builtin : Builtin) (arguments : List Value) :
    (builtin.run arguments).Quiet := by
  refine fun machine => .get_bind ?_
  cases builtin with
  | print => exact Update.Quiet.bind (quiet_write _) (fun _ => .pure _) machine
  | length | identity => exact rfl
  | typeName | concat => exact quiet_newString _ machine

/-! ### Instructions -/

theorem quiet_popOperand (op : Opcode) : (popOperand op).Quiet :=
  fun _ => .get_bind (.ofStack_bind (fun _ _ => trivial) fun _ _ => .set_bind rfl)

theorem quiet_popOperands (op : Opcode) : (popOperands op).Quiet :=
  fun _ => .get_bind (.ofStack_bind (fun _ _ => trivial) fun _ _ => .set_bind rfl)

theorem quiet_topOperand (op : Opcode) : (topOperand op).Quiet :=
  fun _ => .get_bind (.ofStack_bind (fun _ _ => trivial) fun _ _ => rfl)

theorem quiet_constant (index : UInt32) : (constant index).Quiet := by
  intro machine
  exact (ensures_constant fun _ => trivial).mono (fun _ _ => id) fun _ _ found =>
    congrArg lastError found.1

theorem quiet_pushing (value : Value) : (pushing value).Quiet :=
  .bind (quiet_pushOperand value) fun _ => .pure _

theorem quiet_binary (op : Opcode) {operation : Value → Value → Update Value}
    (operates : ∀ left right, (operation left right).Quiet) : (binary op operation).Quiet := by
  refine .bind (quiet_popOperands op) fun values => ?_
  exact .bind (operates values.1 values.2) fun result => quiet_pushing result

theorem quiet_addValues (left right : Value) : (addValues left right).Quiet := by
  unfold addValues
  split
  · refine fun machine => .get_bind (.ofStorage_bind (fun _ => trivial) fun bytes _ => ?_)
    exact Update.Quiet.bind (quiet_allocateWith _ bytes) (fun _ => .pure _) machine
  · exact .ofExcept _

theorem quiet_ordering (op : Opcode) (wanted : List Ordering) : (ordering op wanted).Quiet :=
  quiet_binary op fun _ _ _ => .get_bind (.ofExcept_bind (fun _ _ => trivial) fun _ _ => rfl)

theorem quiet_storeGlobal (index : UInt32) : (storeGlobal index).Quiet := by
  refine .bind (quiet_constant index) fun key => .bind (quiet_popOperand _) fun value => ?_
  exact fun machine => .get_bind (.ofStorage_bind (fun _ => trivial) fun _ _ => .set_bind rfl)

theorem quiet_loadGlobal (index : UInt32) : (loadGlobal index).Quiet := by
  refine .bind (quiet_constant index) fun key machine => .get_bind ?_
  cases machine.globals.get? machine.heap key with
  | none => trivial
  | some value => exact quiet_pushing value machine

section Natives

variable {natives : Invoker}

theorem quiet_swap : (execute natives .swap).Quiet := by
  refine fun machine => Action.ensures_get_bind ?_
  refine (Action.ensures_lift (Update.ensures_ofStack fun _ _ => trivial)).bind
    fun stack after held => ?_
  obtain ⟨_, rfl⟩ := held
  exact Action.ensures_of_eq_some rfl rfl

theorem quiet_callConstant (quiet : ∀ entry arguments, (natives entry arguments).Quiet)
    (index : UInt32) (count : Nat) : (callConstant natives index count).Quiet := by
  refine .bind (Action.quiet_lift (quiet_constant index)) fun key => .get_bind fun machine => ?_
  cases machine.natives.get? machine.heap key with
  | none => exact fun _ => Action.ensures_of_eq_some rfl trivial
  | some entry =>
      refine .bind (Action.quiet_lift (.ofExcept _)) fun _ => .bind ?_ fun result => ?_
      · refine Action.Quiet.afterwards (.bind (.modify fun _ => rfl) fun _ => ?_) fun _ => rfl
        exact quiet entry _
      · exact .bind (.modify fun _ => rfl) fun _ => Action.quiet_lift (quiet_pushing result)

theorem quiet_execute (quiet : ∀ entry arguments, (natives entry arguments).Quiet)
    (instruction : Instruction) : (execute natives instruction).Quiet := by
  cases instruction with
  | pushInt | pushFloat | pushNil | pushBool => exact Action.quiet_lift (quiet_pushing _)
  | pushString index =>
      exact .bind (Action.quiet_lift (quiet_constant index)) fun _ =>
        Action.quiet_lift (quiet_pushing _)
  | add => exact Action.quiet_lift (quiet_binary _ quiet_addValues)
  | sub | mul | div => exact Action.quiet_lift (quiet_binary _ fun _ _ => .ofExcept _)
  | eq | neq => exact Action.quiet_lift (quiet_binary _ fun _ _ _ => .get_bind rfl)
  | lt | gt | le | ge => exact Action.quiet_lift (quiet_ordering _ _)
  | print =>
      exact .bind (Action.quiet_lift (quiet_topOperand _)) fun _ => .get_bind fun _ =>
        .bind (Action.quiet_lift (quiet_write _)) fun _ => .pure _
  | pop => exact .bind (Action.quiet_lift (quiet_popOperand _)) fun _ => .pure _
  | dup =>
      exact .bind (Action.quiet_lift (quiet_topOperand _)) fun _ =>
        Action.quiet_lift (quiet_pushing _)
  | swap => exact quiet_swap
  | storeGlobal index => exact Action.quiet_lift (quiet_storeGlobal index)
  | loadGlobal index => exact Action.quiet_lift (quiet_loadGlobal index)
  | callNative index count => exact quiet_callConstant quiet index count.toNat
  | jump target => exact .pure _
  | jumpIfFalse target => exact .bind (Action.quiet_lift (quiet_popOperand _)) fun _ => .pure _
  | halt => exact .pure _

/-! ### Steps, runs and calls -/

theorem quiet_stepWith (quiet : ∀ entry arguments, (natives entry arguments).Quiet) :
    (stepWith natives).Quiet := by
  intro machine
  have swept_eq : machine.swept.lastError = machine.lastError :=
    swept_elim (motive := fun swept => swept.lastError = machine.lastError) rfl rfl
  refine ensures_stepWith ?_ ?_ ?_ ?_ fun _ _ => ?_
  · exact fun _ _ _ => trivial
  · exact fun _ => rfl
  · exact fun _ => trivial
  · exact fun _ _ _ => trivial
  · refine ensures_executeNext (fun _ _ => trivial) fun instruction _ => ?_
    refine (quiet_execute quiet instruction _).mono (fun _ _ => id) fun flow after kept => ?_
    rw [← swept_eq, ← kept]
    cases flow <;> rfl

theorem quiet_runFor (quiet : ∀ entry arguments, (natives entry arguments).Quiet) (count : Nat) :
    (runFor natives count).Quiet := by
  induction count with
  | zero => exact .pure _
  | succ count induction =>
      refine .bind (quiet_stepWith quiet) fun exit => ?_
      cases exit with
      | halted => exact .pure _
      | continued => exact induction

theorem quiet_runWith (quiet : ∀ entry arguments, (natives entry arguments).Quiet)
    (fuel limit : Nat) : (runWith natives fuel limit).Quiet := by
  unfold runWith
  split
  · refine .bind (quiet_runFor quiet fuel) fun exit => ?_
    cases exit with
    | halted => exact .pure _
    | stepLimit => exact Action.quiet_exhausted
  · exact quiet_runFor quiet limit

theorem quiet_callNativeWith (quiet : ∀ entry arguments, (natives entry arguments).Quiet)
    (name : String) (arguments : List Value) : (callNativeWith natives name arguments).Quiet := by
  refine fun machine => .recorded (Action.ensures_get_bind ?_)
  cases machine.natives.getBytes? machine.heap (Utf8.encode name.toList) with
  | none => exact Action.ensures_of_eq_some rfl trivial
  | some entry => exact quiet entry arguments machine

end Natives

/-! ### Builtins alone -/

/-- The way to call natives that gives up at those of the host. -/
def builtinsOnly (natives : Invoker) : Invoker := fun entry arguments =>
  match entry.native with
  | .builtin _ => natives entry arguments
  | .host _ => Action.exhausted

theorem quiet_builtinsOnly (fuel : Nat) (entry : NativeEntry) (arguments : List Value) :
    (builtinsOnly (invoke fuel) entry arguments).Quiet := by
  unfold builtinsOnly
  cases native_eq : entry.native with
  | host body => exact Action.quiet_exhausted
  | builtin builtin =>
      cases fuel with
      | zero => exact Action.quiet_exhausted
      | succ fuel =>
          simp only [invoke, runEntry, native_eq, runNative]
          cases entry.signature with
          | none => exact Action.quiet_lift (quiet_builtin builtin arguments)
          | some signature =>
              refine .get_bind fun machine => .afterwards ?_ fun _ => rfl
              refine .bind (Action.quiet_lift (quiet_coerceArguments _ _ _)) fun converted => ?_
              refine .bind (.modify fun _ => rfl) fun _ => ?_
              refine .bind (Action.quiet_lift (quiet_builtin builtin converted)) fun result => ?_
              exact Action.quiet_lift (quiet_coerceResult _ _ _)

/-- A builtin leaves the record alone. -/
theorem quiet_invoke (fuel : Nat) {entry : NativeEntry} (builtin : entry.native.Admitted true)
    (arguments : List Value) : (invoke fuel entry arguments).Quiet := by
  have quiet := quiet_builtinsOnly fuel entry arguments
  unfold builtinsOnly at quiet
  cases native_eq : entry.native with
  | builtin => rwa [native_eq] at quiet
  | host body =>
      rw [native_eq] at builtin
      cases builtin

/-! ## Failures are recorded -/

variable {machine after : Machine} {error : MachineError}

/-- A failed instruction has stopped the machine, and no native called by the program is under
way. -/
def Stuck (machine : Machine) : Prop :=
  machine.inNative = false ∧ machine.phase = .faulted

/-- The machine has an instruction to carry out. -/
def Ready (machine : Machine) : Prop :=
  machine.inNative = false ∧ machine.phase = .ready

theorem Ready.not_stuck (ready : machine.Ready) : ¬ machine.Stuck := by
  intro stuck
  exact Phase.noConfusion (ready.2.symm.trans stuck.2)

/-- How a step or a run fails: on a stuck machine without a change, on any other with a record, and
by stopping a machine that had an instruction to carry out. -/
structure Fails (machine : Machine) (error : MachineError) (after : Machine) : Prop where
  stuck : machine.Stuck → error = .runtime .faulted ∧ after = machine
  recorded : ¬ machine.Stuck → after.lastError = some (.ofError error)
  stops : machine.Ready → after.Stuck

theorem fails_remember (unready : ¬ machine.Ready) (free : ¬ machine.Stuck) :
    Fails machine error (machine.remember error) :=
  ⟨fun stuck => absurd stuck free, fun _ => rfl, fun ready => absurd ready unready⟩

/-- A step that goes on was made by a machine with an instruction to carry out, and leaves one. -/
theorem ensures_step_fails (fuel : Nat) (machine : Machine) :
    (stepWith (invoke fuel)).Ensures machine (Fails machine) fun exit after =>
      exit = .continued → machine.Ready ∧ after.Ready := by
  cases inside : machine.inNative with
  | true =>
      refine Action.ensures_of_eq_some (apply_stepWith_of_inNative _ inside) (fails_remember ?_ ?_)
      · intro ready
        exact Bool.noConfusion (inside.symm.trans ready.1)
      · intro stuck
        exact Bool.noConfusion (inside.symm.trans stuck.1)
  | false =>
      refine ensures_stepWith ?_ ?_ ?_ ?_ ?_
      · intro error native
        exact Bool.noConfusion (inside.symm.trans native)
      · rintro _ ⟨⟩
      · intro faulted
        have stuck : machine.Stuck := ⟨inside, faulted⟩
        exact ⟨fun _ => ⟨rfl, rfl⟩, fun free => absurd stuck free, fun ready =>
          absurd stuck ready.not_stuck⟩
      · intro error empty _
        refine fails_remember (fun ready => ?_) fun stuck => ?_
        · exact Phase.noConfusion (empty.symm.trans ready.2)
        · exact Phase.noConfusion (empty.symm.trans stuck.2)
      · intro _ phase_eq
        have ready : machine.Ready := ⟨inside, phase_eq⟩
        have swept := inPlace_swept machine
        have faulted {last : Machine} (inPlace : InPlace machine.swept last)
            (error : MachineError) :
            Fails machine error (({ last with phase := .faulted } : Machine).remember error) := by
          refine ⟨fun stuck => absurd stuck ready.not_stuck, fun _ => rfl, fun _ => ⟨?_, rfl⟩⟩
          exact (inPlace.inNative.trans swept.inNative).trans inside
        refine ensures_executeNext (fun error _ => faulted (Std.Refl.refl _) error)
          fun instruction _ => ?_
        refine (within_execute_inPlace fuel instruction _).mono
          (fun error last held => faulted held.1 error) fun flow last inPlace => ?_
        have inNative_eq := (inPlace.inNative.trans swept.inNative).trans inside
        have phase_eq := (inPlace.phase.trans swept.phase).trans phase_eq
        cases flow with
        | next | jump => exact fun _ => ⟨ready, inNative_eq, phase_eq⟩
        | halt => exact fun halted => StepExit.noConfusion halted

theorem ensures_runFor_fails (fuel count : Nat) (machine : Machine) :
    (runFor (invoke fuel) count).Ensures machine (Fails machine) fun _ _ => True := by
  induction count generalizing machine with
  | zero => exact Action.ensures_of_eq_some rfl trivial
  | succ count induction =>
      refine (ensures_step_fails fuel machine).bind fun exit middle went => ?_
      cases exit with
      | halted => exact Action.ensures_of_eq_some rfl trivial
      | continued =>
          obtain ⟨ready, ready_after⟩ := went rfl
          refine (induction middle).mono (fun error last failed => ?_) fun _ _ => id
          exact ⟨fun stuck => absurd stuck ready.not_stuck,
            fun _ => failed.recorded ready_after.not_stuck, fun _ => failed.stops ready_after⟩

theorem ensures_runWith_fails (fuel limit : Nat) (machine : Machine) :
    (runWith (invoke fuel) fuel limit).Ensures machine (Fails machine) fun _ _ => True := by
  unfold runWith
  split
  · refine (ensures_runFor_fails fuel fuel machine).bind fun exit last _ => ?_
    cases exit with
    | halted => exact Action.ensures_of_eq_some rfl trivial
    | stepLimit => exact fun _ ended => nomatch ended
  · exact ensures_runFor_fails fuel limit machine

/-! ## Calls -/

theorem apply_of_attempt {action : Action α} {reply : Except MachineError α}
    (answered : (Action.attempt action).apply machine = some (.ok reply, after)) :
    action.apply machine = some (reply, after) := by
  obtain ⟨⟨result, last⟩, ended, answer_eq⟩ := Option.map_eq_some_iff.mp answered
  cases answer_eq
  exact ended

end Machine

/-- Whether a call carries the program on. -/
def Call.carriesOn : Call → Bool
  | .step | .run _ => true
  | _ => false

namespace Machine

/-- What lies behind the outcome of a call that may fail. -/
inductive Answered (natives : Invoker) (fuel : Nat) (machine : Machine) :
    Call → Except MachineError Unit → Machine → Prop
  | update {α : Type} {call : Call} {update : Update α} {value : Except MachineError α}
      {after : Machine} (other : call.carriesOn = false) (records : update.Records)
      (quiet : update.Quiet) (applied : update.apply machine = (value, after)) :
      Answered natives fuel machine call (value.map fun _ => ()) after
  | callNative {name : String} {arguments : List Value} {value : Except MachineError Value}
      {after : Machine}
      (called : (callNativeWith natives name arguments).apply machine = some (value, after)) :
      Answered natives fuel machine (.callNative name arguments) (value.map fun _ => ()) after
  | step {exit : Except MachineError StepExit} {after : Machine}
      (stepped : (stepWith natives).apply machine = some (exit, after)) :
      Answered natives fuel machine .step (exit.map fun _ => ()) after
  | run {limit : Nat} {exit : Except MachineError RunExit} {after : Machine}
      (ran : (runWith natives fuel limit).apply machine = some (exit, after)) :
      Answered natives fuel machine (.run limit) (exit.map fun _ => ()) after

theorem answered_of_outcome {natives : Invoker} {fuel : Nat} {call : Call} {reply : call.Reply}
    {result : Except MachineError Unit}
    (answered : (performWith natives fuel call).apply machine = some (.ok reply, after))
    (outcome_eq : call.outcome? reply = some result) :
    Answered natives fuel machine call result after := by
  have updated {β : Type} {update : Update β} {value : Except MachineError β} {call : Call}
      (other : call.carriesOn = false) (quiet : (Update.recorded update).Quiet)
      (answered : (Action.attempt (liftM (Update.recorded update) : Action β)).apply machine =
        some (.ok value, after)) :
      Answered natives fuel machine call (value.map fun _ => ()) after :=
    .update other (Update.records_recorded update) quiet
      (Option.some.inj (apply_of_attempt answered))
  cases call with
  | load image =>
      cases outcome_eq
      exact updated rfl (quiet_load image) answered
  | loadProgram program =>
      cases outcome_eq
      exact updated rfl (quiet_loadProgram program) answered
  | reset =>
      cases outcome_eq
      exact updated rfl quiet_reset answered
  | push value =>
      cases outcome_eq
      exact updated rfl (quiet_push value) answered
  | getGlobal name =>
      cases outcome_eq
      exact updated rfl (quiet_getGlobal name) answered
  | setGlobal name value =>
      cases outcome_eq
      exact updated rfl (quiet_setGlobal name value) answered
  | newString bytes =>
      cases outcome_eq
      exact updated rfl (quiet_newString bytes) answered
  | intern text =>
      cases outcome_eq
      exact updated rfl (quiet_intern text) answered
  | callNative name arguments =>
      cases outcome_eq
      exact .callNative (apply_of_attempt answered)
  | step =>
      cases outcome_eq
      exact .step (apply_of_attempt answered)
  | run limit =>
      cases outcome_eq
      exact .run (apply_of_attempt answered)
  | _ => cases outcome_eq

/-- A step or a run that fails does so as `Fails` says. -/
theorem fails_of_answered {fuel : Nat} {call : Call} (on : call.carriesOn = true)
    (answered : Answered (invoke fuel) fuel machine call (.error error) after) :
    Fails machine error after := by
  generalize result_eq : (Except.error error : Except MachineError Unit) = result at answered
  cases answered with
  | update other =>
      rw [on] at other
      cases other
  | callNative => cases on
  | step stepped =>
      obtain rfl := map_eq_error_iff.mp result_eq.symm
      exact ensures_step_fails fuel machine _ stepped
  | run ran =>
      obtain rfl := map_eq_error_iff.mp result_eq.symm
      exact ensures_runWith_fails fuel _ machine _ ran

theorem lastError_of_answered {natives : Invoker} {fuel : Nat} {call : Call}
    (other : call.carriesOn = false)
    (answered : Answered natives fuel machine call (.error error) after) :
    after.lastError = some (.ofError error) := by
  generalize result_eq : (Except.error error : Except MachineError Unit) = result at answered
  cases answered with
  | @update _ _ update _ _ _ records _ applied =>
      obtain rfl := map_eq_error_iff.mp result_eq.symm
      have recorded := records machine
      rw [Update.Ensures, applied] at recorded
      exact recorded
  | callNative called =>
      obtain rfl := map_eq_error_iff.mp result_eq.symm
      rw [callNativeWith, Action.apply_recorded] at called
      obtain ⟨⟨_ | _, last⟩, _, treated⟩ := Option.map_eq_some_iff.mp called
      · cases treated
        rfl
      · cases treated
  | step | run => cases other

/-- A stuck machine answers steps and runs with the same failure, and does not change. -/
theorem perform_of_stuck (stuck : machine.Stuck) {call : Call} (on : call.carriesOn = true)
    (fuel : Nat) : ∃ reply, (perform (fuel + 1) call).apply machine = some (.ok reply, machine) ∧
      call.outcome? reply = some (.error (.runtime .faulted)) := by
  have stepped : (stepWith (invoke (fuel + 1))).apply machine =
      some (.error (.runtime .faulted), machine) := by
    rw [stepWith, Action.apply_bind, apply_lift, Update.apply_recorded, apply_requireOutsideNative,
      stuck.1]
    simp only [Bool.false_eq_true, if_false]
    rw [Action.apply_get_bind, stuck.2]
    rfl
  cases call with
  | step => exact ⟨.error _, apply_attempt_of_error stepped, rfl⟩
  | run limit =>
      exact ⟨.error _, apply_attempt_of_error (apply_runWith_of_stepWith stepped fuel limit), rfl⟩
  | _ => cases on

/-- No native of the host is run by a call: the call ends no differently when they all give up. -/
def RunsOnlyBuiltins (fuel : Nat) (call : Call) (machine : Machine) : Prop :=
  (performWith (builtinsOnly (invoke fuel)) fuel call).apply machine =
    (perform fuel call).apply machine

theorem lastError_of_success {fuel : Nat} {call : Call} {reply : call.Reply}
    (answered : (perform fuel call).apply machine = some (.ok reply, after))
    (outcome_eq : call.outcome? reply = some (.ok ()))
    (builtins : RunsOnlyBuiltins fuel call machine) : after.lastError = machine.lastError := by
  have quiet := quiet_builtinsOnly fuel
  have same := answered_of_outcome (builtins.trans answered) outcome_eq
  generalize result_eq : (Except.ok () : Except MachineError Unit) = result at same
  cases same with
  | @update _ _ update _ _ _ _ quiet applied =>
      obtain ⟨_, rfl, _⟩ := map_eq_ok_iff.mp result_eq.symm
      have kept := quiet machine
      rw [Update.Ensures, applied] at kept
      exact kept
  | callNative called =>
      obtain ⟨_, rfl, _⟩ := map_eq_ok_iff.mp result_eq.symm
      exact quiet_callNativeWith quiet _ _ machine _ called
  | step stepped =>
      obtain ⟨_, rfl, _⟩ := map_eq_ok_iff.mp result_eq.symm
      exact quiet_stepWith quiet machine _ stepped
  | run ran =>
      obtain ⟨_, rfl, _⟩ := map_eq_ok_iff.mp result_eq.symm
      exact quiet_runWith quiet fuel _ machine _ ran

/-- Requests that only carry the program on, each with some fuel. -/
def CarryOn (requests : List (Nat × Request)) : Prop :=
  ∀ request ∈ requests, 0 < request.1 ∧ ∃ call, request.2 = .call call ∧ call.carriesOn = true

/-- Steps and runs leave a stuck machine as it is. -/
theorem serve_of_stuck (stuck : machine.Stuck) {requests : List (Nat × Request)}
    (on : CarryOn requests) : serve invoke requests machine = some machine := by
  induction requests with
  | nil => rfl
  | cons request rest induction =>
      obtain ⟨⟨positive, call, call_eq, carries⟩, later⟩ := List.forall_mem_cons.mp on
      obtain ⟨fuel, request⟩ := request
      obtain ⟨less, rfl⟩ := Nat.exists_eq_succ_of_ne_zero (Nat.ne_of_gt positive)
      obtain rfl : request = .call call := call_eq
      obtain ⟨reply, answered, _⟩ := perform_of_stuck stuck carries less
      rw [perform] at answered
      rw [serve, Request.serve, Action.apply_bind, answered]
      exact induction later

theorem register_record (name : String) (signature : Option String) (native : Native)
    (machine : Machine) :
    Holds (fun error after => after.lastError = some (.ofError error))
      (fun _ after => after.lastError = machine.lastError)
      ((register name signature native).apply machine) := by
  have records : (register name signature native).Records := Update.records_recorded _
  have recorded := records machine
  have kept := quiet_register name signature native machine
  rw [Update.Ensures] at recorded kept
  rcases outcome : (register name signature native).apply machine with ⟨result, after⟩
  rw [outcome] at recorded kept
  cases result with
  | error error => exact recorded
  | ok _ => exact kept

/-- Every call that fails leaves the status and the text of its failure on record, except that steps
and runs of a stuck machine fail without any change.  A call that succeeds leaves the record alone
when only builtin natives ran.  After an instruction has failed, steps and runs therefore keep its
failure on record. -/
theorem failures_stay_on_record :
    (∀ fuel call (machine after : Machine) reply error,
      (perform fuel call).apply machine = some (.ok reply, after) →
      call.outcome? reply = some (.error error) →
      ¬ (call.carriesOn = true ∧ machine.Stuck) →
        after.lastError = some ⟨error.status, error.message⟩) ∧
    (∀ fuel call (machine : Machine), call.carriesOn = true → machine.Stuck →
      ∃ reply, (perform (fuel + 1) call).apply machine = some (.ok reply, machine) ∧
        call.outcome? reply = some (.error (.runtime .faulted))) ∧
    (∀ fuel call (machine after : Machine) reply,
      (perform fuel call).apply machine = some (.ok reply, after) →
      call.outcome? reply = some (.ok ()) → RunsOnlyBuiltins fuel call machine →
        after.lastError = machine.lastError) ∧
    (∀ name signature native (machine : Machine),
      Holds (fun error after => after.lastError = some ⟨error.status, error.message⟩)
        (fun _ after => after.lastError = machine.lastError)
        ((register name signature native).apply machine)) ∧
    ∀ fuel call (machine after : Machine) reply error, machine.Ready → call.carriesOn = true →
      (perform fuel call).apply machine = some (.ok reply, after) →
      call.outcome? reply = some (.error error) →
        after.Stuck ∧ after.lastError = some ⟨error.status, error.message⟩ ∧
          ∀ requests, CarryOn requests → serve invoke requests after = some after := by
  refine ⟨?_, ?_, ?_, ?_, ?_⟩
  · intro fuel call machine after reply error answered outcome_eq free
    have answered := answered_of_outcome answered outcome_eq
    cases on : call.carriesOn with
    | true => exact (fails_of_answered on answered).recorded fun stuck => free ⟨on, stuck⟩
    | false => exact lastError_of_answered on answered
  · intro fuel call machine on stuck
    exact perform_of_stuck stuck on fuel
  · intro fuel call machine after reply answered outcome_eq builtins
    exact lastError_of_success answered outcome_eq builtins
  · exact register_record
  · intro fuel call machine after reply error ready on answered outcome_eq
    have failed := fails_of_answered on (answered_of_outcome answered outcome_eq)
    have stuck := failed.stops ready
    exact ⟨stuck, failed.recorded ready.not_stuck, fun _ => serve_of_stuck stuck⟩

/-- Loads a program that adds a number to nil. -/
def mismatched : List (Nat × Request) :=
  [(0, .call (.loadProgram ⟨[], [Instruction.pushNil, .pushInt 1, .add].flatMap
    Instruction.encode⟩))]

theorem failures_stay_on_record_after_mismatch :
    ∃ start machine after last, create { builtins := false } = .ok start ∧
      serve invoke mismatched start = some machine ∧
      (run 3 0).apply machine = some (.error (.runtime (.typeMismatch "add" "nil" "int")), after) ∧
      after.lastError =
        some ⟨.runtimeError, "type mismatch in add: cannot apply to nil and int"⟩ ∧
      serve invoke [(1, .call .step), (1, .call (.run 0))] after = some after ∧
      reset.apply after = (.ok (), last) ∧ last.lastError = after.lastError := by
  have ran : ((create { builtins := false }).toOption.bind fun start =>
      (serve invoke mismatched start).bind fun machine =>
        ((run 3 0).apply machine).map fun outcome =>
          (machine.inNative, machine.phase, outcome.1)) =
      some (false, .ready, .error (.runtime (.typeMismatch "add" "nil" "int"))) := by
    decide +kernel
  simp only [Option.bind_eq_some_iff, Option.map_eq_some_iff, Prod.mk.injEq] at ran
  obtain ⟨start, created, machine, served, ⟨result, after⟩, ended, outside, ready, rfl⟩ := ran
  obtain ⟨_, _, quiet, _, faults⟩ := failures_stay_on_record
  obtain ⟨stuck, record, kept⟩ := faults 3 (.run 0) machine after _ _ ⟨outside, ready⟩ rfl
    (apply_attempt_of_error ended) rfl
  have on : CarryOn [(1, .call .step), (1, .call (.run 0))] := by simp [CarryOn, Call.carriesOn]
  obtain ⟨last, cleared⟩ : ∃ last, reset.apply after = (.ok (), last) := by
    rw [reset, Update.apply_recorded, Update.apply_bind, apply_requireOutsideNative, stuck.1]
    exact ⟨_, rfl⟩
  have answered : (perform 0 .reset).apply after = some (.ok (.ok ()), last) := by
    have attempted : (Action.attempt (liftM reset : Action Unit)).apply after =
        some (.ok (.ok ()), last) := by
      rw [Action.apply_attempt, apply_lift, cleared]
      rfl
    exact attempted
  exact ⟨start, machine, after, last, toOption_eq_some_iff.mp created, served, ended, record,
    kept _ on, cleared, quiet 0 .reset after last _ answered rfl rfl⟩

end Machine

end StackMachine
