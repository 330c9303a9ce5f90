import StackMachine.Proofs.Machine.Reachability
import StackMachine.Proofs.Machine.Simulation

/-!
# Collections and shared constants do not show

Two machines with the builtin natives that differ in their collectors and in whether they share
constants are asked the same things by the host.  However calls that concern the collector are mixed
in on either side, the host gets the same answers and sees the same machines.
-/

namespace StackMachine

/-! ## What the host sees -/

/-- A value as the host sees it: a string by its content, and any other value as it is. -/
inductive Shown where
  | string (content : Option (List UInt8))
  | plain (value : Value)
deriving DecidableEq, Repr

/-- A value as the host sees it. -/
def Value.shown (heap : StringHeap) : Value → Shown
  | .string ref => .string (heap.bytes? ref)
  | value => .plain value

theorem Value.Alike.shown_eq {heap heap' : StringHeap} {value value' : Value}
    (alike : Value.Alike heap heap' value value') : value.shown heap = value'.shown heap' := by
  cases alike with
  | string same =>
      obtain ⟨bytes, content, content'⟩ := same
      rw [shown, shown, content, content']
  | plain none =>
      cases value with
      | string ref => cases none
      | _ => rfl

/-- What the host sees of a machine, strings being shown by content. -/
structure Appearance where
  /-- The operand stack, the bottom first. -/
  stack : List Shown
  /-- The names and values of the globals, in the order of the table. -/
  globals : List (Option (List UInt8) × Shown)
  /-- The constants of the program. -/
  constants : List (Option (List UInt8))
  /-- The offset of the next instruction. -/
  offset : Nat
  /-- The phase. -/
  phase : Phase
  /-- What is remembered of the last failure. -/
  lastError : Option LastError
  /-- The bytes written. -/
  output : List UInt8
deriving DecidableEq, Repr

/-- The answer to a call, strings being shown by content. -/
inductive Answer where
  | outcome (result : Except MachineError Unit)
  | stepped (result : Except MachineError StepExit)
  | ran (result : Except MachineError RunExit)
  | found (result : Except MachineError Shown)
deriving DecidableEq

namespace Call

/-- The answer that a reply amounts to, for calls that programs and their data depend on. -/
def answer? (heap : StringHeap) : (call : Call) → call.Reply → Option Answer
  | load _, reply | loadProgram _, reply | reset, reply | push _, reply | setGlobal _ _, reply =>
    some (.outcome reply)
  | step, reply => some (.stepped reply)
  | run _, reply => some (.ran reply)
  | getGlobal _, reply => some (.found (reply.map (Value.shown heap)))
  | _, _ => none

/-- Calls that load and run programs and pass values that are no strings. -/
def isShared : Call → Bool
  | load _ | loadProgram _ | reset | step | run _ | getGlobal _ => true
  | push value | setGlobal _ value => value.string?.isNone
  | _ => false

/-- Calls that concern the collector only. -/
def concernsCollector : Call → Bool
  | collect | setMode _ | setThreshold _ => true
  | _ => false

end Call

namespace Machine

/-- What the host sees of a machine. -/
def appearance (machine : Machine) : Appearance where
  stack := machine.stack.toList.map (Value.shown machine.heap)
  globals := machine.globals.entries.map fun entry =>
    (machine.heap.bytes? entry.1, entry.2.shown machine.heap)
  constants := machine.program.constants.map machine.heap.bytes?
  offset := machine.offset
  phase := machine.phase
  lastError := machine.lastError
  output := machine.sink.written

/-- Makes calls with an amount of fuel for each. The answers come with what is seen of the machine
right after them, and what is seen at the end comes last. -/
def converse : List (Nat × Call) → Machine → Option (List (Answer × Appearance) × Appearance)
  | [], machine => some ([], machine.appearance)
  | (fuel, call) :: rest, machine => do
    let (result, after) ← (perform fuel call).apply machine
    let (later, final) ← converse rest after
    let answer := result.toOption.bind (call.answer? after.heap)
    return (answer.toList.map (·, after.appearance) ++ later, final)

variable {left right : Machine}

theorem Alike.appearance_eq (alike : left.Alike right) : left.appearance = right.appearance := by
  have content_eq {ref ref' : StringRef} (same : left.heap.SameContent right.heap ref ref') :
      left.heap.bytes? ref = right.heap.bytes? ref' := by
    obtain ⟨bytes, content, content'⟩ := same
    rw [content, content']
  have stack_eq := map_eq_of_forall₂ alike.stack.toList fun _ _ same => same.shown_eq
  have globals_eq := map_eq_of_forall₂ alike.globals.entries fun entry entry' same =>
    congrArg₂ Prod.mk (content_eq same.1) same.2.shown_eq
  have constants_eq := map_eq_of_forall₂ alike.constants fun _ _ => content_eq
  rw [appearance, appearance, stack_eq, globals_eq, constants_eq, alike.offset_eq, alike.phase_eq,
    alike.lastError_eq, alike.sink_eq]

/-! ## Single calls -/

/-- Machines that look alike give the same answers and look alike afterwards. -/
theorem agrees_perform (alike : left.Alike right) (fuel : Nat) {call : Call}
    (shared : call.isShared = true) :
    (perform fuel call).Agrees (perform fuel call) left right fun reply reply' later later' =>
      call.answer? later.heap reply = call.answer? later'.heap reply' := by
  have same_outcome {update : Update Unit}
      (agrees : update.Agrees update left right fun _ _ _ _ => True) :
      (Action.attempt (liftM update)).Agrees (Action.attempt (liftM update)) left right
        fun result result' _ _ => some (Answer.outcome result) = some (.outcome result') :=
    (Action.agrees_lift agrees).attempt fun result result' _ _ agree => by
      cases agree <;> rfl
  cases call with
  | load image => exact same_outcome (agrees_load alike image)
  | loadProgram program => exact same_outcome (agrees_loadProgram alike program)
  | reset => exact same_outcome (agrees_reset alike)
  | push value =>
      exact same_outcome (agrees_push alike (.plain (Option.isNone_iff_eq_none.mp shared)))
  | setGlobal name value =>
      exact same_outcome (agrees_setGlobal alike name (Option.isNone_iff_eq_none.mp shared))
  | step =>
      exact (agrees_stepWith (uniform_invoke fuel) alike).attempt fun _ _ _ _ agree =>
        congrArg (some ∘ Answer.stepped) agree.eq
  | run limit =>
      exact (agrees_runWith (uniform_invoke fuel) alike fuel limit).attempt fun _ _ _ _ agree =>
        congrArg (some ∘ Answer.ran) agree.eq
  | getGlobal name =>
      exact (Action.agrees_lift (agrees_getGlobal alike name)).attempt fun _ _ _ _ agree =>
        congrArg (some ∘ Answer.found) (agree.map_eq fun _ _ same => same.shown_eq)
  | _ => cases shared

/-- What concerns the collector has no answer to compare and does not show. -/
theorem exists_perform_eq (alike : left.Alike right) (fuel : Nat) {call : Call}
    (concerns : call.concernsCollector = true) :
    ∃ reply later, (perform fuel call).apply left = some (.ok reply, later) ∧
      call.answer? later.heap reply = none ∧ later.Alike right := by
  cases call with
  | collect => exact ⟨_, _, rfl, rfl, alike.collect_left⟩
  | setMode mode => exact ⟨_, _, rfl, rfl, alike.collector_left _⟩
  | setThreshold threshold => exact ⟨_, _, rfl, rfl, alike.collector_left _⟩
  | _ => cases concerns

/-! ## Conversations -/

/-- What concerns the collector can be left out. -/
theorem converse_eq_filter (alike : left.Alike right) {calls : List (Nat × Call)}
    (known : ∀ call ∈ calls, call.2.isShared = true ∨ call.2.concernsCollector = true) :
    converse calls left = converse (calls.filter fun call => call.2.isShared) right := by
  induction calls generalizing left right with
  | nil => exact congrArg (fun seen => some ([], seen)) alike.appearance_eq
  | cons first rest induction =>
      obtain ⟨fuel, call⟩ := first
      obtain ⟨here, later_known⟩ := List.forall_mem_cons.mp known
      rcases here with shared | concerns
      · have kept : ((fuel, call) :: rest).filter (fun call => call.2.isShared) =
            (fuel, call) :: rest.filter fun call => call.2.isShared :=
          List.filter_cons_of_pos shared
        have agrees := agrees_perform alike fuel shared
        rw [kept, converse, converse]
        rw [Action.Agrees] at agrees
        generalize (perform fuel call).apply left = outcome,
          (perform fuel call).apply right = outcome' at agrees ⊢
        cases agrees with
        | none => rfl
        | some agree =>
            rcases agree.cases with ⟨error, later, later', rfl, rfl, later_alike⟩ |
              ⟨reply, reply', later, later', rfl, rfl, later_alike, answer_eq⟩
            · simp only [Option.bind_eq_bind, Option.bind_some, induction later_alike later_known]
              rfl
            · simp only [Option.bind_eq_bind, Option.bind_some, induction later_alike later_known,
                Except.toOption, answer_eq, later_alike.appearance_eq]
      · have unshared : call.isShared = false := by
          cases call <;> cases concerns <;> rfl
        have dropped : ((fuel, call) :: rest).filter (fun call => call.2.isShared) =
            rest.filter fun call => call.2.isShared :=
          List.filter_cons_of_neg (by simp [unshared])
        obtain ⟨reply, later, performed, unanswered, later_alike⟩ :=
          exists_perform_eq alike fuel concerns
        rw [dropped, converse, performed, ← induction later_alike later_known]
        simp only [Option.bind_eq_bind, Option.bind_some, Except.toOption, unanswered]
        cases converse rest later <;> rfl

/-! ## Creation -/

theorem agrees_registerBuiltins (alike : left.Alike right)
    (builtins : List (String × Option String × Builtin)) :
    (registerBuiltins builtins).Agrees (registerBuiltins builtins) left right
      fun _ _ _ _ => True := by
  induction builtins generalizing left right with
  | nil => exact .pure alike trivial
  | cons builtin rest induction =>
      obtain ⟨name, signature, builtin⟩ := builtin
      exact (agrees_register alike name signature builtin).bind fun _ _ _ _ grown _ =>
        induction grown.alike

/-- New machines look alike, whatever their collectors are and whether or not they share
constants. -/
theorem alike_of_create (config : MachineConfig) (collector collector' : CollectorConfig)
    (shares shares' : Bool) :
    ResultsAgree Alike (create { config with collector, sharesConstants := shares })
      (create { config with collector := collector', sharesConstants := shares' }) := by
  have reserved : ResultsAgree (fun stack stack' => stack = stack' ∧ stack.toList = [])
      (OperandStack.create config.stack) (OperandStack.create config.stack) := by
    cases made : OperandStack.create config.stack with
    | error error => exact .error error
    | ok stack => exact .ok ⟨rfl, OperandStack.toList_of_create made⟩
  refine ResultsAgree.bind reserved fun stack _ same => ?_
  obtain ⟨rfl, empty⟩ := same
  have values : stack.values.reversed = [] := List.reverse_eq_nil_iff.mp empty
  have bare : Alike
      { stack, collector := .ofConfig collector, sink := config.sink, sharesConstants := shares }
      { stack, collector := .ofConfig collector', sink := config.sink,
        sharesConstants := shares' } :=
    { left_tame := StringHeap.tame_empty
      right_tame := StringHeap.tame_empty
      stack := ⟨by rw [values]; exact .nil, rfl, rfl⟩
      globals := .empty
      natives := .empty
      code_eq := rfl
      constants := .nil
      offset_eq := rfl
      phase_eq := rfl
      sink_eq := rfl
      inNative_eq := rfl
      lastError_eq := rfl }
  have registered := agrees_registerBuiltins bare (if config.builtins then Builtin.table else [])
  rcases registered.cases with ⟨error, later, later', failed, failed', _⟩ |
    ⟨_, _, later, later', done, done', grown, _⟩
  · simp only [failed, failed']
    exact .error error
  · simp only [done, done']
    exact .ok grown.alike

/-- Whatever the collectors of two new machines are, whether or not they share constants, and
whenever the host has them collect, the host gets the same answers to its other calls and sees the
same machines. -/
theorem converse_eq_of_shared_calls_eq (config : MachineConfig)
    {collector collector' : CollectorConfig} {shares shares' : Bool}
    {calls calls' : List (Nat × Call)}
    (known : ∀ call ∈ calls ++ calls', call.2.isShared = true ∨ call.2.concernsCollector = true)
    (same : calls.filter (fun call => call.2.isShared) =
      calls'.filter fun call => call.2.isShared) :
    (create { config with collector, sharesConstants := shares }).map (converse calls) =
      (create { config with collector := collector', sharesConstants := shares' }).map
        (converse calls') := by
  refine (alike_of_create config collector collector' shares shares').map_eq
    fun left right alike => ?_
  have shared_known : ∀ call ∈ calls'.filter fun call => call.2.isShared,
      call.2.isShared = true ∨ call.2.concernsCollector = true :=
    fun call member => .inl (List.mem_filter.mp member).2
  calc converse calls left
    _ = converse (calls.filter fun call => call.2.isShared) right :=
      converse_eq_filter alike fun call member => known call (List.mem_append_left _ member)
    _ = converse (calls'.filter fun call => call.2.isShared) left := by
      rw [same, converse_eq_filter alike.symm shared_known, List.filter_filter]
      simp only [Bool.and_self]
    _ = converse calls' right := by
      rw [converse_eq_filter alike.symm fun call member =>
        known call (List.mem_append_right _ member)]

/-- A program that joins two equal constants, stores the result under one of them, finds it under
the other and prints it. -/
def joiningProgram : Program :=
  ⟨[[97], [97]], [Instruction.pushString 0, .pushString 1, .add, .storeGlobal 0,
    .loadGlobal 1, .print, .halt].flatMap Instruction.encode⟩

/-- Calls that run the program and read what it stored. -/
def plainCalls : List (Nat × Call) :=
  [(0, .loadProgram joiningProgram), (9, .run 0), (0, .getGlobal "a")]

/-- The same calls among others that concern the collector. -/
def mixedCalls : List (Nat × Call) :=
  [(0, .collect), (0, .loadProgram joiningProgram), (0, .setMode .own), (9, .run 0), (0, .collect),
    (0, .setThreshold none), (0, .getGlobal "a")]

theorem converse_eq_with_collections_and_shared_constants :
    ∃ seen : List (Answer × Appearance) × Appearance, seen.2.output = [97, 97, 10] ∧
      (create { collector := ⟨.observe, none⟩, sharesConstants := false }).map
        (converse plainCalls) =
        .ok (some seen) ∧
      (create { collector := ⟨.own, some 1⟩, sharesConstants := true }).map (converse mixedCalls) =
        .ok (some seen) := by
  have ran : ((create { collector := ⟨.observe, none⟩, sharesConstants := false }).toOption.bind
      (converse plainCalls)).map (fun seen => seen.2.output) = some [97, 97, 10] := by
    decide +kernel
  obtain ⟨seen, conversed, output_eq⟩ := Option.map_eq_some_iff.mp ran
  obtain ⟨machine, created, conversed⟩ := Option.bind_eq_some_iff.mp conversed
  have plain_eq : (create { collector := ⟨.observe, none⟩, sharesConstants := false }).map
      (converse plainCalls) = .ok (some seen) := by
    rw [toOption_eq_some_iff.mp created, Except.map, conversed]
  have known : ∀ call ∈ mixedCalls ++ plainCalls,
      call.2.isShared = true ∨ call.2.concernsCollector = true := by
    decide
  have mixed_eq : (create { collector := ⟨.own, some 1⟩, sharesConstants := true }).map
      (converse mixedCalls) =
        (create { collector := ⟨.observe, none⟩, sharesConstants := false }).map
          (converse plainCalls) :=
    converse_eq_of_shared_calls_eq {} known rfl
  exact ⟨seen, output_eq, plain_eq, mixed_eq.trans plain_eq⟩

end Machine

end StackMachine
