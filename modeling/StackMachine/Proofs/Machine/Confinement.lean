import StackMachine.Proofs.Machine.Placement

/-!
# Natives cannot move the program

While a native called by the program is under way, every call that would move the program is
refused, whether the native makes it itself or a native that it calls.  The mark that a native is
under way is the same before and after every call of the interface, so that it is set exactly as
long as the program waits for a native, and the host finds it cleared between its requests.
-/

namespace StackMachine

/-! ## Calls and their outcomes -/

namespace Call

/-- What a call does with the program, when it replaces it, starts it again or carries it on. -/
def motion? : Call → Option String
  | load _ | loadProgram _ => some "load a program"
  | reset => some "reset"
  | step | run _ => some "step"
  | _ => none

/-- Whether a call failed, if it is one that may. -/
def outcome? : (call : Call) → call.Reply → Option (Except MachineError Unit)
  | load _, reply => some (Except.map (fun _ => ()) reply)
  | loadProgram _, reply => some (Except.map (fun _ => ()) reply)
  | reset, reply => some (Except.map (fun _ => ()) reply)
  | step, reply => some (Except.map (fun _ => ()) reply)
  | run _, reply => some (Except.map (fun _ => ()) reply)
  | push _, reply => some (Except.map (fun _ => ()) reply)
  | getGlobal _, reply => some (Except.map (fun _ => ()) reply)
  | setGlobal _ _, reply => some (Except.map (fun _ => ()) reply)
  | newString _, reply => some (Except.map (fun _ => ()) reply)
  | intern _, reply => some (Except.map (fun _ => ()) reply)
  | callNative _ _, reply => some (Except.map (fun _ => ()) reply)
  | _, _ => none

end Call

/-- A script comes to make a call when the machine is in a given state. -/
inductive Script.Makes (perform : (call : Call) → Action call.Reply) :
    Script → Machine → (call : Call) → Machine → Prop
  | now {call : Call} {next : call.Reply → Script} {place : Machine} :
      Makes perform (.call call next) place call place
  | afterCall {request call : Call} {next : request.Reply → Script} {reply : request.Reply}
      {machine after place : Machine}
      (performed : (perform request).apply machine = some (.ok reply, after))
      (later : Makes perform (next reply) after call place) :
      Makes perform (.call request next) machine call place
  | afterRegister {name : String} {signature : Option String} {native : Native}
      {next : Except MachineError Unit → Script} {call : Call} {machine place : Machine}
      (later : Makes perform (next ((Machine.register name signature native).apply machine).1)
        ((Machine.register name signature native).apply machine).2 call place) :
      Makes perform (.register name signature native next) machine call place

namespace Machine

/-- A native that is called with some arguments comes to make a call, itself or through the natives
that it calls, when the machine is in a given state. -/
inductive Makes : (fuel : Nat) → NativeEntry → List Value → Machine → Call → Machine → Prop
  | own {fuel : Nat} {entry : NativeEntry} {arguments values : List Value}
      {machine inside place : Machine} {body : List Value → Script} {call : Call}
      (entered : Enters entry arguments machine values inside) (host : entry.native = .host body)
      (made : (body values).Makes (performWith (invoke fuel) fuel) inside call place) :
      Makes (fuel + 1) entry arguments machine call place
  | nested {fuel : Nat} {entry inner : NativeEntry} {arguments values passed : List Value}
      {machine inside middle place : Machine} {body : List Value → Script} {name : String}
      {call : Call} (entered : Enters entry arguments machine values inside)
      (host : entry.native = .host body)
      (made : (body values).Makes (performWith (invoke fuel) fuel) inside (.callNative name passed)
        middle)
      (found : middle.natives.getBytes? middle.heap (Utf8.encode name.toList) = some inner)
      (later : Makes fuel inner passed middle call place) :
      Makes (fuel + 1) entry arguments machine call place

variable {machine place inside : Machine}

/-! ## Refusals -/

theorem apply_lift {α : Type} (update : Update α) (machine : Machine) :
    (liftM update : Action α).apply machine = some (update.apply machine) :=
  rfl

/-- The failure of what may not be done inside natives. -/
def insideNative (what : String) : MachineError :=
  .badArgument ("cannot " ++ what ++ " from inside a native call")

theorem apply_requireOutsideNative (what : String) (machine : Machine) :
    (requireOutsideNative what).apply machine =
      if machine.inNative then (.error (insideNative what), machine) else (.ok (), machine) := by
  rw [requireOutsideNative, Update.apply_get_bind]
  split <;> rfl

/-- A call is answered with a failure, which is remembered and changes nothing else. -/
def Refuses (machine : Machine) (call : Call) (error : MachineError) : Prop :=
  ∀ fuel, ∃ reply, (perform (fuel + 1) call).apply machine =
    some (.ok reply, machine.remember error) ∧
    call.outcome? reply = some (.error error)

theorem apply_recorded_of_inNative {α : Type} {update : Update α} (what : String)
    (inside : machine.inNative = true) :
    (liftM (Update.recorded do
      requireOutsideNative what
      update) : Action α).apply machine =
        some (.error (insideNative what), machine.remember (insideNative what)) := by
  rw [apply_lift, Update.apply_recorded, Update.apply_bind, apply_requireOutsideNative,
    if_pos inside]

theorem apply_stepWith_of_inNative (invoke : Invoker) (inside : machine.inNative = true) :
    (stepWith invoke).apply machine =
      some (.error (insideNative "step"), machine.remember (insideNative "step")) := by
  rw [stepWith, Action.apply_bind, apply_lift, Update.apply_recorded, apply_requireOutsideNative,
    if_pos inside]

/-- A run that has a step to make fails as that step does. -/
theorem apply_runWith_of_stepWith {invoke : Invoker} {error : MachineError} {after : Machine}
    (stepped : (stepWith invoke).apply machine = some (.error error, after)) (fuel limit : Nat) :
    (runWith invoke (fuel + 1) limit).apply machine = some (.error error, after) := by
  have ran (count : Nat) :
      (runFor invoke (count + 1)).apply machine = some (.error error, after) := by
    rw [runFor, Action.apply_bind, stepped]
  cases limit with
  | zero => rw [runWith, if_pos rfl, Action.apply_bind, ran]
  | succ limit => rw [runWith, if_neg (Nat.succ_ne_zero limit), ran]

theorem apply_attempt_of_error {α : Type} {action : Action α} {error : MachineError}
    {after : Machine}
    (failed : action.apply machine = some (.error error, after)) :
    (Action.attempt action).apply machine = some (.ok (.error error), after) := by
  rw [Action.apply_attempt, failed]
  rfl

/-- Inside natives every call that moves the program is refused. -/
theorem refuses_of_inNative (inside : machine.inNative = true) {call : Call} {what : String}
    (moves : call.motion? = some what) : machine.Refuses call (insideNative what) := by
  intro fuel
  have stepped := apply_stepWith_of_inNative (invoke (fuel + 1)) inside
  cases call with
  | load image | loadProgram program | reset =>
      cases moves
      exact ⟨.error _, apply_attempt_of_error (apply_recorded_of_inNative _ inside), rfl⟩
  | step =>
      cases moves
      exact ⟨.error _, apply_attempt_of_error stepped, rfl⟩
  | run limit =>
      cases moves
      exact ⟨.error _, apply_attempt_of_error (apply_runWith_of_stepWith stepped fuel limit), rfl⟩
  | _ => cases moves

/-! ## What natives come upon -/

theorem settled_of_script {fuel : Nat} {script : Script} {call : Call}
    (made : script.Makes (performWith (invoke fuel) fuel) machine call place) :
    Settled machine place := by
  induction made with
  | now => exact Std.Refl.refl _
  | @afterCall request _ _ _ before _ _ performed _ induction =>
      have settled := ((conduct_settled.within_perform fuel request).keeps before).related performed
      exact IsTrans.trans _ _ _ settled induction
  | @afterRegister name signature native _ _ before _ _ induction =>
      have settled : Settled before ((register name signature native).apply before).2 :=
        (Routine.within_register name signature native).apply_snd before
      exact IsTrans.trans _ _ _ settled induction

theorem Enters.settled {entry : NativeEntry} {arguments values : List Value}
    (entered : Enters entry arguments machine values inside) : Settled machine inside :=
  entered.related fun machine _ => settled_aside machine machine.collector _

/-- Whenever a native comes to make a call, the mark is what it was at the start, and so is the
place in the program when the mark is set. -/
theorem Makes.settled {fuel : Nat} {entry : NativeEntry} {arguments : List Value} {call : Call}
    (makes : Makes fuel entry arguments machine call place) : Settled machine place := by
  induction makes with
  | own entered _ made => exact IsTrans.trans _ _ _ entered.settled (settled_of_script made)
  | nested entered _ made _ _ induction =>
      have called := IsTrans.trans _ _ _ entered.settled (settled_of_script made)
      exact IsTrans.trans _ _ _ called induction

/-- An instruction leaves the place and the mark alone, and so the native that it may call. -/
theorem within_execute_inPlace (fuel : Nat) (instruction : Instruction) :
    (execute (invoke fuel) instruction).Within InPlace fun _ => True := by
  intro machine
  refine ensures_execute (fun _ _ => trivial) (fun _ _ _ => trivial) ?_ ?_
  · exact fun index _ => ensures_storeGlobal inPlace_assigned (fun _ _ => trivial) fun _ => trivial
  · intro index count key entry _ _ _
    have called := ensures_enterNative_inPlace (conduct_settled.within_invoke fuel entry
      (machine.stack.top count.toNat)) machine
    exact called.mono (fun _ _ held => ⟨held.1, trivial⟩) fun _ _ => id

theorem settled_of_serve {final : Machine} {requests : List (Nat × Request)}
    (served : serve invoke requests machine = some final) : Settled machine final := by
  induction requests generalizing machine with
  | nil =>
      cases served
      exact Std.Refl.refl _
  | cons request rest induction =>
      obtain ⟨fuel, request⟩ := request
      obtain ⟨⟨result, after⟩, ended, served⟩ := Option.bind_eq_some_iff.mp served
      exact IsTrans.trans _ _ _ (conduct_settled.related_of_served ended) (induction served)

theorem inNative_of_create {config : MachineConfig} (created : create config = .ok machine) :
    machine.inNative = false := by
  obtain ⟨stack, _, inPlace⟩ := Routine.of_create InPlace created
  exact inPlace.inNative

/-- A native called by the program cannot move the program.  Every call by which it would, made by
itself or by natives that it calls, is refused as a bad argument, and when it ends, the program, the
offset and the phase are those at its start.  An instruction and a step leave the mark as it was,
whether they succeed or fail, so that the host never finds it set, neither between its requests nor
in the natives that it calls itself. -/
theorem native_cannot_move_program :
    (∀ (machine place : Machine) fuel entry arguments call what,
      Makes fuel entry arguments { machine with inNative := true } call place →
        call.motion? = some what → place.Refuses call (insideNative what)) ∧
    (∀ (machine after : Machine) fuel entry arguments result,
      (invoke fuel entry arguments).apply { machine with inNative := true } = some (result, after) →
        after.program = machine.program ∧ after.offset = machine.offset ∧
          after.phase = machine.phase) ∧
    (∀ machine after fuel instruction result,
      (execute (invoke fuel) instruction).apply machine = some (result, after) →
        after.inNative = machine.inNative ∧ after.program = machine.program ∧
          after.offset = machine.offset ∧ after.phase = machine.phase) ∧
    (∀ machine after fuel result, (step fuel).apply machine = some (result, after) →
      after.inNative = machine.inNative) ∧
    ∀ config start requests final, create config = .ok start →
      serve invoke requests start = some final →
      ∀ place, (place = final ∨ ∃ fuel entry arguments call,
        Makes fuel entry arguments final call place) →
        place.inNative = false ∧
          ∀ what, (requireOutsideNative what).apply place = (.ok (), place) := by
  refine ⟨?_, ?_, ?_, ?_, ?_⟩
  · intro machine place fuel entry arguments call what makes moves
    exact refuses_of_inNative makes.settled.inNative moves
  · intro machine after fuel entry arguments result ended
    have settled := ((conduct_settled.within_invoke fuel entry arguments).keeps _).related ended
    exact ⟨(settled.inPlace rfl).program, (settled.inPlace rfl).offset, (settled.inPlace rfl).phase⟩
  · intro machine after fuel instruction result ended
    have inPlace := ((within_execute_inPlace fuel instruction).keeps machine).related ended
    exact ⟨inPlace.inNative, inPlace.program, inPlace.offset, inPlace.phase⟩
  · intro machine after fuel result ended
    have natives := conduct_settled.within_invoke fuel
    have settled := (conduct_settled.step trivial machine (invoke fuel) fun _ entry arguments _ =>
      natives entry arguments).related ended
    exact settled.inNative
  · intro config start requests final created served place come
    have settled : Settled final place := by
      rcases come with rfl | ⟨_, _, _, _, makes⟩
      · exact Std.Refl.refl _
      · exact makes.settled
    have outside : place.inNative = false := by
      rw [settled.inNative, (settled_of_serve served).inNative, inNative_of_create created]
    refine ⟨outside, fun what => ?_⟩
    rw [apply_requireOutsideNative, outside]
    rfl

/-- A native that runs the program. -/
def runner : Native :=
  .host fun _ => .call (.run 0) fun _ => .finish (.ok .nil)

/-- A native that resets the program and then has another one run it. -/
def meddler : Native :=
  .host fun _ => .call .reset fun _ => .call (.callNative "r" []) fun _ => .finish (.ok .nil)

/-- A program that calls the meddler. -/
def meddling : List (Nat × Request) :=
  [(0, .register "m" none meddler), (0, .register "r" none runner),
    (0, .call (.loadProgram ⟨[[109]], [Instruction.callNative 0 0, .halt].flatMap
      Instruction.encode⟩)), (3, .call (.run 0))]

/-- Whether the first thing that a native without a signature does is to run the program. -/
def runsFirst : NativeEntry → Bool
  | ⟨_, .host body, none⟩ =>
    match body [] with
    | .call (.run 0) _ => true
    | _ => false
  | _ => false

theorem makes_of_runsFirst {entry : NativeEntry} (runs : runsFirst entry = true) (fuel : Nat)
    (machine : Machine) : Makes (fuel + 1) entry [] machine (.run 0) machine := by
  unfold runsFirst at runs
  split at runs
  · rename_i name body
    split at runs
    · rename_i next script_eq
      refine .own (.plain rfl) rfl ?_
      rw [script_eq]
      exact .now
    · cases runs
  · cases runs

theorem native_cannot_move_program_by_nested_run :
    ∃ start final place, create { builtins := false } = .ok start ∧
      serve invoke meddling start = some final ∧ final.phase = .halted ∧
      Makes 2 ⟨"m", meddler, none⟩ [] { final with inNative := true } (.run 0) place ∧
      place.Refuses (.run 0) (insideNative "step") ∧ final.inNative = false := by
  have ran : ((create { builtins := false }).toOption.bind fun start =>
      (serve invoke meddling start).bind fun final =>
        (final.natives.getBytes? final.heap (Utf8.encode "r".toList)).map fun entry =>
          (runsFirst entry, final.phase)) = some (true, .halted) := by
    decide +kernel
  simp only [Option.bind_eq_some_iff, Option.map_eq_some_iff, Prod.mk.injEq] at ran
  obtain ⟨start, created, final, served, entry, found, runs, phase_eq⟩ := ran
  have created := toOption_eq_some_iff.mp created
  obtain ⟨refused, _, _, _, outside⟩ := native_cannot_move_program
  let entered : Machine := { final with inNative := true }
  let middle : Machine := entered.remember (insideNative "reset")
  have called : Script.Makes (performWith (invoke 1) 1)
      (.call .reset fun _ => .call (.callNative "r" []) fun _ => .finish (.ok .nil)) entered
      (.callNative "r" []) middle := by
    have inside : entered.inNative = true := rfl
    have moves : Call.reset.motion? = some "reset" := rfl
    obtain ⟨reply, performed, _⟩ := refuses_of_inNative inside moves 0
    exact .afterCall performed .now
  have makes : Makes 2 ⟨"m", meddler, none⟩ [] entered (.run 0) middle :=
    .nested (.plain rfl) rfl called found (makes_of_runsFirst runs 0 middle)
  exact ⟨start, final, middle, created, served, phase_eq, makes, refused _ _ _ _ _ _ _ makes rfl,
    (outside _ _ _ _ created served final (.inl rfl)).1⟩

end Machine

end StackMachine
