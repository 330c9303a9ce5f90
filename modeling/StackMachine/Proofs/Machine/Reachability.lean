import StackMachine.Machine.Create
import StackMachine.Proofs.Machine.Approximation

/-!
# Reachable machines hold live strings

The host creates a machine and makes requests of it.  Whatever the requests are, and however they
are mixed with collections and changes of the collector, every string that the machine holds is live
and has the content it was allocated with.  Natives of the host must not return strings that are
gone, which is what a run with vetted natives checks.
-/

namespace StackMachine

/-- What the host asks of a machine. -/
inductive Request where
  | call (call : Call)
  | register (name : String) (signature : Option String) (native : Native)

namespace Request

/-- Requests that register no native but an admitted one. -/
def Admitted (onlyBuiltins : Bool) : Request → Prop
  | call _ => True
  | register _ _ native => native.Admitted onlyBuiltins

/-- Answers a request, the answer being of no further interest. -/
def serve (natives : Invoker) (fuel : Nat) : Request → Action Unit
  | .call request => do
    let _ ← Machine.performWith natives fuel request
  | .register name signature native => do
    let _ ← Action.attempt (Machine.register name signature native)

end Request

namespace Machine

/-- The machine after requests that are each served with an amount of fuel of their own. -/
def serve (natives : Nat → Invoker) : List (Nat × Request) → Machine → Option Machine
  | [], machine => some machine
  | (fuel, request) :: rest, machine =>
    ((request.serve (natives fuel) fuel).apply machine).bind fun (_, after) =>
      serve natives rest after

variable {onlyBuiltins : Bool} {machine final : Machine} {natives : Nat → Invoker}

/-! ## Serving requests -/

theorem keeps_serve {invoke : Invoker} (careful : invoke.Careful onlyBuiltins) (fuel : Nat)
    {request : Request} (admitted : request.Admitted onlyBuiltins)
    (intact : machine.Intact onlyBuiltins) :
    (request.serve invoke fuel).Keeps (Follows onlyBuiltins) machine fun _ _ => True := by
  cases request with
  | call call =>
      refine (keepsIntact_performWith careful fuel machine call intact).bind fun _ _ _ _ => ?_
      exact .pure trivial
  | register name signature native =>
      refine (keeps_lift_follows (keeps_register name signature admitted)).attempt.bind
        fun _ _ _ _ => ?_
      exact .pure trivial

/-- Serving requests follows as serving each of them does. -/
theorem follows_of_serve (careful : ∀ fuel, (natives fuel).Careful onlyBuiltins)
    {requests : List (Nat × Request)}
    (admitted : ∀ request ∈ requests, request.2.Admitted onlyBuiltins)
    (served : serve natives requests machine = some final) :
    Follows onlyBuiltins machine final := by
  induction requests generalizing machine with
  | nil =>
      cases served
      exact Std.Refl.refl _
  | cons request rest induction =>
      obtain ⟨fuel, request⟩ := request
      obtain ⟨⟨result, after⟩, ended, served⟩ := Option.bind_eq_some_iff.mp served
      intro intact
      have followed : Follows onlyBuiltins machine after :=
        (keeps_serve (careful fuel) fuel (admitted _ List.mem_cons_self) intact).related ended
      have later := induction (fun request member =>
        admitted request (List.mem_cons_of_mem _ member)) served
      exact IsTrans.trans _ _ _ followed later intact

theorem serve_append (first second : List (Nat × Request)) :
    serve natives (first ++ second) machine =
      (serve natives first machine).bind (serve natives second) := by
  induction first generalizing machine with
  | nil => rfl
  | cons request rest induction =>
      obtain ⟨fuel, request⟩ := request
      simp only [List.cons_append, serve, Option.bind_assoc, induction]

theorem serve_of_approximates {natives' : Nat → Invoker}
    (close : ∀ fuel, (natives fuel).Approximates (natives' fuel)) {requests : List (Nat × Request)}
    (served : serve natives requests machine = some final) :
    serve natives' requests machine = some final := by
  induction requests generalizing machine with
  | nil => exact served
  | cons request rest induction =>
      obtain ⟨fuel, request⟩ := request
      obtain ⟨⟨result, after⟩, ended, served⟩ := Option.bind_eq_some_iff.mp served
      have request_close : (request.serve (natives fuel) fuel).Approximates
          (request.serve (natives' fuel) fuel) := by
        cases request with
        | call call => exact (performWith_approximates (close fuel) fuel call).bind fun _ => .refl _
        | register name signature native => exact .refl _
      exact Option.bind_eq_some_iff.mpr
        ⟨(result, after), request_close machine _ ended, induction served⟩

theorem serve_invoke_of_serve_vetted {requests : List (Nat × Request)}
    (served : serve vetted requests machine = some final) :
    serve invoke requests machine = some final :=
  serve_of_approximates vetted_approximates_invoke served

/-! ## Creation -/

theorem keeps_registerBuiltins (builtins : List (String × Option String × Builtin)) :
    (registerBuiltins builtins).Keeps (Extends onlyBuiltins) machine fun _ _ => True := by
  induction builtins generalizing machine with
  | nil => exact .pure trivial
  | cons builtin rest induction =>
      obtain ⟨name, signature, builtin⟩ := builtin
      have admitted : (Native.builtin builtin).Admitted onlyBuiltins := trivial
      exact (keeps_register name signature admitted).bind fun _ _ _ _ => induction

/-- A machine that holds no string at all. -/
theorem intact_of_empty (heap_eq : machine.heap = {}) (stack_eq : machine.stack.toList = [])
    (globals_eq : machine.globals = {}) (natives_eq : machine.natives = {})
    (program_eq : machine.program = {}) : machine.Intact onlyBuiltins where
  hashed := by rw [heap_eq]; exact StringHeap.hashed_empty
  stack := by simp [stack_eq]
  globals_balanced := by rw [globals_eq]; exact ContentMap.balanced_empty
  globals_sound := by rw [globals_eq]; exact ContentMap.sound_empty _
  globals_live := by simp [globals_eq, ContentMap.entries]
  natives_balanced := by rw [natives_eq]; exact ContentMap.balanced_empty
  natives_sound := by rw [natives_eq]; exact ContentMap.sound_empty _
  natives_admitted := by simp [natives_eq, ContentMap.entries]
  constants := by simp [program_eq]

theorem intact_of_create {config : MachineConfig} (created : create config = .ok machine) :
    machine.Intact onlyBuiltins ∧ ∃ log, StringHeap.Evolves {} log machine.heap := by
  obtain ⟨stack, made, created⟩ := bind_eq_ok_iff.mp created
  let builtins := if config.builtins then Builtin.table else []
  let bare : Machine := {
    stack
    collector := Collector.ofConfig config.collector
    sink := config.sink
    sharesConstants := config.sharesConstants }
  have bare_intact : bare.Intact onlyBuiltins :=
    intact_of_empty rfl (OperandStack.toList_of_create made) rfl rfl rfl
  have extended : Extends onlyBuiltins bare ((registerBuiltins builtins).apply bare).2 :=
    (keeps_registerBuiltins builtins).related
  obtain ⟨intact, evolves, _⟩ := extended bare_intact
  obtain ⟨_, _, finished⟩ := bind_eq_ok_iff.mp created
  cases finished
  exact ⟨intact, evolves⟩

/-! ## Reachable machines -/

/-- On either side of any point, a run frees no string that is held, whether its natives are the
builtins or pass the vetting. -/
theorem exists_follows {start middle : Machine} {before after : List (Nat × Request)}
    (early : serve invoke before start = some middle)
    (late : serve invoke after middle = some final)
    (careful : (∀ request ∈ before ++ after, request.2.Admitted true) ∨
      (serve vetted (before ++ after) start).isSome) :
    ∃ onlyBuiltins, Follows onlyBuiltins start middle ∧ Follows onlyBuiltins middle final := by
  rcases careful with admitted | passed
  · have early_admitted := fun request member => admitted request (List.mem_append_left _ member)
    have late_admitted := fun request member => admitted request (List.mem_append_right _ member)
    exact ⟨true, follows_of_serve careful_invoke early_admitted early,
      follows_of_serve careful_invoke late_admitted late⟩
  · have admitted (requests : List (Nat × Request)) :
        ∀ request ∈ requests, request.2.Admitted false := by
      rintro ⟨_, _ | ⟨_, _, native⟩⟩ _
      · trivial
      · cases native <;> trivial
    obtain ⟨ended, passed⟩ := Option.isSome_iff_exists.mp passed
    rw [serve_append] at passed
    obtain ⟨reached, passed_early, passed_late⟩ := Option.bind_eq_some_iff.mp passed
    cases early.symm.trans (serve_invoke_of_serve_vetted passed_early)
    cases late.symm.trans (serve_invoke_of_serve_vetted passed_late)
    exact ⟨false, follows_of_serve careful_vetted (admitted before) passed_early,
      follows_of_serve careful_vetted (admitted after) passed_late⟩

/-- After any requests to a new machine, every string that the machine holds is live with the
content it was allocated with: the one in the log of all allocations, and the one it had at any
earlier point of the run by which it was allocated. -/
theorem held_live_with_allocated_content {config : MachineConfig} {start middle final : Machine}
    {before after : List (Nat × Request)} (created : create config = .ok start)
    (early : serve invoke before start = some middle)
    (late : serve invoke after middle = some final)
    (careful : (∀ request ∈ before ++ after, request.2.Admitted true) ∨
      (serve vetted (before ++ after) start).isSome) :
    ∃ log, StringHeap.Evolves {} log final.heap ∧
      ∀ ref ∈ final.held, ∃ bytes, final.heap.bytes? ref = some bytes ∧
        log[ref.id]? = some bytes ∧
        (ref.id < middle.heap.strings.next → middle.heap.bytes? ref = some bytes) := by
  obtain ⟨onlyBuiltins, to_middle, to_final⟩ := exists_follows early late careful
  obtain ⟨start_intact, first, created_evolves⟩ := intact_of_create created
  obtain ⟨middle_intact, second, early_evolves⟩ := to_middle start_intact
  obtain ⟨final_intact, third, late_evolves⟩ := to_final middle_intact
  have evolves := (created_evolves.trans early_evolves).trans late_evolves
  refine ⟨first ++ second ++ third, evolves, fun ref member => ?_⟩
  obtain ⟨bytes, live⟩ := final_intact.live_of_mem_held member
  exact ⟨bytes, live, evolves.content_eq live, late_evolves.bytes?_of_lt live⟩

/-- A native that collects before it returns its first argument. -/
def collectingIdentity : Native :=
  .host fun arguments => .call .collect fun _ => .finish (.ok (arguments.headD .nil))

/-- Registers a native, and sets a global to a string. -/
def preparation : List (Nat × Request) :=
  [(0, .register "f" none collectingIdentity), (0, .call (.newString [97])),
    (0, .call (.setGlobal "g" (.string ⟨1⟩)))]

/-- Runs a program that joins two strings, passes the result through the native and stores it. -/
def execution : List (Nat × Request) :=
  [(0, .call (.loadProgram ⟨[[102]], [Instruction.pushString 0, .pushString 0, .add,
      .callNative 0 1, .storeGlobal 0, .halt].flatMap Instruction.encode⟩)),
    (9, .call (.run 0)), (0, .call .collect)]

theorem held_live_across_collection_in_native :
    ∃ start middle final, create { builtins := false } = .ok start ∧
      serve invoke preparation start = some middle ∧ serve invoke execution middle = some final ∧
      (serve vetted (preparation ++ execution) start).isSome ∧
      final.held = [⟨3⟩, ⟨4⟩, ⟨2⟩, ⟨1⟩, ⟨0⟩, ⟨3⟩] ∧
      ∃ log, StringHeap.Evolves {} log final.heap ∧
        ∀ ref ∈ final.held, ∃ bytes, final.heap.bytes? ref = some bytes ∧
          log[ref.id]? = some bytes ∧
          (ref.id < middle.heap.strings.next → middle.heap.bytes? ref = some bytes) := by
  have ran : ((create { builtins := false }).toOption.bind fun start =>
      (serve vetted (preparation ++ execution) start).bind fun _ =>
        (serve invoke preparation start).bind fun middle =>
          (serve invoke execution middle).map Machine.held) =
      some [⟨3⟩, ⟨4⟩, ⟨2⟩, ⟨1⟩, ⟨0⟩, ⟨3⟩] := by
    decide +kernel
  simp only [Option.bind_eq_some_iff, Option.map_eq_some_iff] at ran
  obtain ⟨start, created, ended, passed, middle, early, final, late, held_eq⟩ := ran
  have created : create { builtins := false } = .ok start := by
    cases outcome : create { builtins := false } with
    | error error =>
        rw [outcome] at created
        cases created
    | ok machine =>
        rw [outcome] at created
        cases created
        rfl
  have vetting_passed := Option.isSome_iff_exists.mpr ⟨ended, passed⟩
  exact ⟨start, middle, final, created, early, late, vetting_passed, held_eq,
    held_live_with_allocated_content created early late (.inr vetting_passed)⟩

end Machine

end StackMachine
