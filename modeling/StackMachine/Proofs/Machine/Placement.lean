import StackMachine.Proofs.Image
import StackMachine.Proofs.Listing
import StackMachine.Proofs.Machine.Conduct

/-!
# Machines stand at instructions

A machine with a program stands at the start of an instruction or at the end of the code, and has a
constant for every string of the pool.  While a native called by the program is under way, the
program and the place in it do not change, so that the move after an instruction starts where the
instruction was fetched.  What the verification of a program rules out therefore never happens in a
step.
-/

namespace StackMachine

namespace Machine

/-- A machine executes a well-formed program: it has its code and its pool, and stands at an
instruction or at the end. -/
structure Runs (machine : Machine) (program : Program) : Prop where
  verified : program.verify = .ok ()
  code : machine.program.code = program.code
  constants : machine.program.constants.map machine.heap.bytes? = program.strings.map some
  placed : machine.offset ∈ program.listing.instructions.map Prod.fst ∨
    machine.offset = program.code.length

/-- A machine without a program, or one that executes a well-formed program. -/
def WellPlaced (machine : Machine) : Prop :=
  machine.phase ≠ .empty → ∃ program, machine.Runs program

variable {machine before after : Machine} {program : Program}

theorem runs_start (verified : program.verify = .ok ()) (code : machine.program.code = program.code)
    (constants : machine.program.constants.map machine.heap.bytes? = program.strings.map some)
    (start : machine.offset = 0) : machine.Runs program where
  verified := verified
  code := code
  constants := constants
  placed := by
    rw [start]
    by_cases nonempty : program.code = []
    · exact .inr (by rw [nonempty]; rfl)
    · exact .inl (Listing.start_mem_decodeFrom nonempty (Program.verify_eq_ok_iff.mp verified).1)

namespace Runs

/-- A machine keeps executing its program as long as the constants keep their contents. -/
theorem carried (runs : before.Runs program) (program_eq : after.program = before.program)
    (offset_eq : after.offset = before.offset)
    (kept : ∀ ref ∈ before.program.constants, ∀ bytes,
      before.heap.bytes? ref = some bytes → after.heap.bytes? ref = some bytes) :
    after.Runs program where
  verified := runs.verified
  code := by rw [program_eq, runs.code]
  constants := by
    rw [program_eq, ← runs.constants]
    refine List.map_congr_left fun ref member => ?_
    have content : before.heap.bytes? ref ∈ program.strings.map some :=
      runs.constants ▸ List.mem_map_of_mem member
    obtain ⟨bytes, _, content⟩ := List.mem_map.mp content
    rw [← content, kept ref member bytes content.symm]
  placed := by rw [offset_eq]; exact runs.placed

theorem moved (runs : machine.Runs program) {offset : Nat}
    (placed : offset ∈ program.listing.instructions.map Prod.fst ∨
      offset = program.code.length) : { machine with offset }.Runs program :=
  ⟨runs.verified, runs.code, runs.constants, placed⟩

theorem length_constants (runs : machine.Runs program) :
    machine.program.constants.length = program.strings.length := by
  simpa using congrArg List.length runs.constants

/-- The instruction that a machine stands at is one of its program. -/
theorem fetch_cases (runs : machine.Runs program) :
    (∃ instruction, machine.fetch = .ok instruction ∧
      (machine.offset, instruction) ∈ program.listing.instructions) ∨
      machine.fetch = .error (.codeOverrun machine.offset) ∧
        machine.offset = machine.program.code.length := by
  rcases runs.placed with start | finish
  · obtain ⟨⟨offset, instruction⟩, listed, offset_eq⟩ := List.mem_map.mp start
    have decoded : Instruction.decodeAt machine.program.code machine.offset = .ok instruction := by
      rw [runs.code, ← offset_eq]
      exact Listing.decodeAt_of_mem_decodeFrom rfl listed
    have inside : ¬machine.program.code.length ≤ machine.offset := by
      intro past
      rw [Instruction.decodeAt, List.drop_of_length_le past] at decoded
      cases decoded
    exact .inl ⟨instruction, by rw [fetch, if_neg inside, decoded], offset_eq ▸ listed⟩
  · have overrun : machine.offset = machine.program.code.length := by rw [finish, runs.code]
    refine .inr ⟨?_, overrun⟩
    rw [fetch, if_pos overrun.ge]

theorem listed_of_fetch (runs : machine.Runs program) {instruction : Instruction}
    (fetched : machine.fetch = .ok instruction) :
    (machine.offset, instruction) ∈ program.listing.instructions := by
  rcases runs.fetch_cases with ⟨found, found_eq, listed⟩ | ⟨overrun, _⟩
  · cases fetched.symm.trans found_eq
    exact listed
  · cases fetched.symm.trans overrun

/-- The constants of the instructions are there. -/
theorem ne_none_of_listed (runs : machine.Runs program) {entry : Nat × Instruction} {index : UInt32}
    (listed : entry ∈ program.listing.instructions) (uses : entry.2.poolIndex? = some index) :
    machine.program.constants[index.toNat]? ≠ none := by
  have inside := (Program.verify_eq_ok_iff.mp runs.verified).2.1 entry listed index uses
  rw [← runs.length_constants] at inside
  simp [inside]

/-- Wherever execution goes on after an instruction, there is an instruction or the end. -/
theorem moved_of_listed (runs : machine.Runs program) {instruction : Instruction} {flow : Flow}
    (listed : (machine.offset, instruction) ∈ program.listing.instructions)
    (target : ∀ target, flow = .jump target → instruction.jumpTarget? = some target) :
    (Machine.moved machine.offset instruction.encodedLength machine flow).2.Runs program := by
  obtain ⟨whole, _, jumps⟩ := Program.verify_eq_ok_iff.mp runs.verified
  cases flow with
  | next =>
      have following := Listing.following_mem_decodeFrom whole listed
      rw [Nat.zero_add] at following
      exact runs.moved following
  | jump found => exact runs.moved (.inl (jumps _ listed found (target found rfl)))
  | halt => exact ⟨runs.verified, runs.code, runs.constants, runs.placed⟩

end Runs

/-! ## Staying in place -/

/-- The program and the place in it are as before. -/
structure InPlace (before after : Machine) : Prop where
  program : after.program = before.program
  offset : after.offset = before.offset
  phase : after.phase = before.phase
  inNative : after.inNative = before.inNative
  runs : ∀ program, before.Runs program → after.Runs program

/-- A change after which the machine is still well placed, and which leaves the place alone inside
natives called by the program. -/
structure Settled (before after : Machine) : Prop where
  inNative : after.inNative = before.inNative
  inPlace : before.inNative = true → InPlace before after
  wellPlaced : before.WellPlaced → after.WellPlaced

/-- Changes of the heap that spare the constants, and of parts that do not matter. -/
theorem inPlace_of_kept (program : after.program = before.program)
    (offset : after.offset = before.offset) (phase : after.phase = before.phase)
    (inNative : after.inNative = before.inNative)
    (kept : ∀ ref ∈ before.program.constants, ∀ bytes,
      before.heap.bytes? ref = some bytes → after.heap.bytes? ref = some bytes) :
    InPlace before after :=
  ⟨program, offset, phase, inNative, fun _ runs => runs.carried program offset kept⟩

theorem InPlace.settled (inPlace : InPlace before after) : Settled before after where
  inNative := inPlace.inNative
  inPlace _ := inPlace
  wellPlaced placed := by
    intro loaded
    rw [inPlace.phase] at loaded
    obtain ⟨program, runs⟩ := placed loaded
    exact ⟨program, inPlace.runs program runs⟩

instance : Routine InPlace where
  refl _ := ⟨rfl, rfl, rfl, rfl, fun _ => id⟩
  trans _ _ _ early late :=
    ⟨late.program.trans early.program, late.offset.trans early.offset,
      late.phase.trans early.phase, late.inNative.trans early.inNative,
      fun program runs => late.runs program (early.runs program runs)⟩
  stack _ _ _ := inPlace_of_kept rfl rfl rfl rfl fun _ _ _ => id
  natives _ _ := inPlace_of_kept rfl rfl rfl rfl fun _ _ _ => id
  sink _ _ := inPlace_of_kept rfl rfl rfl rfl fun _ _ _ => id
  pool _ _ := inPlace_of_kept rfl rfl rfl rfl fun _ _ _ => id
  lastError _ _ := inPlace_of_kept rfl rfl rfl rfl fun _ _ _ => id
  stored machine bytes := inPlace_of_kept rfl rfl rfl rfl fun ref _ =>
    machine.heap.preserves_store bytes ref

instance : Routine Settled where
  refl machine := (Std.Refl.refl machine : InPlace machine machine).settled
  trans _ _ _ early late :=
    { inNative := late.inNative.trans early.inNative
      inPlace := fun inside => IsTrans.trans _ _ _ (early.inPlace inside)
        (late.inPlace (early.inNative.trans inside))
      wellPlaced := fun placed => late.wellPlaced (early.wellPlaced placed) }
  stack machine stack becomes := (Routine.stack machine stack becomes : InPlace _ _).settled
  natives machine natives := (Routine.natives machine natives : InPlace _ _).settled
  sink machine bytes := (Modest.sink machine bytes : InPlace _ _).settled
  pool machine pool := (Routine.pool machine pool : InPlace _ _).settled
  lastError machine lastError := (Modest.lastError machine lastError : InPlace _ _).settled
  stored machine bytes := (Modest.stored machine bytes : InPlace _ _).settled

theorem inPlace_assigned (machine : Machine) (globals : ContentMap Value) :
    InPlace machine { machine with globals } :=
  inPlace_of_kept rfl rfl rfl rfl fun _ _ _ => id

/-- A change outside natives after which the same program is executed, or another. -/
theorem settled_of_runs (outside : before.inNative = false) (still : after.inNative = false)
    (runs : before.WellPlaced → after.WellPlaced) : Settled before after where
  inNative := by rw [outside, still]
  inPlace inside := by
    rw [outside] at inside
    cases inside
  wellPlaced := runs

theorem inPlace_collect (machine : Machine) : InPlace machine machine.collect.2 := by
  refine inPlace_of_kept rfl rfl rfl rfl fun ref constant bytes content => ?_
  have root := mem_roots_of_mem_held (mem_held_iff.mpr (.inr (.inr (.inr constant))))
  exact (Collector.bytes?_collect machine.heap root).trans content

theorem inPlace_swept (machine : Machine) : InPlace machine machine.swept :=
  swept_elim (Std.Refl.refl machine) (inPlace_collect machine)

/-! ## Steps -/

/-- The step of a machine is a call of a native, and the native fails. -/
def FailsInNative (machine : Machine) (invoke : Invoker) (error : MachineError) : Prop :=
  ∃ index count key entry after,
    machine.fetch = .ok (.callNative index count) ∧
    machine.program.constants[index.toNat]? = some key ∧
    machine.swept.natives.get? machine.swept.heap key = some entry ∧
    (invoke entry (machine.swept.stack.top count.toNat)).apply
      { machine.swept with inNative := true } = some (.error error, after)

/-- The failures that a step of a well-formed program may have. -/
def Excuses (machine : Machine) (invoke : Invoker) (error : MachineError) : Prop :=
  error.IsOrdinary ∨
    error = .codeOverrun machine.offset ∧ machine.offset = machine.program.code.length ∨
    machine.FailsInNative invoke error

/-- A native called by the program leaves the place alone. -/
theorem ensures_enterNative_inPlace {invoke : Invoker} {entry : NativeEntry}
    {arguments : List Value}
    (within : (invoke entry arguments).Within Settled fun _ => True) (machine : Machine) :
    (enterNative invoke entry arguments machine.inNative).Ensures machine
      (fun error after => InPlace machine after ∧
        ∃ last, (invoke entry arguments).apply { machine with inNative := true } =
          some (.error error, last))
      fun _ after => InPlace machine after := by
  refine ensures_enterNative ?_
  rintro ⟨result, last⟩ ended
  have settled : Settled { machine with inNative := true } last := (within.keeps _).related ended
  have inPlace : InPlace machine { last with inNative := machine.inNative } :=
    ⟨(settled.inPlace rfl).program, (settled.inPlace rfl).offset, (settled.inPlace rfl).phase, rfl,
      fun program runs =>
        have entered : { machine with inNative := true }.Runs program :=
          ⟨runs.verified, runs.code, runs.constants, runs.placed⟩
        have left := (settled.inPlace rfl).runs program entered
        ⟨left.verified, left.code, left.constants, left.placed⟩⟩
  cases result with
  | error error => exact ⟨inPlace, last, ended⟩
  | ok value => exact inPlace

/-- An instruction leaves the place alone, whatever the native does that it may call. -/
theorem ensures_execute_inPlace {invoke : Invoker} {instruction : Instruction}
    (natives : ∀ key entry arguments,
      machine.swept.natives.get? machine.swept.heap key = some entry →
        (invoke entry arguments).Within Settled fun _ => True)
    (fetched : machine.fetch = .ok instruction) (loaded : machine.phase ≠ .empty) :
    (execute invoke instruction).Ensures machine.swept
      (fun error after => InPlace machine.swept after ∧
        (machine.WellPlaced → machine.Excuses invoke error))
      fun _ after => InPlace machine.swept after := by
  have swept := inPlace_swept machine
  have ordinary (error : MachineError) (ordinary : error.IsOrdinary) :
      machine.WellPlaced → machine.Excuses invoke error :=
    fun _ => .inl ordinary
  have missing (index : UInt32) (uses : instruction.poolIndex? = some index)
      (absent : machine.swept.program.constants[index.toNat]? = none) (error : MachineError) :
      machine.WellPlaced → machine.Excuses invoke error := by
    intro placed
    obtain ⟨program, runs⟩ := placed loaded
    exact absurd absent ((swept.runs _ runs).ne_none_of_listed (runs.listed_of_fetch fetched) uses)
  refine ensures_execute ordinary (fun index uses absent => missing index uses absent _) ?_ ?_
  · rintro index rfl
    exact ensures_storeGlobal inPlace_assigned ordinary fun absent => missing index rfl absent _
  · intro index count key entry call constant found
    subst call
    rw [swept.program] at constant
    refine (ensures_enterNative_inPlace (natives key entry _ found) machine.swept).mono ?_
      fun _ _ => id
    rintro error after ⟨inPlace, last, failed⟩
    exact ⟨inPlace, fun _ => .inr (.inr ⟨index, count, key, entry, last, fetched, constant, found,
      failed⟩)⟩

/-- A step leaves the machine well placed, and fails in none of the ways that the verification of
the program rules out. -/
theorem ensures_stepWith_settled {invoke : Invoker}
    (natives : ∀ key entry arguments,
      machine.swept.natives.get? machine.swept.heap key = some entry →
        (invoke entry arguments).Within Settled fun _ => True) :
    (stepWith invoke).Ensures machine
      (fun error after => Settled machine after ∧
        (machine.WellPlaced → machine.Excuses invoke error))
      fun _ after => Settled machine after := by
  have swept := inPlace_swept machine
  have fetch_eq : machine.swept.fetch = machine.fetch := by
    rw [fetch, fetch, swept.program, swept.offset]
  have remembered (error : MachineError) : Settled machine (machine.remember error) :=
    Modest.lastError machine _
  refine ensures_stepWith ?_ ?_ ?_ ?_ fun outside ready => ?_
  · exact fun error _ ordinary => ⟨remembered error, fun _ => .inl ordinary⟩
  · exact fun _ => Std.Refl.refl machine
  · exact fun _ => ⟨Std.Refl.refl machine, fun _ => .inl trivial⟩
  · exact fun error _ ordinary => ⟨remembered error, fun _ => .inl ordinary⟩
  have loaded : machine.phase ≠ .empty := by
    rw [ready]
    decide
  have carried {after last : Machine} (inPlace : InPlace machine.swept after)
      (inNative_eq : last.inNative = after.inNative)
      (runs_of : ∀ program, machine.Runs program → after.Runs program → last.Runs program) :
      Settled machine last := by
    have still : after.inNative = false := (inPlace.inNative.trans swept.inNative).trans outside
    refine settled_of_runs outside (inNative_eq.trans still) fun placed _ => ?_
    obtain ⟨program, runs⟩ := placed loaded
    exact ⟨program, runs_of program runs (inPlace.runs _ (swept.runs _ runs))⟩
  have faulted {after : Machine} (inPlace : InPlace machine.swept after) (error : MachineError) :
      Settled machine (({ after with phase := .faulted } : Machine).remember error) :=
    carried inPlace rfl fun _ _ runs => runs.carried rfl rfl fun _ _ _ => id
  refine ensures_executeNext (fun error unfetched => ?_) fun instruction fetched => ?_
  · refine ⟨faulted (Std.Refl.refl _) error, fun placed => ?_⟩
    obtain ⟨program, runs⟩ := placed loaded
    rw [fetch_eq] at unfetched
    rcases runs.fetch_cases with ⟨instruction, fetched, _⟩ | ⟨overrun, finish⟩
    · cases fetched.symm.trans unfetched
    · cases overrun.symm.trans unfetched
      exact .inr (.inl ⟨rfl, finish⟩)
  · rw [fetch_eq] at fetched
    have executed := ensures_execute_inPlace natives fetched loaded
    refine (executed.and (ensures_execute_target invoke instruction _)).mono
      (fun error after held => ⟨faulted held.1.1 error, held.1.2⟩) ?_
    rintro flow after ⟨inPlace, target⟩
    refine carried inPlace (by cases flow <;> rfl) fun program runs runs_after => ?_
    have offset_eq : after.offset = machine.offset := inPlace.offset.trans swept.offset
    have landed := runs_after.moved_of_listed (offset_eq ▸ runs.listed_of_fetch fetched) target
    rwa [inPlace.offset] at landed

/-! ## Programs -/

/-- The heap grows, and the place stays the same. -/
structure Stocked (before after : Machine) : Prop extends InPlace before after where
  preserved : before.heap.Preserves after.heap

instance : Std.Refl Stocked where
  refl machine := ⟨Std.Refl.refl machine, .refl _⟩

instance : IsTrans Machine Stocked where
  trans _ _ _ early late :=
    ⟨IsTrans.trans _ _ _ early.toInPlace late.toInPlace, early.preserved.trans late.preserved⟩

theorem stocked_of_preserves {heap : StringHeap} (pool : StringPool) (collector : Collector)
    (preserved : machine.heap.Preserves heap) :
    Stocked machine { machine with heap, pool, collector } :=
  ⟨inPlace_of_kept rfl rfl rfl rfl fun ref _ => preserved ref, preserved⟩

theorem keeps_addConstant_stocked (bytes : List UInt8) :
    (addConstant bytes).Keeps Stocked machine fun ref after =>
      after.heap.bytes? ref = some bytes := by
  refine .get_bind ?_
  cases machine.sharesConstants with
  | true =>
      refine .get_bind ((Update.Keeps.ofStorage _).bind fun interned after _ found => ?_)
      obtain ⟨done, rfl⟩ := found
      obtain ⟨content, heap_cases⟩ := StringPool.intern_eq_ok done
      have preserved : after.heap.Preserves interned.heap := by
        rcases heap_cases with same | stored
        · exact same ▸ .refl _
        · exact stored ▸ after.heap.preserves_store bytes
      refine (Update.Keeps.set (stocked_of_preserves _ _ preserved)).bind fun _ last _ changed => ?_
      subst changed
      exact .pure content
  | false =>
      refine (Update.Keeps.ofStorage _).bind fun _ after _ same => ?_
      obtain ⟨_, rfl⟩ := same
      have stocked := stocked_of_preserves after.pool
        (after.collector.trackBorrowed after.heap.nextRef after.heap.nextSlot).2
          (after.heap.preserves_store bytes)
      refine (Update.Keeps.modifyGet stocked).mono fun ref last _ stored => ?_
      cases stored
      rw [StringHeap.bytes?_store, if_pos rfl]

theorem keeps_addConstants_stocked (contents : List (List UInt8)) :
    (addConstants contents).Keeps Stocked machine fun refs after =>
      refs.map after.heap.bytes? = contents.map some := by
  induction contents generalizing machine with
  | nil => exact .pure rfl
  | cons bytes rest induction =>
      refine (keeps_addConstant_stocked bytes).bind fun ref middle _ content => ?_
      refine induction.bind fun refs last stocked contents => ?_
      refine .pure ?_
      rw [List.map_cons, List.map_cons, contents, stocked.preserved ref bytes content]

/-- A program that is installed is executed from its start. -/
theorem keeps_install_runs (verified : program.verify = .ok ())
    (outside : machine.inNative = false) :
    (install program).Keeps Settled machine fun _ after => after.Runs program := by
  have added : (addConstants program.strings).Ensures machine
      (fun _ after => Settled machine after) fun refs after =>
        after.inNative = false ∧ refs.map after.heap.bytes? = program.strings.map some :=
    Update.Ensures.mono (keeps_addConstants_stocked program.strings)
      (fun _ _ stocked => stocked.toInPlace.settled)
      fun _ _ held => ⟨held.1.inNative.trans outside, held.2⟩
  refine added.bind fun refs after held => ?_
  obtain ⟨still, contents⟩ := held
  let last : Machine := { after with
    program := ⟨program.code, refs⟩
    collector := releaseConstants after.collector after.program.constants refs
    stack := after.stack.clear
    offset := 0
    phase := .ready }
  have runs : last.Runs program := runs_start verified rfl contents rfl
  exact ⟨settled_of_runs outside still fun _ _ => ⟨program, runs⟩, runs⟩

/-- A program is installed outside natives only, and when it is well formed. -/
theorem keeps_installing {α : Type} (what : String) {checked : Except MachineError α}
    {choice : α → Program} (verified : ∀ value, checked = .ok value →
      (choice value).verify = .ok ()) :
    (Update.recorded do
      requireOutsideNative what
      let value ← Update.ofExcept checked
      install (choice value)).Keeps Settled machine fun _ after =>
        ∃ value, checked = .ok value ∧ after.Runs (choice value) := by
  refine Update.Keeps.recorded ?_ fun _ error => Modest.remember error
  have same : Settled machine machine := Std.Refl.refl machine
  refine (ensures_requireOutsideNative what fun _ _ _ => same).bind fun _ after held => ?_
  obtain ⟨rfl, outside⟩ := held
  refine .ofExcept_bind (fun _ _ => same) fun value read => ?_
  exact (keeps_install_runs (verified value read) outside).mono fun _ _ _ runs =>
    ⟨value, read, runs⟩

theorem keeps_load_runs (image : List UInt8) :
    (load image).Keeps Settled machine fun _ after =>
      ∃ program, Program.load image = .ok program ∧ after.Runs program := by
  refine (keeps_installing _ fun program read => ?_).mono fun _ after _ installed => ?_
  · exact (Program.load_eq_ok_iff.mp (mapError_eq_ok_iff.mp read)).2
  · obtain ⟨program, read, runs⟩ := installed
    exact ⟨program, mapError_eq_ok_iff.mp read, runs⟩

theorem keeps_loadProgram_runs (program : Program) :
    (loadProgram program).Keeps Settled machine fun _ after => after.Runs program := by
  refine (keeps_installing _ fun _ checked => mapError_eq_ok_iff.mp checked).mono
    fun _ after _ installed => ?_
  obtain ⟨_, _, runs⟩ := installed
  exact runs

theorem within_reset_settled : reset.Within Settled fun _ => True := by
  refine Modest.within_recorded fun machine => ?_
  have same : Settled machine machine := Std.Refl.refl machine
  refine (ensures_requireOutsideNative _ fun _ _ _ => ⟨same, trivial⟩).bind fun _ after held => ?_
  obtain ⟨rfl, outside⟩ := held
  refine settled_of_runs outside outside fun placed loaded => ?_
  have loaded : after.phase ≠ .empty := fun empty => loaded (if_pos empty)
  obtain ⟨program, runs⟩ := placed loaded
  exact ⟨program, runs_start runs.verified runs.code runs.constants rfl⟩

/-- The collector and the scratch area are of no account. -/
theorem inPlace_aside (machine : Machine) (collector : Collector) (scratch : List Value) :
    InPlace machine { machine with collector, scratch } :=
  inPlace_of_kept rfl rfl rfl rfl fun _ _ _ => id

theorem settled_aside (machine : Machine) (collector : Collector) (scratch : List Value) :
    Settled machine { machine with collector, scratch } :=
  (inPlace_aside machine collector scratch).settled

theorem conduct_settled : Conduct (fun _ => True) Settled where
  assigned _ machine globals := (inPlace_assigned machine globals).settled
  load image _ := .of_keeps fun _ => keeps_load_runs image
  loadProgram program _ := .of_keeps fun _ => keeps_loadProgram_runs program
  reset _ := within_reset_settled
  collect machine := (inPlace_collect machine).settled
  setMode machine _ _ := settled_aside machine _ machine.scratch
  setThreshold machine _ := settled_aside machine _ machine.scratch
  runs := id
  step _ machine invoke natives :=
    (ensures_stepWith_settled natives).mono (fun _ _ held => held.1) fun _ _ held => ⟨held, trivial⟩
  refused {_ before} converted :=
    IsTrans.trans _ _ _ converted (settled_aside before before.collector _)
  returned {_ before after} arguments converted ran := by
    have started := settled_aside before before.collector (before.scratch ++ arguments)
    have ended := settled_aside after after.collector
    exact IsTrans.trans _ _ _ converted (IsTrans.trans _ _ _ started
      (IsTrans.trans _ _ _ ran (ended _)))

/-! ## Reachable machines -/

/-- Machines that the host or a native may come upon: new ones, those that have served a request,
and those that a native is entered with, inside the program or not, its converted arguments being in
the scratch area. -/
inductive Reached : Machine → Prop
  | created {config : MachineConfig} {machine : Machine} (created : create config = .ok machine) :
      Reached machine
  | served {machine after : Machine} {fuel : Nat} {request : Request}
      {result : Except MachineError Unit} (reached : Reached machine)
      (served : (request.serve (invoke fuel) fuel).apply machine = some (result, after)) :
      Reached after
  | entered {machine : Machine} (inside : Bool) (arguments : List Value)
    (reached : Reached machine) :
      Reached { machine with
        inNative := inside || machine.inNative
        scratch := machine.scratch ++ arguments }

theorem wellPlaced_of_create {config : MachineConfig} (created : create config = .ok machine) :
    machine.WellPlaced := by
  obtain ⟨stack, _, inPlace⟩ := Routine.of_create InPlace created
  intro loaded
  exact absurd inPlace.phase loaded

theorem Reached.wellPlaced (reached : Reached machine) : machine.WellPlaced := by
  induction reached with
  | created created => exact wellPlaced_of_create created
  | @served before after fuel request result reached served induction =>
      exact (conduct_settled.related_of_served served).wellPlaced induction
  | entered inside arguments reached induction =>
      intro loaded
      obtain ⟨program, runs⟩ := induction loaded
      exact ⟨program, runs.carried rfl rfl fun _ _ _ => id⟩

theorem Reached.of_serve {requests : List (Nat × Request)} (reached : Reached machine)
    (served : serve invoke requests machine = some after) : Reached after := by
  induction requests generalizing machine with
  | nil =>
      cases served
      exact reached
  | cons request rest induction =>
      obtain ⟨fuel, request⟩ := request
      obtain ⟨⟨result, middle⟩, ended, served⟩ := Option.bind_eq_some_iff.mp served
      exact induction (reached.served ended) served

/-- Wherever a machine comes, it stands at an instruction of its program or at the end, with a
constant for every string of the pool, which is the case of a program as soon as it is loaded.  A
step never fails in decoding, nor past the end unless the machine stands there, except that a native
may fail in any way. -/
theorem reached_runs_and_step_decodes (reached : Reached machine) :
    (machine.phase ≠ .empty → ∃ program, machine.Runs program) ∧
      (∀ image after, (load image).apply machine = (.ok (), after) →
        ∃ program, Program.load image = .ok program ∧ after.Runs program) ∧
      (∀ program after, (loadProgram program).apply machine = (.ok (), after) →
        after.Runs program) ∧
      ∀ fuel error after, (step fuel).apply machine = some (.error error, after) →
        machine.FailsInNative (invoke fuel) error ∨
          (∀ byte offset, error ≠ .runtime (.unknownOpcode byte offset)) ∧
            (∀ reason, error ≠ .badBytecode reason) ∧
            ∀ offset, error = .codeOverrun offset →
              offset = machine.offset ∧ machine.offset = machine.program.code.length := by
  refine ⟨reached.wellPlaced, fun image after loaded => ?_, fun program after loaded => ?_,
    fun fuel error after failed => ?_⟩
  · have kept : (load image).Keeps Settled machine _ := keeps_load_runs image
    rw [Update.Keeps, Update.Ensures, loaded] at kept
    exact kept.2
  · have kept : (loadProgram program).Keeps Settled machine _ := keeps_loadProgram_runs program
    rw [Update.Keeps, Update.Ensures, loaded] at kept
    exact kept.2
  have within := conduct_settled.within_invoke fuel
  have excused : machine.Excuses (invoke fuel) error :=
    (ensures_stepWith_settled (fun _ entry arguments _ => within entry arguments) _ failed).2
      reached.wellPlaced
  rcases excused with ordinary | ⟨rfl, finish⟩ | native
  · refine .inr ⟨?_, ?_, ?_⟩
    · rintro byte offset rfl
      exact ordinary
    · rintro reason rfl
      exact ordinary
    · rintro offset rfl
      exact ordinary.elim
  · refine .inr ⟨?_, ?_, ?_⟩
    · rintro byte offset ⟨⟩
    · rintro reason ⟨⟩
    · rintro offset ⟨⟩
      exact ⟨rfl, finish⟩
  · exact .inl native

/-- A program that ends without halting, after its only instruction. -/
def unfinished : List (Nat × Request) :=
  [(0, .call (.loadProgram ⟨[[102]], (Instruction.pushString 0).encode⟩)), (0, .call .step)]

theorem step_decodes_at_end_of_code :
    ∃ machine after, Reached machine ∧ machine.phase = .ready ∧
      (step 0).apply machine = some (.error (.codeOverrun 5), after) ∧
      (∃ program, machine.Runs program) ∧
      (machine.FailsInNative (invoke 0) (.codeOverrun 5) ∨
        machine.offset = machine.program.code.length) := by
  have ran : ((create { builtins := false }).toOption.bind fun start =>
      (serve invoke unfinished start).bind fun machine =>
        ((step 0).apply machine).map fun outcome =>
          (outcome.1.map fun _ => (), machine.phase)) =
      some (.error (.codeOverrun 5), .ready) := by
    decide +kernel
  simp only [Option.bind_eq_some_iff, Option.map_eq_some_iff] at ran
  obtain ⟨start, created, machine, served, ⟨result, after⟩, stepped, outcome_eq⟩ := ran
  have reached := (Reached.created (toOption_eq_some_iff.mp created)).of_serve served
  obtain ⟨result_eq, phase_eq⟩ := Prod.mk.inj outcome_eq
  obtain rfl := map_eq_error_iff.mp result_eq
  obtain ⟨runs, _, _, decodes⟩ := reached_runs_and_step_decodes reached
  refine ⟨machine, after, reached, phase_eq, stepped, runs (by rw [phase_eq]; decide), ?_⟩
  exact (decodes 0 _ after stepped).imp_right fun held => (held.2.2 5 rfl).2

end Machine

end StackMachine
