import StackMachine.Proofs.Image
import StackMachine.Proofs.Machine.Conduct
import StackMachine.Proofs.StringHeap.Accounting

/-!
# Collections leave nothing behind

In the mode `own`, the collector owns every live string but the constants of the program, which
become its own when the program is replaced.  Everything a machine does keeps this up, as long as
the mode is not changed and the constants of a program fit on the heap, so that a collection outside
natives leaves the strings that the machine holds and no other.  A load that is given up at a string
that does not fit leaves the strings before it borrowed, although no program uses them.
-/

namespace StackMachine

/-- Calls that keep a machine in the mode `own`, and load only strings that fit on the heap. -/
def Call.isSteady : Call → Bool
  | .setMode mode => mode == .own
  | .loadProgram program => program.strings.all fun bytes => bytes.length ≤ StringHeap.maxLength
  | _ => true

/-- Requests whose call is steady, or that register a native. -/
def Request.isSteady : Request → Bool
  | .call made => made.isSteady
  | .register _ _ _ => true

namespace Machine

/-- The collector looks after every live string but the constants. -/
def Tidy (machine : Machine) : Prop :=
  machine.collector.Tends machine.heap machine.program.constants

/-- A change that keeps a machine tidy and leaves the scratch area as it was. -/
structure Attended (before after : Machine) : Prop where
  scratch : after.scratch = before.scratch
  tidy : before.Tidy → after.Tidy

variable {machine before after : Machine}

theorem attended_of_same (heap : after.heap = before.heap)
    (collector : after.collector = before.collector) (program : after.program = before.program)
    (scratch : after.scratch = before.scratch) : Attended before after where
  scratch := scratch
  tidy tidy := by
    rw [Tidy, heap, collector, program]
    exact tidy

instance : Routine Attended where
  refl _ := ⟨rfl, id⟩
  trans _ _ _ early late :=
    ⟨late.scratch.trans early.scratch, fun tidy => late.tidy (early.tidy tidy)⟩
  stack _ _ _ := attended_of_same rfl rfl rfl rfl
  natives _ _ := attended_of_same rfl rfl rfl rfl
  sink _ _ := attended_of_same rfl rfl rfl rfl
  pool _ _ := attended_of_same rfl rfl rfl rfl
  lastError _ _ := attended_of_same rfl rfl rfl rfl
  stored _ bytes := ⟨rfl, fun tidy => tidy.track bytes⟩

theorem attended_collect (machine : Machine) : Attended machine machine.collect.2 :=
  ⟨rfl, fun tidy => tidy.collect machine.roots⟩

/-! ## Steps -/

theorem keeps_stepWith_attended {invoke : Invoker}
    (natives : ∀ key entry arguments,
      machine.swept.natives.get? machine.swept.heap key = some entry →
        (invoke entry arguments).Within Attended fun _ => True) :
    (stepWith invoke).Keeps Attended machine fun _ _ => True :=
  Routine.keeps_stepWith (fun _ _ => attended_of_same rfl rfl rfl rfl)
    (fun _ _ _ _ => attended_of_same rfl rfl rfl rfl) attended_collect natives

/-! ## Programs -/

/-- A constant that fits is put on the heap, or found there, and borrowed. -/
theorem ensures_addConstant {bytes : List UInt8} (fits : bytes.length ≤ StringHeap.maxLength) :
    (addConstant bytes).Ensures machine (fun _ _ => False) fun ref after =>
      after.scratch = machine.scratch ∧ after.program = machine.program ∧
        ∀ borrowed, machine.collector.Tends machine.heap borrowed →
          after.collector.Tends after.heap (ref :: borrowed) := by
  have checked : StringHeap.checkLength bytes = .ok () := if_neg (Nat.not_lt.mpr fits)
  refine .get_bind ?_
  cases machine.sharesConstants with
  | false =>
      change (allocateWith Collector.trackBorrowed bytes).Ensures machine _ _
      rw [allocateWith, checked]
      exact ⟨rfl, rfl, fun borrowed tends => tends.trackBorrowed bytes⟩
  | true =>
      refine .get_bind ?_
      obtain ⟨interned, done⟩ := StringPool.exists_intern_eq_ok machine.pool machine.heap fits
      rw [done]
      refine ⟨rfl, rfl, fun borrowed tends => ?_⟩
      rcases StringPool.intern_cases done with ⟨ref, content, rfl⟩ | ⟨_, rfl⟩
      · rw [tends.trackBorrowed_live ⟨bytes, content⟩ _]
        exact tends.mono fun _ => List.mem_cons_of_mem _
      · rw [StringHeap.slotOf_nextRef_store]
        exact tends.trackBorrowed bytes

/-- Constants that fit are put on the heap and borrowed from it. -/
theorem ensures_addConstants {contents : List (List UInt8)}
    (fits : ∀ bytes ∈ contents, bytes.length ≤ StringHeap.maxLength) :
    (addConstants contents).Ensures machine (fun _ _ => False) fun refs after =>
      after.scratch = machine.scratch ∧ after.program = machine.program ∧
        ∀ borrowed, machine.collector.Tends machine.heap borrowed →
          after.collector.Tends after.heap (refs ++ borrowed) := by
  induction contents generalizing machine with
  | nil => exact ⟨rfl, rfl, fun _ tends => tends⟩
  | cons bytes rest induction =>
      rw [List.forall_mem_cons] at fits
      refine (ensures_addConstant fits.1).bind fun ref middle early => ?_
      refine (induction fits.2).bind fun refs after late => ?_
      refine ⟨late.1.trans early.1, late.2.1.trans early.2.1, fun borrowed tends => ?_⟩
      refine (late.2.2 _ (early.2.2 borrowed tends)).mono fun found member => ?_
      simp only [List.mem_append, List.mem_cons] at member ⊢
      tauto

/-- The constants of the program that is replaced become the collector's own. -/
theorem within_install_attended {program : Program}
    (fits : ∀ bytes ∈ program.strings, bytes.length ≤ StringHeap.maxLength) :
    (install program).Within Attended fun _ => True := by
  intro machine
  refine ((ensures_addConstants fits).mono (fun _ _ => False.elim) fun _ _ => id).bind
    fun refs after held => ?_
  obtain ⟨scratch, program_eq, tends⟩ := held
  refine ⟨scratch, fun tidy => ?_⟩
  refine (tends _ tidy).foldl_adopt fun ref member => ?_
  rw [List.mem_filter, program_eq]
  by_cases current : ref ∈ refs
  · exact .inr current
  · exact .inl ⟨(List.mem_append.mp member).resolve_left current, by simpa using current⟩

theorem within_load_attended (image : List UInt8) : (load image).Within Attended fun _ => True := by
  refine Routine.within_outside _ fun machine => ?_
  refine .ofExcept_bind (fun _ _ => ⟨Std.Refl.refl machine, trivial⟩) fun program read => ?_
  have loaded := Program.load_eq_ok_iff.mp (mapError_eq_ok_iff.mp read)
  have fits := (Program.read_eq_ok_iff.mp loaded.1).1.2.1
  exact within_install_attended (fun bytes member => Nat.le_pred_of_lt (fits bytes member)) machine

theorem conduct_attended : Conduct (fun call => call.isSteady = true) Attended where
  assigned _ _ _ := attended_of_same rfl rfl rfl rfl
  load image _ := within_load_attended image
  loadProgram program permitted := by
    have fits : ∀ bytes ∈ program.strings, bytes.length ≤ StringHeap.maxLength := by
      simpa [Call.isSteady] using permitted
    exact Routine.within_loadProgram (within_install_attended fits)
  reset _ := Routine.within_outside _ fun machine =>
    (attended_of_same rfl rfl rfl rfl : Attended machine { machine with
      stack := machine.stack.clear
      offset := 0
      phase := if machine.phase = .empty then .empty else .ready })
  collect := attended_collect
  setMode machine mode permitted := by
    obtain rfl : mode = .own := by simpa [Call.isSteady] using permitted
    exact ⟨rfl, fun tidy => ⟨rfl, tidy.current.congr rfl rfl, tidy.tracked⟩⟩
  setThreshold machine threshold :=
    ⟨rfl, fun tidy => ⟨tidy.own, tidy.current.congr rfl rfl, tidy.tracked⟩⟩
  runs _ := rfl
  step _ machine invoke natives := keeps_stepWith_attended natives
  refused {start before} converted := by
    refine ⟨?_, converted.tidy⟩
    rw [← converted.scratch]
    exact List.take_length
  returned {start before after} arguments converted ran := by
    refine ⟨?_, fun tidy => ran.tidy (converted.tidy tidy)⟩
    change after.scratch.take start.scratch.length = start.scratch
    rw [ran.scratch, ← converted.scratch]
    exact List.take_left

/-! ## Natives -/

/-- The way to call natives with a given amount of fuel, given up when a native of the host returns
a string that is gone or makes a call that is not steady. -/
def supervised : (fuel : Nat) → Invoker
  | 0, _, _ => Action.exhausted
  | fuel + 1, entry, arguments =>
    entry.native.vet (runEntry (fun call =>
      if call.isSteady then performWith (supervised fuel) fuel call else Action.exhausted)
      entry arguments)

theorem within_vet {native : Native} {call : Action Value}
    (within : call.Within Attended fun _ => True) :
    (native.vet call).Within Attended fun _ => True := by
  cases native with
  | builtin builtin => exact within
  | host body =>
      refine within.bind fun result => .get_bind fun machine => ?_
      split
      · exact .pure result
      · exact Action.within_exhausted

theorem within_supervised (fuel : Nat) (entry : NativeEntry) (arguments : List Value) :
    (supervised fuel entry arguments).Within Attended fun _ => True := by
  induction fuel generalizing entry arguments with
  | zero => exact Action.within_exhausted
  | succ fuel induction =>
      have behaves := Invoker.behaves_of_within induction
      refine within_vet (conduct_attended.within_runEntry (.inr fun call => ?_) arguments)
      by_cases steady : call.isSteady = true
      · simp only [steady, if_true]
        exact .of_keeps fun machine =>
          conduct_attended.keeps_performWith behaves fuel steady trivial
      · simp only [steady]
        exact Action.within_exhausted

theorem supervised_approximates_vetted (fuel : Nat) :
    (supervised fuel).Approximates (vetted fuel) := by
  induction fuel with
  | zero => exact fun _ _ => .refl _
  | succ fuel induction =>
      intro entry arguments
      refine vet_approximates_vet _ (runEntry_approximates (fun call => ?_) entry arguments)
      split
      · exact performWith_approximates induction fuel call
      · exact fun _ _ ended => by cases ended

/-! ## Collections -/

theorem mem_held_of_mem_roots {ref : StringRef} (outside : machine.scratch = [])
    (root : ref ∈ machine.roots) : ref ∈ machine.held := by
  simpa [roots, held, outside, stringsOf] using root

/-- A collection of a tidy machine outside natives leaves the strings that the machine holds. -/
theorem live_collect_iff {onlyBuiltins : Bool} (intact : machine.Intact onlyBuiltins)
    (tidy : machine.Tidy) (outside : machine.scratch = []) (ref : StringRef) :
    machine.collect.2.heap.Live ref ↔ ref ∈ machine.collect.2.held := by
  constructor
  · intro live
    rcases tidy.mem_of_live_collect live with root | constant
    · exact mem_held_of_mem_roots outside root
    · exact mem_held_iff.mpr (.inr (.inr (.inr constant)))
  · exact intact.collect.live_of_mem_held

theorem tidy_of_create {config : MachineConfig} (own : config.collector.mode = .own)
    (created : create config = .ok machine) : machine.Tidy ∧ machine.scratch = [] := by
  obtain ⟨stack, _, attended⟩ := Routine.of_create Attended created
  refine ⟨attended.tidy ?_, attended.scratch⟩
  refine ⟨own, Collector.current_ofConfig _, fun ref live => ?_⟩
  simp [StringHeap.Live, StringHeap.bytes?, StringHeap.get?] at live

/-- Requests keep a machine tidy, whether its natives are the builtins or pass the supervision. -/
theorem attended_of_serve {requests : List (Nat × Request)} {start final : Machine}
    {config : MachineConfig} (created : create config = .ok start)
    (steady : ∀ request ∈ requests, request.2.isSteady = true)
    (served : serve invoke requests start = some final)
    (careful : (∀ request ∈ requests, request.2.Admitted true) ∨
      (serve supervised requests start).isSome) : Attended start final := by
  have permitted (fuel : Nat) (call : Call) (member : (fuel, .call call) ∈ requests) :
      call.isSteady = true := steady (fuel, .call call) member
  rcases careful with admitted | passed
  · refine conduct_attended.related_of_serve conduct_attended.behaves_invoke permitted ?_
      (intact_of_create created).1 served
    intro fuel request member before result after intact ended
    exact ((keeps_serve (careful_invoke fuel) fuel (admitted _ member) intact).related ended
      intact).1
  · obtain ⟨ended, passed⟩ := Option.isSome_iff_exists.mp passed
    have same := serve_invoke_of_serve_vetted
      (serve_of_approximates supervised_approximates_vetted passed)
    cases served.symm.trans same
    exact conduct_attended.related_of_serve
      (fun fuel => Invoker.behaves_of_within (within_supervised fuel)) permitted
      (fun _ _ _ _ _ _ _ _ => trivial) trivial passed

/-- In a machine that was created in the mode `own` and stays in it, a collection outside natives
leaves exactly the strings that the machine holds. -/
theorem live_after_collect_iff_held {config : MachineConfig} {start final : Machine}
    {requests : List (Nat × Request)} (own : config.collector.mode = .own)
    (created : create config = .ok start)
    (steady : ∀ request ∈ requests, request.2.isSteady = true)
    (served : serve invoke requests start = some final)
    (careful : (∀ request ∈ requests, request.2.Admitted true) ∨
      (serve supervised requests start).isSome) :
    (∀ ref, final.collect.2.heap.Live ref ↔ ref ∈ final.collect.2.held) ∧
      final.collect.2.heap.size = final.collect.2.held.dedup.length := by
  have attended := attended_of_serve created steady served careful
  obtain ⟨tidy, outside⟩ := tidy_of_create own created
  have vetting : (∀ request ∈ requests ++ [], request.2.Admitted true) ∨
      (serve vetted (requests ++ []) start).isSome := by
    rw [List.append_nil]
    refine careful.imp_right fun passed => ?_
    obtain ⟨ended, passed⟩ := Option.isSome_iff_exists.mp passed
    rw [serve_of_approximates supervised_approximates_vetted passed]
    rfl
  obtain ⟨onlyBuiltins, followed, _⟩ := exists_follows served rfl vetting
  have intact := (followed (intact_of_create created).1).1
  have live_iff := live_collect_iff intact (attended.tidy tidy) (attended.scratch.trans outside)
  exact ⟨live_iff, StringHeap.size_eq_length_dedup live_iff⟩

/-- A machine that collects often, its constants being shared. -/
def sharingOwner : MachineConfig where
  builtins := false
  collector := { mode := .own, threshold := some 1 }
  sharesConstants := true

/-- Runs a program that passes a new string through a native, replaces it by one that shares a
constant with it, and leaves a string that nothing holds. -/
def replacement : List (Nat × Request) :=
  [(0, .register "f" none collectingIdentity),
    (0, .call (.loadProgram ⟨[[102], [103]], [Instruction.pushString 0, .pushString 1, .add,
      .callNative 0 1, .storeGlobal 0, .halt].flatMap Instruction.encode⟩)),
    (9, .call (.run 0)),
    (0, .call (.loadProgram ⟨[[103], [104]], Instruction.halt.encode⟩)),
    (0, .call (.newString [97]))]

theorem live_after_collect_iff_held_across_programs :
    ∃ start final, create sharingOwner = .ok start ∧
      serve invoke replacement start = some final ∧ (serve supervised replacement start).isSome ∧
      final.heap.size = 6 ∧ final.collect.2.held = [⟨1⟩, ⟨3⟩, ⟨0⟩, ⟨2⟩, ⟨4⟩] ∧
      (∀ ref, final.collect.2.heap.Live ref ↔ ref ∈ final.collect.2.held) ∧
      final.collect.2.heap.size = final.collect.2.held.dedup.length := by
  have ran : ((create sharingOwner).toOption.bind fun start =>
      (serve supervised replacement start).bind fun _ =>
        (serve invoke replacement start).map fun final =>
          (final.heap.size, final.collect.2.held)) =
      some (6, [⟨1⟩, ⟨3⟩, ⟨0⟩, ⟨2⟩, ⟨4⟩]) := by
    decide +kernel
  simp only [Option.bind_eq_some_iff, Option.map_eq_some_iff, Prod.mk.injEq] at ran
  obtain ⟨start, created, ended, passed, final, served, size_eq, held_eq⟩ := ran
  have created := toOption_eq_some_iff.mp created
  have supervision := Option.isSome_iff_exists.mpr ⟨ended, passed⟩
  exact ⟨start, final, created, served, supervision, size_eq, held_eq,
    live_after_collect_iff_held rfl created (by decide) served (.inr supervision)⟩

/-! ### A load that is given up -/

/-- A machine without natives in the mode `own`. -/
def owner : MachineConfig where
  builtins := false
  collector := { mode := .own }

/-- A program that stops at once and has two strings. -/
def twoStrings (first second : List UInt8) : Program :=
  ⟨[first, second], Instruction.halt.encode⟩

theorem verify_twoStrings (first second : List UInt8) :
    (twoStrings first second).verify = .ok () := by
  have same : (twoStrings first second).verify = (twoStrings [] []).verify := rfl
  rw [same]
  decide +kernel

/-- A load that is given up at a string that is too long leaves the string before it borrowed. -/
theorem serve_loadProgram_twoStrings {start : Machine} (created : create owner = .ok start)
    {long : List UInt8} (refused : StringHeap.maxLength < long.length) :
    ∃ lastError, serve invoke [(0, .call (.loadProgram (twoStrings [97] long)))] start =
      some { start with
        heap := start.heap.store [97]
        collector := (start.collector.trackBorrowed start.heap.nextRef start.heap.nextSlot).2
        lastError } := by
  have checked : StringHeap.checkLength long = .error (.tooLong long.length) := if_pos refused
  simp only [serve, Request.serve, performWith, loadProgram, verify_twoStrings]
  simp only [install, twoStrings, addConstants, addConstant, allocateWith, checked]
  cases created
  exact ⟨_, rfl⟩

/-- The string that is left behind is held by nothing, and a collection does not free it. -/
theorem live_and_not_held_after_refused_load :
    ∃ start final, create owner = .ok start ∧
      serve invoke [(0, .call (.loadProgram (twoStrings [97] (List.replicate UInt32.size 0))))]
        start = some final ∧
      final.collect.2.heap.size = 1 ∧ final.collect.2.held = [] ∧
      ¬ ∀ ref, final.collect.2.heap.Live ref ↔ ref ∈ final.collect.2.held := by
  have refused : StringHeap.maxLength < (List.replicate UInt32.size (0 : UInt8)).length := by
    rw [List.length_replicate]
    decide
  obtain ⟨start, created⟩ : ∃ start, create owner = .ok start := ⟨_, rfl⟩
  obtain ⟨lastError, served⟩ := serve_loadProgram_twoStrings created refused
  refine ⟨start, _, created, served, ?_⟩
  cases created
  refine ⟨rfl, rfl, fun held_exactly => ?_⟩
  exact absurd ((held_exactly ⟨0⟩).mp ⟨[97], rfl⟩) List.not_mem_nil

end Machine

end StackMachine
