import StackMachine.Proofs.Machine.Confinement
import StackMachine.Proofs.Machine.Loading

/-!
# Arguments of natives are rooted

The function of a native with a signature finds its converted arguments in the scratch area, which
is a stack shared by all natives under way.  Each of them leaves the area as it was, so that the
strings of an outer native are roots as long as it is under way, whatever it has the machine do.
The function of a native without a signature that the program calls finds its arguments on the
operand stack, where they stay until something pops them.
-/

namespace StackMachine

/-! ## States that natives come upon -/

/-- A script comes to what is left of it when the machine is in a given state, after calls that are
all let through. -/
inductive Script.Comes (perform : (call : Call) → Action call.Reply)
    (through : Call → Machine → Prop) : Script → Machine → Script → Machine → Prop
  | here {script : Script} {machine : Machine} : Comes perform through script machine script machine
  | afterCall {request : Call} {next : request.Reply → Script} {reply : request.Reply}
      {machine after place : Machine} {rest : Script} (passed : through request machine)
      (performed : (perform request).apply machine = some (.ok reply, after))
      (later : Comes perform through (next reply) after rest place) :
      Comes perform through (.call request next) machine rest place
  | afterRegister {name : String} {signature : Option String} {native : Native}
      {next : Except MachineError Unit → Script} {machine place : Machine} {rest : Script}
      (later : Comes perform through
        (next ((Machine.register name signature native).apply machine).1)
        ((Machine.register name signature native).apply machine).2 rest place) :
      Comes perform through (.register name signature native next) machine rest place

/-- A script that set out within a relation stays within it, as far as the calls that are let
through do. -/
theorem Script.Comes.related {relation : Machine → Machine → Prop} [Machine.Additive relation]
    {perform : (call : Call) → Action call.Reply} {through : Call → Machine → Prop}
    {start machine place : Machine} {script rest : Script}
    (performs : ∀ {call before reply after}, relation start before → through call before →
      (perform call).apply before = some (.ok reply, after) → relation before after)
    (comes : script.Comes perform through machine rest place) (come : relation start machine) :
    relation start place := by
  induction comes with
  | here => exact come
  | afterCall passed performed _ induction =>
      exact induction (IsTrans.trans _ _ _ come (performs come passed performed))
  | @afterRegister name signature native _ before _ _ _ induction =>
      have registered : relation before ((Machine.register name signature native).apply before).2 :=
        (Machine.Routine.within_register name signature native).apply_snd before
      exact induction (IsTrans.trans _ _ _ come registered)

namespace Machine

/-- A call comes to a step of the program when the machine is in a given state. -/
inductive Steps (invoke : Invoker) : Call → Machine → Machine → Prop
  | step {machine : Machine} : Steps invoke .step machine machine
  | run {limit count : Nat} {machine place : Machine} (below : limit = 0 ∨ count < limit)
      (ran : (runFor invoke count).apply machine = some (.ok .stepLimit, place)) :
      Steps invoke (.run limit) machine place

/-- A step of the program calls a native on the operands on top of the stack. -/
inductive StepCalls (machine : Machine) : NativeEntry → List Value → Machine → Prop
  | intro {index : UInt32} {count : UInt8} {key : StringRef} {entry : NativeEntry}
      (outside : machine.inNative = false) (ready : machine.phase = .ready)
      (fetched : machine.swept.fetch = .ok (.callNative index count))
      (constant : machine.swept.program.constants[index.toNat]? = some key)
      (registered : machine.swept.natives.get? machine.swept.heap key = some entry)
      (enough : machine.swept.stack.require Opcode.callNative.mnemonic count.toNat = .ok ()) :
      StepCalls machine entry (machine.swept.stack.top count.toNat)
        { machine.swept with inNative := true }

/-- A call of the interface calls a native, by its name or because the program does. -/
inductive Engages (invoke : Invoker) : Call → Machine → NativeEntry → List Value → Machine → Prop
  | named {name : String} {arguments : List Value} {machine : Machine} {entry : NativeEntry}
      (registered : machine.natives.getBytes? machine.heap (Utf8.encode name.toList) = some entry) :
      Engages invoke (.callNative name arguments) machine entry arguments machine
  | stepping {call : Call} {machine middle entered : Machine} {entry : NativeEntry}
      {arguments : List Value} (steps : Steps invoke call machine middle)
      (calls : StepCalls middle entry arguments entered) :
      Engages invoke call machine entry arguments entered

/-- The states that a machine passes while the function of a native is under way, from the one it is
entered in to the one it returns in: between the calls that it makes, between the steps of a program
that it runs, and while natives are under way that it calls, itself or through the program.  The
calls completed before are all let through. -/
inductive Passes (through : Nat → Call → Machine → Prop) :
    (fuel : Nat) → Native → List Value → Machine → Machine → Prop
  | entered {fuel : Nat} {native : Native} {values : List Value} {inside : Machine} :
      Passes through fuel native values inside inside
  | finished {fuel : Nat} {builtin : Builtin} {values : List Value} {inside : Machine} :
      Passes through fuel (.builtin builtin) values inside ((builtin.run values).apply inside).2
  | own {fuel : Nat} {body : List Value → Script} {values : List Value} {inside place : Machine}
      {rest : Script}
      (comes : (body values).Comes (perform fuel) (through fuel) inside rest place) :
      Passes through fuel (.host body) values inside place
  | stepping {fuel : Nat} {body : List Value → Script} {values : List Value}
      {inside middle place : Machine} {call : Call} {next : call.Reply → Script}
      (comes : (body values).Comes (perform fuel) (through fuel) inside (.call call next) middle)
      (steps : Steps (invoke fuel) call middle place) :
      Passes through fuel (.host body) values inside place
  | nested {fuel : Nat} {body : List Value → Script} {values passed values' : List Value}
      {inside middle start inside' place : Machine} {call : Call} {next : call.Reply → Script}
      {inner : NativeEntry}
      (comes : (body values).Comes (perform (fuel + 1)) (through (fuel + 1)) inside
        (.call call next)
        middle)
      (engages : Engages (invoke (fuel + 1)) call middle inner passed start)
      (enters : Enters inner passed start values' inside')
      (later : Passes through fuel inner.native values' inside' place) :
      Passes through (fuel + 1) (.host body) values inside place

/-! ## Strings that survive -/

/-- The live strings among values stay live, with their contents. -/
def Survive (values : List Value) (before after : Machine) : Prop :=
  ∀ ref ∈ stringsOf values, ∀ bytes, before.heap.bytes? ref = some bytes →
    after.heap.bytes? ref = some bytes

variable {values : List Value} {first second third machine place : Machine}

theorem Survive.trans (early : Survive values first second) (late : Survive values second third) :
    Survive values first third :=
  fun ref member bytes live => late ref member bytes (early ref member bytes live)

theorem Survive.of_subset {more : List Value} (survive : Survive more first second)
    (subset : values ⊆ more) : Survive values first second :=
  fun ref member => survive ref (mem_stringsOf_iff.mpr (subset (mem_stringsOf_iff.mp member)))

theorem Survive.map_bytes? (survive : Survive values first second) (contents : List (List UInt8))
    (live : (stringsOf values).map first.heap.bytes? = contents.map some) :
    (stringsOf values).map second.heap.bytes? = contents.map some := by
  rw [← live]
  refine List.map_congr_left fun ref member => ?_
  have known : first.heap.bytes? ref ∈ contents.map some := live ▸ List.mem_map_of_mem member
  obtain ⟨bytes, _, content⟩ := List.mem_map.mp known
  rw [survive ref member bytes content.symm, content]

theorem survive_of_same (same : second.heap = first.heap) : Survive values first second :=
  fun ref _ _ live => by rw [same, live]

theorem survive_of_preserves (preserved : first.heap.Preserves second.heap) :
    Survive values first second :=
  fun ref _ bytes => preserved ref bytes

theorem survive_collect (roots : ∀ ref ∈ stringsOf values, ref ∈ machine.roots) :
    Survive values machine machine.collect.2 :=
  fun ref member _ live => (Collector.bytes?_collect machine.heap (roots ref member)).trans live

/-! ## The scratch area -/

/-- The scratch area is what it was, and the strings in it survive. -/
structure Shelters (before after : Machine) : Prop where
  scratch : after.scratch = before.scratch
  survive : Survive before.scratch before after

theorem shelters_of_same (scratch : second.scratch = first.scratch)
    (heap : second.heap = first.heap) : Shelters first second :=
  ⟨scratch, survive_of_same heap⟩

instance : Routine Shelters where
  refl _ := shelters_of_same rfl rfl
  trans _ _ _ early late :=
    ⟨late.scratch.trans early.scratch, early.survive.trans (early.scratch ▸ late.survive)⟩
  sink _ _ := shelters_of_same rfl rfl
  lastError _ _ := shelters_of_same rfl rfl
  stored machine bytes := ⟨rfl, survive_of_preserves (machine.heap.preserves_store bytes)⟩
  stack _ _ _ := shelters_of_same rfl rfl
  natives _ _ := shelters_of_same rfl rfl
  pool _ _ := shelters_of_same rfl rfl

theorem shelters_collect (machine : Machine) : Shelters machine machine.collect.2 := by
  refine ⟨rfl, survive_collect fun ref member => ?_⟩
  simp only [roots, List.mem_append]
  exact .inl (.inl (.inl (.inr member)))

theorem within_install_shelters (program : Program) :
    (install program).Within Shelters fun _ => True := by
  have added : (addConstants program.strings).Within Shelters fun _ => True := by
    intro machine
    have kept (after : Machine) (enriched : Enriched machine after) : Shelters machine after := by
      obtain ⟨_, _, _, same⟩ := enriched.rest
      exact ⟨by rw [same], survive_of_preserves enriched.heap⟩
    exact (ensures_addConstants_added machine program.strings).mono
      (fun _ after held => ⟨kept after held.1, trivial⟩) fun _ after held => kept after held.1
  exact added.bind fun constants => .modify fun _ => shelters_of_same rfl rfl

theorem conduct_shelters : Conduct (fun _ => True) Shelters where
  assigned _ _ _ := shelters_of_same rfl rfl
  load image _ := Routine.within_load within_install_shelters image
  loadProgram program _ := Routine.within_loadProgram (within_install_shelters program)
  reset _ := Routine.within_outside _ (.modify fun _ => shelters_of_same rfl rfl)
  collect := shelters_collect
  setMode _ _ _ := shelters_of_same rfl rfl
  setThreshold _ _ := shelters_of_same rfl rfl
  runs := id
  step _ _ _ natives :=
    Routine.keeps_stepWith (fun _ _ => shelters_of_same rfl rfl)
      (fun _ _ _ _ => shelters_of_same rfl rfl) shelters_collect natives
  refused {start before} converted :=
    ⟨by simp [converted.scratch], converted.survive⟩
  returned {start before after} arguments converted ran := by
    refine ⟨by simp [ran.scratch, converted.scratch], ?_⟩
    have entered :
        Survive start.scratch { before with scratch := before.scratch ++ arguments } after :=
      ran.survive.of_subset (by simp [converted.scratch])
    exact converted.survive.trans entered

/-! ## Passing states within a conduct -/

section Conduct

variable {relation : Machine → Machine → Prop} [Routine relation]

theorem Conduct.related_of_comes (conduct : Conduct (fun _ => True) relation) {fuel : Nat}
    {through : Call → Machine → Prop} {script rest : Script}
    (comes : script.Comes (perform fuel) through machine rest place) : relation machine place :=
  comes.related (fun {request before _ _} _ _ performed =>
    ((conduct.within_perform fuel request).keeps before).related performed) (Std.Refl.refl machine)

theorem Conduct.related_of_steps (conduct : Conduct (fun _ => True) relation) {fuel : Nat}
    {call : Call} (steps : Steps (invoke fuel) call machine place) : relation machine place := by
  cases steps with
  | step => exact Std.Refl.refl _
  | run _ ran =>
      have behaves := Invoker.behaves_of_within (conduct.within_invoke fuel)
      exact (conduct.keeps_runFor trivial behaves _ trivial).related ran

end Conduct

variable {fuel : Nat} {entry : NativeEntry} {arguments : List Value} {entered inside : Machine}

theorem StepCalls.shelters (calls : StepCalls machine entry arguments entered) :
    Shelters machine entered := by
  cases calls with
  | intro =>
      have swept : Shelters machine machine.swept :=
        swept_elim (Std.Refl.refl machine) (shelters_collect machine)
      exact IsTrans.trans _ _ _ swept (shelters_of_same rfl rfl)

theorem Engages.shelters {call : Call}
    (engages : Engages (invoke fuel) call machine entry arguments entered) :
    Shelters machine entered := by
  cases engages with
  | named => exact Std.Refl.refl _
  | stepping steps calls =>
      exact IsTrans.trans _ _ _ (conduct_shelters.related_of_steps steps) calls.shelters

/-- The scratch area has what it had at its bottom, and the strings that were in it survive. -/
structure Harbors (before after : Machine) : Prop where
  scratch : before.scratch <+: after.scratch
  survive : Survive before.scratch before after

theorem Shelters.harbors (shelters : Shelters first second) : Harbors first second :=
  ⟨shelters.scratch ▸ List.prefix_rfl, shelters.survive⟩

instance : Modest Harbors where
  refl _ := (shelters_of_same rfl rfl).harbors
  trans _ _ _ early late :=
    ⟨early.scratch.trans late.scratch,
      early.survive.trans (late.survive.of_subset early.scratch.subset)⟩
  sink machine bytes := Shelters.harbors (Modest.sink machine bytes)
  lastError machine lastError := Shelters.harbors (Modest.lastError machine lastError)
  stored machine bytes := Shelters.harbors (Modest.stored machine bytes)

/-- The converted arguments of a native are put on top of the scratch area. -/
theorem Enters.harbors (enters : Enters entry arguments machine values inside) :
    Harbors machine inside :=
  enters.related fun _ _ => ⟨List.prefix_append _ _, survive_of_same rfl⟩

/-- What was in the scratch area when a function was entered stays there while it is under way. -/
theorem Passes.harbors {through : Nat → Call → Machine → Prop} {native : Native}
    (passes : Passes through fuel native values inside place) : Harbors inside place := by
  induction passes with
  | entered => exact Std.Refl.refl _
  | @finished _ builtin values inside =>
      have shelters : Shelters inside ((builtin.run values).apply inside).2 :=
        (Modest.within_builtin builtin values).apply_snd inside
      exact shelters.harbors
  | own comes => exact (conduct_shelters.related_of_comes comes).harbors
  | stepping comes steps =>
      have came := conduct_shelters.related_of_comes comes
      exact (IsTrans.trans _ _ _ came (conduct_shelters.related_of_steps steps)).harbors
  | nested comes engages enters _ induction =>
      have called := IsTrans.trans _ _ _ (conduct_shelters.related_of_comes comes) engages.shelters
      exact IsTrans.trans _ _ _ called.harbors (IsTrans.trans _ _ _ enters.harbors induction)

/-! ## The operand stack -/

/-- A call that is made inside a native pops the operand stack, itself or through natives. -/
def Pops (fuel : Nat) (machine : Machine) : Call → Prop
  | .pop => True
  | .callNative name arguments => ∃ entry place,
      machine.natives.getBytes? machine.heap (Utf8.encode name.toList) = some entry ∧
        Makes fuel entry arguments machine .pop place
  | _ => False

/-- The operand stack has what it had at its bottom, the strings that were on it survive, and the
mark of natives is what it was. -/
structure Stands (before after : Machine) : Prop where
  inNative : after.inNative = before.inNative
  stack : before.stack.toList <+: after.stack.toList
  survive : Survive before.stack.toList before after

theorem stands_of_same (inNative : second.inNative = first.inNative)
    (stack : second.stack = first.stack) (heap : second.heap = first.heap) : Stands first second :=
  ⟨inNative, stack ▸ List.prefix_rfl, survive_of_same heap⟩

instance : Additive Stands where
  refl _ := stands_of_same rfl rfl rfl
  trans _ _ _ early late :=
    ⟨late.inNative.trans early.inNative, early.stack.trans late.stack,
      early.survive.trans (late.survive.of_subset early.stack.subset)⟩
  sink _ _ := stands_of_same rfl rfl rfl
  lastError _ _ := stands_of_same rfl rfl rfl
  stored machine bytes :=
    ⟨rfl, List.prefix_rfl, survive_of_preserves (machine.heap.preserves_store bytes)⟩
  pushed machine value stack done := by
    refine ⟨rfl, ?_, survive_of_same rfl⟩
    rw [OperandStack.toList_of_push done]
    exact List.prefix_append _ _
  natives _ _ := stands_of_same rfl rfl rfl
  pool _ _ := stands_of_same rfl rfl rfl

theorem stands_collect (machine : Machine) : Stands machine machine.collect.2 := by
  refine ⟨rfl, List.prefix_rfl, survive_collect fun ref member => ?_⟩
  simp only [roots, List.mem_append]
  exact .inl (.inl (.inl (.inl member)))

theorem Enters.stands (enters : Enters entry arguments machine values inside) :
    Stands machine inside :=
  enters.related fun _ _ => stands_of_same rfl rfl rfl

theorem keeps_runFor_stands (invoke : Invoker) (count : Nat) (marked : machine.inNative = true) :
    (runFor invoke count).Keeps Stands machine fun _ _ => True := by
  cases count with
  | zero => exact .pure trivial
  | succ count =>
      have refused : (runFor invoke (count + 1)).apply machine =
          some (.error (insideNative "step"), machine.remember (insideNative "step")) := by
        rw [runFor, Action.apply_bind, apply_stepWith_of_inNative invoke marked]
      exact Action.ensures_of_eq_some refused (stands_of_same rfl rfl rfl)

theorem keeps_runWith_stands (invoke : Invoker) (fuel limit : Nat)
    (marked : machine.inNative = true) :
    (runWith invoke fuel limit).Keeps Stands machine fun _ _ => True := by
  unfold runWith
  split
  · refine (keeps_runFor_stands invoke fuel marked).bind fun exit _ _ _ => ?_
    cases exit with
    | halted => exact .pure trivial
    | stepLimit => exact Action.keeps_exhausted
  · exact keeps_runFor_stands invoke limit marked

/-- The natives under way leave the operands of the program alone, as long as they do not pop. -/
def Steady (fuel : Nat) : Prop :=
  ∀ (machine : Machine) (entry : NativeEntry) (arguments : List Value), machine.inNative = true →
    (∀ place, ¬Makes fuel entry arguments machine .pop place) →
      (invoke fuel entry arguments).Keeps Stands machine fun _ _ => True

theorem Steady.keeps_perform (steady : Steady fuel) {call : Call} (marked : machine.inNative = true)
    (unpopped : ¬machine.Pops fuel call) :
    (perform fuel call).Keeps Stands machine fun _ _ => True := by
  have same : Stands machine machine := Std.Refl.refl machine
  cases call with
  | load image | loadProgram program | reset =>
      exact Action.ensures_of_eq_some (apply_attempt_of_error (apply_recorded_of_inNative _ marked))
        ⟨Modest.remember _ same, trivial⟩
  | step =>
      exact Action.ensures_of_eq_some (apply_attempt_of_error (apply_stepWith_of_inNative _ marked))
        ⟨Modest.remember _ same, trivial⟩
  | run limit => exact (keeps_runWith_stands _ fuel limit marked).attempt
  | pop => exact absurd trivial unpopped
  | setGlobal name value =>
      have assigned (machine : Machine) (globals : ContentMap Value) :
          Stands machine { machine with globals } := stands_of_same rfl rfl rfl
      exact ((Action.within_lift (Routine.within_setGlobal assigned name value)).keeps
        machine).attempt
  | callNative name arguments =>
      exact (Modest.keeps_callNativeWith fun entry found =>
        steady machine entry arguments marked fun place makes =>
          unpopped ⟨entry, place, found, makes⟩).attempt
  | collect => exact .changing (stands_collect machine)
  | setMode | setThreshold =>
      rw [perform, performWith]
      exact .changing (stands_of_same rfl rfl rfl)
  | _ => exact Additive.keeps_performWith fuel trivial

theorem Steady.keeps_script (steady : Steady fuel) :
    (script : Script) → {machine : Machine} → machine.inNative = true →
      (∀ call middle, script.Makes (perform fuel) machine call middle → ¬middle.Pops fuel call) →
      (script.run (perform fuel)).Keeps Stands machine fun _ _ => True
  | .finish result, machine, _, _ =>
    (Action.within_lift (.ofExcept fun _ _ => trivial)).keeps machine
  | .call request next, machine, marked, unpopped => by
    have kept := (steady.keeps_perform marked (unpopped request machine .now)).ended
    refine kept.bind fun reply after stands performed => ?_
    exact steady.keeps_script (next reply) (stands.inNative.trans marked)
      fun call middle made => unpopped call middle (.afterCall performed made)
  | .register name signature native next, machine, marked, unpopped => by
    have registered : (register name signature native).Within Stands MachineError.IsOrdinary :=
      Routine.within_register name signature native
    have kept := ((Action.within_lift registered).keeps machine).attempt.ended
    refine kept.bind fun outcome after stands performed => ?_
    cases performed
    exact steady.keeps_script (next _) (stands.inNative.trans marked)
      fun call middle made => unpopped call middle (.afterRegister made)

/-- A native that comes to make a popping call comes to pop. -/
theorem Makes.pop_of_script {body : List Value → Script} {call : Call}
    (enters : Enters entry arguments machine values inside) (host : entry.native = .host body)
    (made : (body values).Makes (perform fuel) inside call place) (pops : place.Pops fuel call) :
    ∃ later, Makes (fuel + 1) entry arguments machine .pop later := by
  cases call with
  | pop => exact ⟨place, .own enters host made⟩
  | callNative name passed =>
      obtain ⟨inner, later, found, makes⟩ := pops
      exact ⟨later, .nested enters host made found makes⟩
  | _ => exact pops.elim

theorem steady (fuel : Nat) : Steady fuel := by
  induction fuel with
  | zero => exact fun _ _ _ _ _ => Action.keeps_exhausted
  | succ fuel steady =>
      intro machine entry arguments marked unpopped
      refine Modest.keeps_runEntry ?_ ?_ fun {values inside} enters => ?_
      · exact fun converted => { converted with }
      · intro start before after arguments converted ran
        have put : Stands before { before with scratch := before.scratch ++ arguments } :=
          stands_of_same rfl rfl rfl
        have ended : Stands start after :=
          IsTrans.trans _ _ _ converted (IsTrans.trans _ _ _ put ran)
        exact { ended with }
      · cases native : entry.native with
        | builtin builtin =>
            have within : (builtin.run values).Within Stands MachineError.IsOrdinary :=
              Modest.within_builtin builtin values
            exact (Action.within_lift within).keeps inside
        | host body =>
            refine steady.keeps_script (body values) (enters.stands.inNative.trans marked) ?_
            intro call middle made pops
            obtain ⟨place, makes⟩ := Makes.pop_of_script enters native made pops
            exact unpopped place makes

/-- Calls that are let through unless they pop. -/
def Unpopped (fuel : Nat) (call : Call) (machine : Machine) : Prop :=
  ¬machine.Pops fuel call

theorem stands_of_comes {script rest : Script} (marked : machine.inNative = true)
    (comes : script.Comes (perform fuel) (Unpopped fuel) machine rest place) :
    Stands machine place :=
  comes.related (fun come passed performed =>
    ((steady fuel).keeps_perform (come.inNative.trans marked) passed).related performed)
    (Std.Refl.refl machine)

/-- Inside natives a run is refused before its first step. -/
theorem Steps.eq_of_inNative {invoke : Invoker} {call : Call} (marked : machine.inNative = true)
    (steps : Steps invoke call machine place) : place = machine := by
  cases steps with
  | step => rfl
  | @run limit count _ _ _ ran =>
      cases count with
      | zero =>
          cases ran
          rfl
      | succ count =>
          rw [runFor, Action.apply_bind, apply_stepWith_of_inNative invoke marked] at ran
          cases ran

theorem Engages.eq_of_inNative {invoke : Invoker} {call : Call} (marked : machine.inNative = true)
    (engages : Engages invoke call machine entry arguments entered) : entered = machine := by
  cases engages with
  | named => rfl
  | stepping steps calls =>
      cases steps.eq_of_inNative marked
      cases calls with
      | intro outside => cases outside.symm.trans marked

/-- The operands that were on the stack when a function was entered inside a native stay there while
it is under way, as long as nothing pops. -/
theorem Passes.stands {native : Native} (passes : Passes Unpopped fuel native values inside place)
    (marked : inside.inNative = true) : Stands inside place := by
  induction passes with
  | entered => exact Std.Refl.refl _
  | @finished _ builtin values inside =>
      exact (Modest.within_builtin builtin values).apply_snd inside
  | own comes => exact stands_of_comes marked comes
  | stepping comes steps =>
      have came := stands_of_comes marked comes
      rw [steps.eq_of_inNative (came.inNative.trans marked)]
      exact came
  | nested comes engages enters _ induction =>
      have came := stands_of_comes marked comes
      have called := engages.eq_of_inNative (came.inNative.trans marked)
      have entered := IsTrans.trans _ _ _ came (called ▸ enters.stands)
      exact IsTrans.trans _ _ _ entered (induction (entered.inNative.trans marked))

/-- Arguments of natives are rooted.  While the function of a native with a signature is under way,
whoever called it and whatever it has the machine do, and when it returns, the strings among its
converted arguments that were live when it was entered are live, with their contents.  So are those
among the arguments of a native without a signature that the program calls, as long as nothing pops
the operand stack.  Natives and all calls of the interface leave the scratch area as it was, whether
they succeed or fail. -/
theorem arguments_rooted_while_under_way :
    (∀ fuel entry signature arguments machine values inside place,
      entry.signature = some signature → Enters entry arguments machine values inside →
        (Passes (fun _ _ _ => True) fuel entry.native values inside place ∨ ∃ result,
          (runNative (perform fuel) entry.native values).apply inside = some (result, place)) →
          Survive values inside place) ∧
    (∀ fuel entry arguments machine entered values inside place,
      entry.signature = none → StepCalls machine entry arguments entered →
        Enters entry arguments entered values inside →
          Passes Unpopped fuel entry.native values inside place → Survive values inside place) ∧
    (∀ fuel entry arguments machine result after,
      (invoke fuel entry arguments).apply machine = some (result, after) →
        after.scratch = machine.scratch) ∧
    ∀ fuel call machine result after, (perform fuel call).apply machine = some (result, after) →
      after.scratch = machine.scratch := by
  refine ⟨?_, ?_, ?_, ?_⟩
  · intro fuel entry signature arguments machine values inside place signed enters come
    have harbors : Harbors inside place := by
      rcases come with passes | ⟨result, ended⟩
      · exact passes.harbors
      · have performs := conduct_shelters.within_perform fuel
        have ran : Shelters inside place :=
          ((Routine.within_runNative (.inr performs) values).keeps inside).related ended
        exact ran.harbors
    refine harbors.survive.of_subset ?_
    cases enters with
    | plain unsigned => cases unsigned.symm.trans signed
    | converted => exact List.subset_append_right _ _
  · intro fuel entry arguments machine entered values inside place unsigned calls enters passes
    cases enters with
    | converted signed => cases unsigned.symm.trans signed
    | plain =>
        cases calls with
        | intro =>
            have stands := passes.stands rfl
            exact stands.survive.of_subset fun value => OperandStack.mem_of_mem_top
  · intro fuel entry arguments machine result after ended
    exact (((conduct_shelters.within_invoke fuel entry arguments).keeps machine).related
      ended).scratch
  · intro fuel call machine result after ended
    exact (((conduct_shelters.within_perform fuel call).keeps machine).related ended).scratch

/-! ## A collection below two natives -/

/-- The values and the state that the function of a native is entered with, unless they are
refused. -/
def entered? (entry : NativeEntry) (arguments : List Value) (machine : Machine) :
    Option (List Value × Machine) :=
  match entry.signature with
  | none => some (arguments, machine)
  | some signature =>
    match (coerceArguments signature entry.name arguments).apply machine with
    | (.ok values, after) => some (values, { after with scratch := after.scratch ++ values })
    | (.error _, _) => none

theorem enters_of_entered? (found : entered? entry arguments machine = some (values, inside)) :
    Enters entry arguments machine values inside := by
  unfold entered? at found
  split at found
  · rename_i unsigned
    cases found
    exact .plain unsigned
  · rename_i signature signed
    split at found
    · rename_i coerced
      cases found
      exact .converted signed coerced
    · cases found

/-- The native that a step of the program calls, if it does. -/
def stepCalls? (machine : Machine) : Option (NativeEntry × List Value × Machine) :=
  if machine.inNative = false ∧ machine.phase = .ready then
    match machine.swept.fetch with
    | .ok (.callNative index count) => do
      let key ← machine.swept.program.constants[index.toNat]?
      let entry ← machine.swept.natives.get? machine.swept.heap key
      match machine.swept.stack.require Opcode.callNative.mnemonic count.toNat with
      | .ok () =>
        some (entry, machine.swept.stack.top count.toNat, { machine.swept with inNative := true })
      | .error _ => none
    | _ => none
  else none

theorem stepCalls_of_stepCalls? (found : machine.stepCalls? = some (entry, arguments, entered)) :
    StepCalls machine entry arguments entered := by
  unfold stepCalls? at found
  split at found
  · rename_i waiting
    split at found
    · rename_i index count fetched
      obtain ⟨key, constant, found⟩ := Option.bind_eq_some_iff.mp found
      obtain ⟨native, registered, found⟩ := Option.bind_eq_some_iff.mp found
      split at found
      · rename_i enough
        cases found
        exact .intro waiting.1 waiting.2 fetched constant registered enough
      · cases found
    · cases found
  · cases found

/-- Whether a native begins with a collection. -/
def collectsFirst (values : List Value) : Native → Bool
  | .host body =>
    match body values with
    | .call .collect _ => true
    | _ => false
  | .builtin _ => false

theorem passes_of_collectsFirst {through : Nat → Call → Machine → Prop} {native : Native}
    (collects : collectsFirst values native = true) (passed : through fuel .collect inside) :
    Passes through fuel native values inside inside.collect.2 := by
  unfold collectsFirst at collects
  split at collects
  · rename_i body
    split at collects
    · rename_i next script_eq
      have comes : (body values).Comes (perform fuel) (through fuel) inside
          (next inside.collect.1) inside.collect.2 := by
        rw [script_eq]
        exact .afterCall passed rfl .here
      exact .own comes
    · cases collects
  · cases collects

/-- A native that has another one convert a number and collect. -/
def delegate : Native :=
  .host fun _ => .call (.callNative "c" [.int 7]) fun _ => .finish (.ok .nil)

/-- A program that joins two strings and is about to pass the result to a native. -/
def joining : List (Nat × Request) :=
  [(0, .register "c" (some "s") collectingIdentity), (0, .register "p" none collectingIdentity),
    (0, .call (.loadProgram ⟨[[112], [97]], [Instruction.pushString 1, .pushString 1, .add,
      .callNative 0 1, .halt].flatMap Instruction.encode⟩)), (0, .call (.run 3))]

theorem arguments_rooted_while_delegate_collects :
    ∃ start final, create { builtins := false, collector := { mode := .own } } = .ok start ∧
      serve invoke joining start = some final ∧
      (∃ values inside place,
        Enters ⟨"d", delegate, some ⟨[.string], false, .any⟩⟩ [.int 5] final values inside ∧
        Passes (fun _ _ _ => True) 1 delegate values inside place ∧
        (stringsOf values).map place.heap.bytes? = [some [53]]) ∧
      ∃ entry arguments entered place, StepCalls final entry arguments entered ∧
        Passes Unpopped 0 entry.native arguments entered place ∧
        (stringsOf arguments).map place.heap.bytes? = [some [97, 97]] := by
  have ran :
      ((create { builtins := false, collector := { mode := .own } }).toOption.bind fun start =>
      (serve invoke joining start).bind fun final =>
        (entered? ⟨"d", delegate, some ⟨[.string], false, .any⟩⟩ [.int 5] final).bind fun outer =>
          (outer.2.natives.getBytes? outer.2.heap (Utf8.encode "c".toList)).bind fun inner =>
            (entered? inner [.int 7] outer.2).bind fun nested =>
              final.stepCalls?.map fun called =>
                ([collectsFirst nested.1 inner.native, collectsFirst called.2.1 called.1.native,
                  called.1.signature.isNone], (stringsOf outer.1).map outer.2.heap.bytes?,
                  (stringsOf called.2.1).map called.2.2.heap.bytes?)) =
      some ([true, true, true], [some [53]], [some [97, 97]]) := by
    decide +kernel
  simp only [Option.bind_eq_some_iff, Option.map_eq_some_iff, Prod.mk.injEq, List.cons.injEq,
    and_true] at ran
  obtain ⟨start, created, final, served, ⟨values, inside⟩, outer, inner, found, ⟨values', inside'⟩,
    nested, ⟨entry, arguments, entered⟩, called, ⟨collects, collects', unsigned⟩, kept, kept'⟩ :=
      ran
  obtain ⟨signed, plain, _⟩ := arguments_rooted_while_under_way
  have enters := enters_of_entered? outer
  have calls := stepCalls_of_stepCalls? called
  have unsigned := Option.isNone_iff_eq_none.mp unsigned
  -- The delegate has come to call the other native, which has entered and collected.
  have passes : Passes (fun _ _ _ => True) 1 delegate values inside inside'.collect.2 :=
    .nested .here (.named found) (enters_of_entered? nested)
      (passes_of_collectsFirst collects trivial)
  have passes' : Passes Unpopped 0 entry.native arguments entered entered.collect.2 :=
    passes_of_collectsFirst collects' id
  have survive := signed _ _ _ _ _ _ _ _ rfl enters (.inl passes)
  have survive' := plain _ _ _ _ _ _ _ _ unsigned calls (.plain unsigned) passes'
  exact ⟨start, final, toOption_eq_some_iff.mp created, served,
    ⟨values, inside, _, enters, passes, survive.map_bytes? [[53]] kept⟩,
    entry, arguments, entered, _, calls, passes', survive'.map_bytes? [[97, 97]] kept'⟩

end Machine

end StackMachine
