import StackMachine.Proofs.ContentMap.Refinement
import StackMachine.Proofs.Machine.Budget
import StackMachine.Proofs.Machine.Loading

/-!
# Globals are a store

What a run writes to globals is listed in order: the values that the host sets, and the operands
that instructions store under the constants of the program of the time.  A global then has the value
of the latest write to its name, and a string among these values has the content it was written
with.  A change of the machine that leaves the table alone and frees nothing that is held leaves
every global alone.
-/

namespace StackMachine

/-! ## Writes -/

/-- A global, with the content that its value has if it is a string. -/
structure Global where
  name : List UInt8
  value : Value
  content : Option (List UInt8)
deriving DecidableEq

/-- The latest of the writes to a name. -/
def latestWrite? (name : List UInt8) (writes : List Global) : Option Global :=
  (writes.filter fun write => write.name = name).getLast?

namespace Machine

/-- The write that the next instruction makes if it succeeds. -/
def storing? (machine : Machine) : Option Global :=
  match machine.fetch with
  | .ok (.storeGlobal index) =>
    (machine.program.constants[index.toNat]?.bind machine.heap.bytes?).bind fun name =>
      machine.stack.toList.getLast?.map fun value => ⟨name, value, machine.bytes? value⟩
  | _ => none

/-- The writes of a number of steps, as far as the machine goes on. -/
def runWrites (natives : Invoker) : Nat → Machine → List Global
  | 0, _ => []
  | count + 1, machine =>
    match (stepWith natives).apply machine with
    | some (.ok .continued, after) => machine.storing?.toList ++ runWrites natives count after
    | _ => []

end Machine

/-- The writes of a request that ends: a value that is set, or those of the instructions carried
out. -/
def Request.writes (natives : Invoker) (fuel : Nat) (machine : Machine) : Request → List Global
  | .call (.setGlobal name value) =>
    match (Machine.setGlobal name value).apply machine with
    | (.ok _, _) => [⟨Utf8.encode name.toList, value, machine.bytes? value⟩]
    | (.error _, _) => []
  | .call .step => Machine.runWrites natives 1 machine
  | .call (.run limit) => Machine.runWrites natives (if limit = 0 then fuel else limit) machine
  | _ => []

namespace Machine

/-- The writes of requests that are served in turn. -/
def writes (natives : Nat → Invoker) : List (Nat × Request) → Machine → List Global
  | [], _ => []
  | (fuel, request) :: rest, machine =>
    request.writes (natives fuel) fuel machine ++
      match (request.serve (natives fuel) fuel).apply machine with
      | some (_, after) => writes natives rest after
      | none => []

end Machine

/-! ## Strings and maps -/

namespace StringHeap

/-- A string that is live at both ends of a history has one content. -/
theorem Evolves.bytes?_eq {first heap : StringHeap} {log : List (List UInt8)} {ref : StringRef}
    (evolves : Evolves first log heap) (before : first.Live ref) (after : heap.Live ref) :
    heap.bytes? ref = first.bytes? ref := by
  obtain ⟨bytes, live⟩ := before
  obtain ⟨content, later⟩ := after
  rw [later, evolves.bytes?_of_lt later (lt_next_of_bytes? live)]

end StringHeap

namespace ContentMap

variable {V : Type} {heap : StringHeap} {map : ContentMap V}

/-- A map finds the same values on a heap that gives its keys the same contents. -/
theorem Sound.getBytes?_congr {after : StringHeap} (balanced : Balanced map)
    (sound : Sound heap map)
    (same : ∀ key ∈ map.keys, after.bytes? key = heap.bytes? key) (bytes : List UInt8) :
    map.getBytes? after bytes = map.getBytes? heap bytes := by
  have entries_eq : map.entry? after (.ofBytes bytes) = map.entry? heap (.ofBytes bytes) := by
    apply Option.ext
    rintro ⟨key, value⟩
    rw [(sound.of_bytes?_eq same).entry?_ofBytes_eq_some_iff balanced,
      sound.entry?_ofBytes_eq_some_iff balanced]
    refine and_congr_right fun member => ?_
    rw [same key (List.mem_map_of_mem member)]
  rw [getBytes?, getBytes?, entries_eq]

/-- A put changes what is found under one content. -/
theorem Sound.getBytes?_of_put {result : ContentMap V} {key : StringRef} {value : V}
    {previous : Option V} {bytes : List UInt8} (balanced : Balanced map) (sound : Sound heap map)
    (hashed : heap.Hashed) (live : heap.bytes? key = some bytes)
    (done : map.put heap key value = .ok (previous, result)) (other : List UInt8) :
    result.getBytes? heap other =
      if other = bytes then some value else map.getBytes? heap other := by
  let model : Model V := ⟨heap, fun content => map.entry? heap (.ofBytes content)⟩
  have simulates : Simulates ⟨heap, map⟩ model :=
    ⟨rfl, hashed, balanced, sound, fun _ _ _ => sound.entry?_ofBytes_eq_some_iff balanced⟩
  have found := (simulates.put key value).2.entry?_eq other
  simp only [Session.perform, done, Model.perform, model, live, Contents.assign] at found
  rw [getBytes?, getBytes?, found]
  split <;> rfl

end ContentMap

/-- Calls that set no global and carry out no instruction. -/
def Call.isQuiet : Call → Bool
  | .setGlobal _ _ | .step | .run _ => false
  | _ => true

theorem latestWrite?_append (name : List UInt8) (early late : List Global) :
    latestWrite? name (early ++ late) = (latestWrite? name late).or (latestWrite? name early) := by
  rw [latestWrite?, List.filter_append, List.getLast?_append]
  rfl

namespace Machine

variable {machine before middle after : Machine} {fuel : Nat}

/-! ## What writes do -/

/-- The global of a name. -/
def global? (machine : Machine) (name : List UInt8) : Option Global :=
  (machine.globals.getBytes? machine.heap name).map fun value =>
    ⟨name, value, machine.bytes? value⟩

/-- The globals after a change are those that it wrote and, for the rest, those before. -/
def Wrote (writes : List Global) (before after : Machine) : Prop :=
  ∀ name, after.global? name = (latestWrite? name writes).or (before.global? name)

theorem Wrote.trans {early late : List Global} (first : Wrote early before middle)
    (second : Wrote late middle after) : Wrote (early ++ late) before after := by
  intro name
  rw [second name, first name, latestWrite?_append, Option.or_assoc]

/-- The table of globals is left alone. -/
def KeepsGlobals (before after : Machine) : Prop :=
  after.globals = before.globals

instance : Routine KeepsGlobals where
  refl _ := rfl
  trans _ _ _ early late := Eq.trans late early
  stack _ _ _ := rfl
  natives _ _ := rfl
  sink _ _ := rfl
  pool _ _ := rfl
  lastError _ _ := rfl
  stored _ _ := rfl

/-- A change that leaves the table alone and frees no string that is held writes nothing. -/
theorem wrote_nil (intact : before.Intact true) (followed : Follows true before after)
    (kept : KeepsGlobals before after) : Wrote [] before after := by
  obtain ⟨intact_after, log, evolves⟩ := followed intact
  -- The strings of the table are held on both sides, hence live there.
  have content_eq {ref : StringRef} {entry : StringRef × Value}
      (member : entry ∈ before.globals.entries)
      (part : entry.1 = ref ∨ entry.2 = .string ref) :
      after.heap.bytes? ref = before.heap.bytes? ref := by
    have held := mem_held_iff.mpr (.inr (.inl ⟨entry, member, part⟩))
    have held_after : ref ∈ after.held := by
      rw [← kept] at member
      exact mem_held_iff.mpr (.inr (.inl ⟨entry, member, part⟩))
    exact evolves.bytes?_eq (intact.live_of_mem_held held)
      (intact_after.live_of_mem_held held_after)
  have found (name : List UInt8) : after.globals.getBytes? after.heap name =
      before.globals.getBytes? before.heap name := by
    rw [kept]
    apply intact.globals_sound.getBytes?_congr intact.globals_balanced
    intro key stored
    obtain ⟨entry, member, rfl⟩ := List.mem_map.mp stored
    exact content_eq member (.inl rfl)
  intro name
  rw [global?, found name]
  cases value_eq : before.globals.getBytes? before.heap name with
  | none => simp [latestWrite?, global?, value_eq]
  | some value =>
      obtain ⟨key, member⟩ :=
        intact.globals_sound.exists_mem_of_getBytes? intact.globals_balanced value_eq
      have same : after.bytes? value = before.bytes? value := by
        cases value with
        | string ref => exact content_eq member (.inr rfl)
        | _ => rfl
      simp [latestWrite?, global?, value_eq, same]

/-- A put under a live key writes the global of its content. -/
theorem wrote_of_put {key : StringRef} {value : Value} {name : List UInt8} {previous : Option Value}
    (intact : before.Intact true) (live : before.heap.bytes? key = some name)
    (heap_eq : after.heap = before.heap)
    (done : before.globals.put before.heap key value = .ok (previous, after.globals)) :
    Wrote [⟨name, value, before.bytes? value⟩] before after := by
  intro other
  have found :=
    intact.globals_sound.getBytes?_of_put intact.globals_balanced intact.hashed live done other
  have content_eq : after.bytes? = before.bytes? := by
    funext value
    rw [bytes?, bytes?, heap_eq]
  rw [global?, global?, heap_eq, content_eq, found]
  by_cases same : other = name
  · simp [latestWrite?, same]
  · simp [latestWrite?, same, Ne.symm same]

/-! ## Calls that write nothing -/

theorem within_install_keepsGlobals (program : Program) :
    (install program).Within KeepsGlobals fun _ => True := by
  intro machine
  have rest {after : Machine} (enriched : Enriched machine after) : KeepsGlobals machine after := by
    obtain ⟨_, _, _, rfl⟩ := enriched.rest
    rfl
  exact ((ensures_addConstants_added machine program.strings).mono
    (fun _ _ held => ⟨rest held.1, trivial⟩) fun _ _ held => rest held.1).bind fun _ _ kept => kept

theorem conduct_keepsGlobals : Conduct (fun call => call.isQuiet = true) KeepsGlobals where
  assigned permitted := nomatch permitted
  load image _ := Routine.within_load within_install_keepsGlobals image
  loadProgram program _ := Routine.within_loadProgram (within_install_keepsGlobals program)
  reset _ := Routine.within_outside _ fun _ => (rfl : KeepsGlobals _ _)
  collect _ := rfl
  setMode _ _ _ := rfl
  setThreshold _ _ := rfl
  runs permitted := nomatch permitted
  step permitted := nomatch permitted
  refused converted := converted
  returned _ converted ran := ran.trans converted

/-! ## Stores -/

/-- A store that succeeds makes the write announced, and one that fails makes none. -/
theorem ensures_storeGlobal_wrote {index : UInt32} (intact : machine.Intact true)
    (fetched : machine.fetch = .ok (.storeGlobal index)) :
    (storeGlobal index).Ensures machine (fun _ after => KeepsGlobals machine after)
      fun flow after => flow = .next ∧
        ∃ write, machine.storing? = some write ∧ Wrote [write] machine after := by
  refine (ensures_constant fun _ => rfl).bind fun key start found => ?_
  obtain ⟨rfl, constant⟩ := found
  have same : KeepsGlobals start start := Std.Refl.refl start
  refine (ensures_popOperand .storeGlobal fun _ => same).bind fun value popped held => ?_
  obtain ⟨stack, done, rfl⟩ := held
  refine .get_bind (.ofStorage_bind (fun _ => rfl) fun stored put => .set_bind ⟨rfl, ?_⟩)
  obtain ⟨name, live⟩ := intact.constants key (List.mem_of_getElem? constant)
  refine ⟨⟨name, value, start.bytes? value⟩, ?_, wrote_of_put intact live rfl put⟩
  simp [storing?, fetched, constant, live, OperandStack.toList_of_pop done]

/-- An instruction other than a store writes nothing. -/
theorem ensures_execute_keepsGlobals {instruction : Instruction} (intact : machine.Intact true)
    (other : ∀ index, instruction ≠ .storeGlobal index) :
    (execute (invoke fuel) instruction).Ensures machine (fun _ after => KeepsGlobals machine after)
      fun _ after => KeepsGlobals machine after := by
  have executed : (execute (invoke fuel) instruction).Ensures machine
      (fun _ after => KeepsGlobals machine after ∧ True) fun _ after =>
        KeepsGlobals machine after := by
    apply ensures_execute (fun _ _ => trivial) (fun _ _ _ => trivial)
    · exact fun index same => absurd same (other index)
    · intro index count key entry _ _ registered
      have called := (conduct_keepsGlobals.behaves_invoke fuel).called intact
        (.inl ⟨key, registered⟩) (machine.stack.top count.toNat)
      exact ensures_enterNative (called { machine with inNative := true })
  exact executed.mono (fun _ _ held => held.1) fun _ _ => id

/-- An instruction makes the write announced if it succeeds, and otherwise none. -/
theorem ensures_executeNext_wrote (intact : machine.Intact true) :
    (executeNext (invoke fuel)).Ensures machine (fun _ after => KeepsGlobals machine after)
      fun exit after => machine.storing? = none ∧ KeepsGlobals machine after ∨
        exit = .continued ∧
          ∃ write, machine.storing? = some write ∧ Wrote [write] machine after := by
  refine ensures_executeNext (fun _ _ => rfl) fun instruction fetched => ?_
  by_cases store : ∃ index, instruction = .storeGlobal index
  · obtain ⟨index, rfl⟩ := store
    apply (Action.ensures_lift (ensures_storeGlobal_wrote intact fetched)).mono (fun _ _ => id)
    rintro flow after ⟨rfl, write, announced, wrote⟩
    exact .inr ⟨rfl, write, announced, wrote⟩
  · have other (index : UInt32) : instruction ≠ .storeGlobal index :=
      fun same => store ⟨index, same⟩
    have unannounced : machine.storing? = none := by
      rw [storing?, fetched]
      cases instruction with
      | storeGlobal index => exact absurd rfl (other index)
      | _ => rfl
    apply (ensures_execute_keepsGlobals intact other).mono (fun _ _ => id)
    intro flow after kept
    cases flow <;> exact .inl ⟨unannounced, kept⟩

/-! ## Steps and runs -/

theorem follows_swept : Follows true machine machine.swept :=
  swept_elim (Std.Refl.refl machine) follows_collect

theorem keepsGlobals_swept : KeepsGlobals machine machine.swept :=
  swept_elim rfl rfl

/-- What an instruction writes hangs on strings that are held. -/
theorem storing?_collect (machine : Machine) : machine.collect.2.storing? = machine.storing? := by
  have content_eq {ref : StringRef} (held : ref ∈ machine.held) :
      machine.collect.2.heap.bytes? ref = machine.heap.bytes? ref :=
    Collector.bytes?_collect machine.heap (mem_roots_of_mem_held held)
  have names (index : Nat) :
      machine.program.constants[index]?.bind machine.collect.2.heap.bytes? =
        machine.program.constants[index]?.bind machine.heap.bytes? := by
    apply Option.bind_congr
    intro key constant
    exact content_eq (mem_held_iff.mpr (.inr (.inr (.inr (List.mem_of_getElem? constant)))))
  have values (name : List UInt8) :
      (machine.stack.toList.getLast?.map fun value =>
        Global.mk name value (machine.collect.2.bytes? value)) =
        machine.stack.toList.getLast?.map fun value => ⟨name, value, machine.bytes? value⟩ := by
    apply Option.map_congr
    intro value last
    cases value with
    | string ref =>
        have held := mem_held_iff.mpr (.inl (List.mem_of_getLast? last))
        simp [bytes?, Value.string?, content_eq held]
    | _ => rfl
  have fetch_eq : machine.collect.2.fetch = machine.fetch := rfl
  rw [storing?, storing?, fetch_eq]
  cases machine.fetch with
  | error error => rfl
  | ok instruction =>
      cases instruction with
      | storeGlobal index =>
          refine Eq.trans (congrArg (Option.bind · _) (names index.toNat)) ?_
          exact Option.bind_congr fun name _ => values name
      | _ => rfl

theorem storing?_swept (machine : Machine) : machine.swept.storing? = machine.storing? :=
  swept_elim (motive := fun after => after.storing? = machine.storing?) rfl
    (storing?_collect machine)

/-- A step changes the table by the write announced or not at all. -/
theorem ensures_stepWith_announced (intact : machine.Intact true) :
    (stepWith (invoke fuel)).Ensures machine (fun _ after => KeepsGlobals machine after)
      fun exit after =>
        KeepsGlobals machine after ∧ (exit = .continued → machine.storing? = none) ∨
          exit = .continued ∧
            ∃ write, machine.storing? = some write ∧ Wrote [write] machine after := by
  have swept_intact : machine.swept.Intact true := (follows_swept intact).1
  refine ensures_stepWith (fun _ _ _ => rfl) (fun _ => .inl ⟨rfl, nofun⟩) (fun _ => rfl)
    (fun _ _ _ => rfl) fun _ _ => ?_
  apply (ensures_executeNext_wrote swept_intact).mono
  · exact fun _ _ kept => Eq.trans kept keepsGlobals_swept
  · rintro exit after (⟨unannounced, kept⟩ | ⟨continued, write, announced, wrote⟩)
    · rw [storing?_swept] at unannounced
      exact .inl ⟨Eq.trans kept keepsGlobals_swept, fun _ => unannounced⟩
    · rw [storing?_swept] at announced
      have swept := wrote_nil intact follows_swept keepsGlobals_swept
      exact .inr ⟨continued, write, announced, swept.trans wrote⟩

/-- A step makes the write announced if it goes on, and otherwise none. -/
theorem ensures_stepWith_wrote (intact : machine.Intact true) :
    (stepWith (invoke fuel)).Ensures machine (fun _ after => Wrote [] machine after)
      fun exit after =>
        Wrote (if exit = .continued then machine.storing?.toList else []) machine after := by
  have followed := keeps_stepWith (careful_invoke fuel) intact
  apply (Action.Ensures.and followed (ensures_stepWith_announced intact)).mono
  · exact fun _ _ held => wrote_nil intact held.1 held.2
  · rintro exit after ⟨⟨follows, _⟩, ⟨kept, unannounced⟩ | ⟨rfl, write, announced, wrote⟩⟩
    · have writes_eq : (if exit = .continued then machine.storing?.toList else []) = [] := by
        split
        · rw [unannounced ‹_›]
          rfl
        · rfl
      rw [writes_eq]
      exact wrote_nil intact follows kept
    · rw [if_pos rfl, announced]
      exact wrote

/-- A run makes the writes of its steps. -/
theorem wrote_of_runFor {count : Nat} {result : Except MachineError RunExit}
    (intact : machine.Intact true)
    (ended : (runFor (invoke fuel) count).apply machine = some (result, after)) :
    Wrote (runWrites (invoke fuel) count machine) machine after := by
  induction count generalizing machine with
  | zero =>
      cases ended
      exact fun _ => rfl
  | succ count induction =>
      rw [runFor, Action.apply_bind] at ended
      rw [runWrites]
      rcases stepped : (stepWith (invoke fuel)).apply machine with _ | ⟨error | exit, middle⟩
      · rw [stepped] at ended
        cases ended
      · rw [stepped] at ended
        cases ended
        exact ensures_stepWith_wrote intact _ stepped
      · rw [stepped] at ended
        have wrote := ensures_stepWith_wrote intact _ stepped
        cases exit with
        | halted =>
            cases ended
            exact wrote
        | continued =>
            have followed := (keeps_stepWith (careful_invoke fuel) intact).related stepped
            exact Wrote.trans wrote (induction (followed intact).1 ended)

theorem exists_apply_runFor_one {natives : Invoker} {result : Except MachineError StepExit}
    (ended : (stepWith natives).apply machine = some (result, after)) :
    ∃ exit, (runFor natives 1).apply machine = some (exit, after) := by
  rw [runFor, Action.apply_bind, ended]
  rcases result with error | _ | _ <;> exact ⟨_, rfl⟩

/-- A run makes the steps that its limit allows, or else its fuel. -/
theorem apply_runFor_of_run {limit : Nat} {result : Except MachineError RunExit}
    (ended : (run fuel limit).apply machine = some (result, after)) :
    (runFor (invoke fuel) (if limit = 0 then fuel else limit)).apply machine =
      some (result, after) := by
  by_cases unlimited : limit = 0
  · rw [if_pos unlimited]
    subst unlimited
    exact (apply_run_zero_eq_some_iff.mp ended).2
  · rw [if_neg unlimited]
    rwa [run_of_pos (Nat.pos_of_ne_zero unlimited)] at ended

/-! ## Setting globals -/

theorem ensures_allocate (machine : Machine) (bytes : List UInt8) :
    (allocate bytes).Ensures machine (fun _ after => after = machine) fun ref after =>
      Extends true machine after ∧ KeepsGlobals machine after ∧
        after.heap.bytes? ref = some bytes := by
  refine .ofStorage_bind (fun _ => rfl) fun _ _ => ?_
  exact ⟨extends_store bytes _, rfl, by rw [StringHeap.bytes?_store, if_pos rfl]⟩

theorem bytes?_of_preserves {value : Value} (live : value.LiveIn before.heap)
    (preserved : before.heap.Preserves after.heap) : after.bytes? value = before.bytes? value := by
  cases value with
  | string ref =>
      obtain ⟨bytes, content⟩ := Value.liveIn_string.mp live
      exact (preserved ref bytes content).trans content.symm
  | _ => rfl

/-- A global is set under the key it has, or under a new one. -/
theorem ensures_setGlobal_wrote (intact : machine.Intact true) (name : String) (value : Value) :
    (setGlobal name value).Ensures machine
      (fun _ after => KeepsGlobals machine after) fun _ after =>
      Wrote [⟨Utf8.encode name.toList, value, machine.bytes? value⟩] machine after := by
  have checked : (requireLive value).Keeps KeepsGlobals machine fun _ after =>
      value.LiveIn after.heap ∧ after = machine := keeps_requireLive value
  refine Update.Ensures.recorded (Update.Ensures.bind checked fun _ start held => .get_bind ?_)
  obtain ⟨_, live, rfl⟩ := held
  -- Once there is a key, found or allocated, all that is left is the put.
  have put (key : StringRef) (middle : Machine) (extended : Extends true start middle)
      (kept : KeepsGlobals start middle)
      (content : middle.heap.bytes? key = some (Utf8.encode name.toList)) :
      (do
        let machine ← get
        let stored ← Update.ofStorage (machine.globals.put machine.heap key value)
        set { machine with globals := stored.2 } : Update Unit).Ensures middle
          (fun _ after => KeepsGlobals start after) fun _ after =>
            Wrote [⟨Utf8.encode name.toList, value, start.bytes? value⟩] start after := by
    obtain ⟨middle_intact, _, preserved⟩ := extended intact
    refine .get_bind (.ofStorage_bind (fun _ => kept) fun stored done => ?_)
    rw [← bytes?_of_preserves live preserved]
    have wrote : Wrote [⟨Utf8.encode name.toList, value, middle.bytes? value⟩] middle
        { middle with globals := stored.2 } := wrote_of_put middle_intact content rfl done
    exact (wrote_nil intact extended.follows kept).trans wrote
  cases found : start.globals.keyOfBytes? start.heap (Utf8.encode name.toList) with
  | some key =>
      obtain ⟨entry, stored, rfl⟩ := Option.map_eq_some_iff.mp found
      have content :=
        ((intact.globals_sound.entry?_ofBytes_eq_some_iff intact.globals_balanced).mp stored).2
      exact put entry.1 start (Std.Refl.refl start) rfl content
  | none =>
      refine Update.Ensures.bind ((ensures_allocate start _).mono ?_ fun _ _ => id) ?_
      · rintro _ _ rfl
        rfl
      · rintro key middle ⟨extended, kept, content⟩
        exact put key middle extended kept content

/-! ## Requests -/

/-- A request that only looks at an outcome leaves the machine as the action does. -/
theorem exists_apply_of_attempt {α : Type} {action : Action α} {result : Except MachineError Unit}
    (served : (do let _ ← Action.attempt action : Action Unit).apply machine =
      some (result, after)) :
    ∃ outcome, action.apply machine = some (outcome, after) := by
  rw [Action.apply_bind, Action.apply_attempt] at served
  rcases ended : action.apply machine with _ | ⟨outcome, last⟩
  · rw [ended] at served
    cases served
  · rw [ended] at served
    cases served
    exact ⟨outcome, rfl⟩

/-- A request makes the writes listed for it. -/
theorem wrote_of_request {request : Request} {result : Except MachineError Unit}
    (intact : machine.Intact true) (admitted : request.Admitted true)
    (served : (request.serve (invoke fuel) fuel).apply machine = some (result, after)) :
    Wrote (request.writes (invoke fuel) fuel machine) machine after := by
  have followed : Follows true machine after :=
    (keeps_serve (careful_invoke fuel) fuel admitted intact).related served
  have quiet (silent : ∀ call, request = .call call → call.isQuiet = true) :
      Wrote [] machine after :=
    wrote_nil intact followed ((conduct_keepsGlobals.keeps_serve
      (conduct_keepsGlobals.behaves_invoke fuel) fuel silent intact).related served)
  cases request with
  | register name signature native => exact quiet nofun
  | call call =>
      cases call with
      | setGlobal name value =>
          obtain ⟨outcome, ended⟩ := exists_apply_of_attempt served
          have applied : (setGlobal name value).apply machine = (outcome, after) :=
            Option.some.inj ended
          have wrote := ensures_setGlobal_wrote intact name value
          rw [Update.Ensures, applied] at wrote
          rw [Request.writes, applied]
          cases outcome with
          | error error => exact wrote_nil intact followed wrote
          | ok _ => exact wrote
      | step =>
          obtain ⟨outcome, ended⟩ := exists_apply_of_attempt served
          obtain ⟨exit, ran⟩ := exists_apply_runFor_one ended
          exact wrote_of_runFor intact ran
      | run limit =>
          obtain ⟨outcome, ended⟩ := exists_apply_of_attempt served
          exact wrote_of_runFor intact (apply_runFor_of_run ended)
      | _ => exact quiet (by rintro _ ⟨⟩; rfl)

/-- Requests make the writes listed for them. -/
theorem wrote_of_serve {requests : List (Nat × Request)} (intact : machine.Intact true)
    (admitted : ∀ request ∈ requests, request.2.Admitted true)
    (served : serve invoke requests machine = some after) :
    Wrote (writes invoke requests machine) machine after := by
  induction requests generalizing machine with
  | nil =>
      cases served
      exact fun _ => rfl
  | cons request rest induction =>
      obtain ⟨fuel, request⟩ := request
      obtain ⟨⟨result, middle⟩, ended, served⟩ := Option.bind_eq_some_iff.mp served
      rw [List.forall_mem_cons] at admitted
      have followed := (keeps_serve (careful_invoke fuel) fuel admitted.1 intact).related ended
      have later := induction (followed intact).1 admitted.2 served
      rw [writes, ended]
      exact (wrote_of_request intact admitted.1 ended).trans later

theorem global?_of_create {config : MachineConfig} (created : create config = .ok machine)
    (name : List UInt8) : machine.global? name = none := by
  obtain ⟨stack, _, kept⟩ := Routine.of_create KeepsGlobals created
  rw [global?, kept]
  rfl

theorem apply_getGlobal (machine : Machine) (name : String) :
    (getGlobal name).apply machine =
      match machine.globals.getBytes? machine.heap (Utf8.encode name.toList) with
      | some value => (.ok value, machine)
      | none => (.error (.notFound "global" name), machine.remember (.notFound "global" name)) := by
  have got : (get : Update Machine).apply machine = (.ok machine, machine) := rfl
  rw [getGlobal, Update.apply_recorded, Update.apply_bind, got]
  dsimp only
  cases machine.globals.getBytes? machine.heap (Utf8.encode name.toList) <;> rfl

/-- After any requests to a new machine whose natives are the builtins, a global has the value of
the latest write to its name, a string among these being live with the content it was written with;
a name that was never written to has no global. -/
theorem getGlobal_eq_latestWrite {config : MachineConfig} {start final : Machine}
    {requests : List (Nat × Request)} (created : create config = .ok start)
    (admitted : ∀ request ∈ requests, request.2.Admitted true)
    (served : serve invoke requests start = some final) (name : String) :
    match latestWrite? (Utf8.encode name.toList) (writes invoke requests start) with
    | some write => (getGlobal name).apply final = (.ok write.value, final) ∧
        write.value.LiveIn final.heap ∧ final.bytes? write.value = write.content
    | none => (getGlobal name).apply final =
        (.error (.notFound "global" name), final.remember (.notFound "global" name)) := by
  have intact : start.Intact true := (intact_of_create created).1
  have final_intact := (follows_of_serve careful_invoke admitted served intact).1
  have wrote := wrote_of_serve intact admitted served (Utf8.encode name.toList)
  rw [global?_of_create created, Option.or_none] at wrote
  rw [← wrote, global?, apply_getGlobal]
  cases found : final.globals.getBytes? final.heap (Utf8.encode name.toList) with
  | none => rfl
  | some value => exact ⟨rfl, final_intact.liveIn_of_getBytes? found, rfl⟩

/-- Two programs that store under one name, the second what a builtin gives and until it fails, with
enough names set in between for the table to grow. -/
def rewriting : List (Nat × Request) :=
  [(0, .register "t" none (.builtin .typeName)),
    (0, .call (.loadProgram ⟨[[103]], [Instruction.pushString 0, .dup, .add, .storeGlobal 0,
      .halt].flatMap Instruction.encode⟩)),
    (9, .call (.run 0))] ++
  (["a", "b", "c", "d", "e"].map fun name => (0, .call (.setGlobal name .nil))) ++
  [(0, .call (.loadProgram ⟨[[116], [103]], [Instruction.pushNil, .callNative 0 1, .storeGlobal 1,
      .add].flatMap Instruction.encode⟩)),
    (9, .call (.run 0)), (0, .call .reset), (0, .call .collect)]

theorem getGlobal_eq_latestWrite_across_programs :
    ∃ start final, create eagerConfig = .ok start ∧ serve invoke rewriting start = some final ∧
      final.globals.capacity = 16 ∧ final.collector.totalFreed = 1 ∧
      (getGlobal "g").apply final = (.ok (.string ⟨10⟩), final) ∧
      final.bytes? (.string ⟨10⟩) = some (Utf8.encode "nil".toList) ∧
      (getGlobal "z").apply final =
        (.error (.notFound "global" "z"), final.remember (.notFound "global" "z")) := by
  have ran : ((create eagerConfig).toOption.bind fun start =>
      (serve invoke rewriting start).map fun final =>
        ((final.globals.capacity, final.collector.totalFreed),
          latestWrite? (Utf8.encode "g".toList) (writes invoke rewriting start),
          latestWrite? (Utf8.encode "z".toList) (writes invoke rewriting start))) =
      some ((16, 1), some ⟨[103], .string ⟨10⟩, some (Utf8.encode "nil".toList)⟩, none) := by
    decide +kernel
  simp only [Option.bind_eq_some_iff, Option.map_eq_some_iff, Prod.mk.injEq,
    toOption_eq_some_iff] at ran
  obtain ⟨start, created, final, served, ⟨capacity, freed⟩, latest, absent⟩ := ran
  have admitted : ∀ request ∈ rewriting, request.2.Admitted true := by
    simp [rewriting, Request.Admitted, Native.Admitted]
  have answered := getGlobal_eq_latestWrite created admitted served
  have written := answered "g"
  have unwritten := answered "z"
  rw [latest] at written
  rw [absent] at unwritten
  exact ⟨start, final, created, served, capacity, freed, written.1, written.2.2, unwritten⟩

end Machine

end StackMachine
