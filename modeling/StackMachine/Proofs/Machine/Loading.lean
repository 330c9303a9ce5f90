import StackMachine.Proofs.Machine.Placement
import StackMachine.Proofs.StringPool

/-!
# Loading is all or nothing

A program is loaded when no native called by the program is under way and it is well formed, and
otherwise only the record of failures changes.  After a load the machine is at the start of the new
program with an empty stack.  No string is freed, every constant is on the heap under the eye of the
collector, and equal constants are one string exactly when constants are shared.
-/

namespace StackMachine

/-! ## The collector -/

namespace Collector

/-- The collector has an entry for a string. -/
def Tracks (collector : Collector) (ref : StringRef) : Prop :=
  ∃ entry, collector.get? ref = some entry ∧ entry.ref = ref

theorem Indexed.tracks_iff {collector : Collector} (indexed : collector.Indexed) {ref : StringRef} :
    collector.Tracks ref ↔ collector.index.contains ref.id = true := by
  rw [indexed.contains_iff]
  constructor
  · rintro ⟨entry, found, ref_eq⟩
    obtain ⟨⟨position, _⟩, there, rfl⟩ := Option.map_eq_some_iff.mp found
    exact ⟨_, Array.mem_of_getElem? (indexed.find?_eq_some_iff.mp there).1, ref_eq⟩
  · rintro ⟨entry, member, ref_eq⟩
    obtain ⟨position, there⟩ := Array.getElem?_of_mem member
    have found := indexed.find?_eq_some_iff.mpr ⟨there, ref_eq⟩
    exact ⟨entry, by rw [get?, found]; rfl, ref_eq⟩

end Collector

namespace Machine

theorem index_releaseConstants (collector : Collector) (old current : List StringRef) :
    (releaseConstants collector old current).index = collector.index := by
  unfold releaseConstants
  induction old.filter fun ref => !current.contains ref generalizing collector with
  | nil => rfl
  | cons ref rest induction => rw [List.foldl_cons, induction, Collector.index_adopt]

theorem current_releaseConstants {collector : Collector} {heap : StringHeap}
    (current : collector.Current heap) (old kept : List StringRef) :
    (releaseConstants collector old kept).Current heap := by
  unfold releaseConstants
  induction old.filter fun ref => !kept.contains ref generalizing collector with
  | nil => exact current
  | cons ref rest induction => exact induction (current.adopt ref)

variable {machine before middle after : Machine} {program : Program}

/-! ## Adding constants -/

/-- Strings are added to the heap, the pool and the collector, and nothing else changes. -/
structure Enriched (before after : Machine) : Prop where
  rest : ∃ heap pool collector, after = { before with heap, pool, collector }
  heap : before.heap.Preserves after.heap
  hashed : before.heap.Hashed → after.heap.Hashed
  pool : ∀ bytes ref, before.pool.lookup? before.heap bytes = some ref →
    after.pool.lookup? after.heap bytes = some ref
  current : before.collector.Current before.heap → after.collector.Current after.heap
  entries : ∀ entry ∈ before.collector.entries, entry ∈ after.collector.entries

instance : Std.Refl Enriched where
  refl _ := ⟨⟨_, _, _, rfl⟩, .refl _, id, fun _ _ => id, id, fun _ => id⟩

instance : IsTrans Machine Enriched where
  trans _ _ _ early late := by
    obtain ⟨_, _, _, middle_eq⟩ := early.rest
    obtain ⟨_, _, _, after_eq⟩ := late.rest
    refine
      { rest := ⟨_, _, _, after_eq.trans (by rw [middle_eq])⟩
        heap := early.heap.trans late.heap
        hashed := fun hashed => late.hashed (early.hashed hashed)
        pool := fun bytes ref known => late.pool bytes ref (early.pool bytes ref known)
        current := fun current => late.current (early.current current)
        entries := fun entry member => late.entries entry (early.entries entry member) }

theorem Enriched.sharesConstants (enriched : Enriched before after) :
    after.sharesConstants = before.sharesConstants := by
  obtain ⟨_, _, _, rfl⟩ := enriched.rest
  rfl

/-- What is known of constants after they were added to a machine. -/
structure Added (before : Machine) (contents : List (List UInt8)) (refs : List StringRef)
    (after : Machine) : Prop where
  held : List.Forall₂ (fun ref bytes => after.heap.bytes? ref = some bytes) refs contents
  tracked : before.collector.Current before.heap →
    ∀ ref ∈ refs, ∃ entry ∈ after.collector.entries, entry.ref = ref
  /-- Shared constants are the strings that stand for their contents. -/
  shared : before.sharesConstants = true →
    List.Forall₂ (fun ref bytes => after.pool.lookup? after.heap bytes = some ref) refs contents
  /-- Constants that are not shared are new strings. -/
  apart : before.sharesConstants = false →
    refs.map StringRef.id = List.range' before.heap.strings.next refs.length ∧
      after.heap.strings.next = before.heap.strings.next + refs.length

theorem Added.append {contents contents' : List (List UInt8)} {refs refs' : List StringRef}
    (early : Added before contents refs middle) (enriched : Enriched before middle)
    (late : Added middle contents' refs' after) (enriched' : Enriched middle after) :
    Added before (contents ++ contents') (refs ++ refs') after where
  held := List.rel_append (early.held.imp fun ref bytes => enriched'.heap ref bytes) late.held
  tracked current ref member := by
    rcases List.mem_append.mp member with first | second
    · obtain ⟨entry, inside, ref_eq⟩ := early.tracked current ref first
      exact ⟨entry, enriched'.entries entry inside, ref_eq⟩
    · exact late.tracked (enriched.current current) ref second
  shared shares := by
    have first := (early.shared shares).imp fun ref bytes => enriched'.pool bytes ref
    exact List.rel_append first (late.shared (enriched.sharesConstants.trans shares))
  apart separate := by
    obtain ⟨first_ids, first_next⟩ := early.apart separate
    obtain ⟨second_ids, second_next⟩ := late.apart (enriched.sharesConstants.trans separate)
    rw [List.map_append, first_ids, second_ids, first_next, List.length_append, second_next,
      first_next, Nat.add_assoc]
    exact ⟨by rw [← List.range'_append_1], rfl⟩

/-- Strings of which none is too long to be put on the heap. -/
def Fit (contents : List (List UInt8)) : Prop :=
  ∀ bytes ∈ contents, bytes.length ≤ StringHeap.maxLength

/-- A string that is put on the heap is new there, and the collector is told. -/
theorem enriched_store (machine : Machine) (bytes : List UInt8) (owned : Bool) :
    Enriched machine { machine with
      heap := machine.heap.store bytes
      collector :=
        (machine.collector.insert ⟨machine.heap.nextRef, owned⟩ machine.heap.nextSlot).2 } where
  rest := ⟨_, machine.pool, _, rfl⟩
  heap := machine.heap.preserves_store bytes
  hashed hashed := hashed.store bytes
  pool content ref known := by
    obtain ⟨listed, stored⟩ := StringPool.lookup?_eq_some_iff.mp known
    exact StringPool.lookup?_eq_some_iff.mpr
      ⟨listed, machine.heap.preserves_store bytes ref content stored⟩
  current current := current.insert_store bytes owned
  entries _ := Collector.mem_insert_of_mem

/-- A string that is interned is found or put on the heap, and the collector is told. -/
theorem enriched_interned {bytes : List UInt8} {interned : StringPool.Interned}
    (done : machine.pool.intern machine.heap bytes = .ok interned) :
    Enriched machine { machine with
      heap := interned.heap
      pool := interned.pool
      collector :=
        (machine.collector.trackBorrowed interned.ref (interned.heap.slotOf interned.ref)).2 } where
  rest := ⟨_, _, _, rfl⟩
  heap := by
    rcases StringPool.intern_cases done with ⟨_, _, rfl⟩ | ⟨_, rfl⟩
    · exact .refl _
    · exact machine.heap.preserves_store bytes
  hashed hashed := by
    rcases StringPool.intern_cases done with ⟨_, _, rfl⟩ | ⟨_, rfl⟩
    · exact hashed
    · exact hashed.store bytes
  pool := (StringPool.lookup?_of_intern done).2
  current current := by
    rcases StringPool.intern_cases done with ⟨_, content, rfl⟩ | ⟨_, rfl⟩
    · exact current.insert ⟨bytes, content⟩ false
    · rw [StringHeap.slotOf_nextRef_store]
      exact current.insert_store bytes false
  entries _ := Collector.mem_insert_of_mem

/-- A constant can be added unless it is too long. -/
theorem ensures_addConstant_added (machine : Machine) (bytes : List UInt8) :
    (addConstant bytes).Ensures machine (fun _ after => Enriched machine after ∧ ¬Fit [bytes])
      fun ref after => Enriched machine after ∧ Added machine [bytes] [ref] after := by
  refine .get_bind ?_
  cases shares : machine.sharesConstants with
  | true =>
      refine .get_bind ?_
      cases done : machine.pool.intern machine.heap bytes with
      | error reason =>
          refine ⟨Std.Refl.refl machine, fun fit => ?_⟩
          obtain ⟨interned, found⟩ := StringPool.exists_intern_eq_ok machine.pool machine.heap
            (fit bytes List.mem_cons_self)
          cases done.symm.trans found
      | ok interned =>
          refine ⟨enriched_interned done, ?_⟩
          have stands := (StringPool.lookup?_of_intern done).1
          exact
            { held := .cons (StringPool.lookup?_eq_some_iff.mp stands).2 .nil
              tracked := fun current => List.forall_mem_singleton.mpr
                (current.indexed.exists_mem_insert _ _)
              shared := fun _ => .cons stands .nil
              apart := fun separate => by cases shares.symm.trans separate }
  | false =>
      change (allocateWith Collector.trackBorrowed bytes).Ensures machine _ _
      rw [allocateWith]
      cases checked : StringHeap.checkLength bytes with
      | error reason =>
          refine ⟨Std.Refl.refl machine, fun fit => ?_⟩
          have short := Nat.not_lt.mpr (fit bytes List.mem_cons_self)
          rw [StringHeap.checkLength, if_neg short] at checked
          cases checked
      | ok _ =>
          refine ⟨enriched_store machine bytes false, ?_⟩
          exact
            { held := .cons (by rw [StringHeap.bytes?_store, if_pos rfl]) .nil
              tracked := fun current => List.forall_mem_singleton.mpr
                (current.indexed.exists_mem_insert _ _)
              shared := fun shared => by cases shares.symm.trans shared
              apart := fun _ => ⟨rfl, HandleTable.next_append _ _⟩ }

/-- Constants can be added unless one of them is too long. -/
theorem ensures_addConstants_added (machine : Machine) (contents : List (List UInt8)) :
    (addConstants contents).Ensures machine (fun _ after => Enriched machine after ∧ ¬Fit contents)
      fun refs after => Enriched machine after ∧ Added machine contents refs after := by
  induction contents generalizing machine with
  | nil => exact ⟨Std.Refl.refl machine, .nil, fun _ => nofun, fun _ => .nil, fun _ => ⟨rfl, rfl⟩⟩
  | cons bytes rest induction =>
      have head_long (long : ¬Fit [bytes]) : ¬Fit (bytes :: rest) := fun fit =>
        long (List.forall_mem_singleton.mpr (fit bytes List.mem_cons_self))
      have tail_long (long : ¬Fit rest) : ¬Fit (bytes :: rest) := fun fit =>
        long fun content member => fit content (List.mem_cons_of_mem bytes member)
      refine ((ensures_addConstant_added machine bytes).mono
        (fun _ _ held => ⟨held.1, head_long held.2⟩) fun _ _ => id).bind fun ref middle early => ?_
      refine ((induction middle).mono
        (fun _ _ held => ⟨IsTrans.trans _ _ _ early.1 held.1, tail_long held.2⟩) fun _ _ => id).bind
          fun refs after late => ?_
      exact ⟨IsTrans.trans _ _ _ early.1 late.1, early.2.append early.1 late.2 late.1⟩

/-! ## Installing a program -/

/-- What a machine has become after it has loaded a program. -/
structure Installed (before : Machine) (program : Program) (after : Machine) : Prop where
  stack : after.stack.toList = []
  offset : after.offset = 0
  phase : after.phase = .ready
  globals : after.globals = before.globals
  natives : after.natives = before.natives
  lastError : after.lastError = before.lastError
  /-- Every string live before is still live with its content. -/
  preserved : before.heap.Preserves after.heap
  code : after.program.code = program.code
  /-- There is a live constant with the content of each string of the pool. -/
  constants : after.program.constants.map after.heap.bytes? = program.strings.map some
  tracked : ∀ ref ∈ after.program.constants, after.collector.Tracks ref
  /-- Equal strings of the pool are one string exactly when constants are shared. -/
  shared : ∀ (left right : Nat) (bytes : List UInt8),
    left ≠ right → program.strings[left]? = some bytes →
    program.strings[right]? = some bytes →
      (after.program.constants[left]? = after.program.constants[right]? ↔
        before.sharesConstants = true)

theorem Added.map_bytes? {contents : List (List UInt8)} {refs : List StringRef}
    (added : Added before contents refs after) :
    refs.map after.heap.bytes? = contents.map some := by
  rw [← List.forall₂_eq_eq_eq, List.forall₂_map_left_iff, List.forall₂_map_right_iff]
  exact added.held

theorem Added.shared_iff {contents : List (List UInt8)} {refs : List StringRef}
    (added : Added before contents refs after) {left right : Nat} {bytes : List UInt8}
    (differ : left ≠ right) (at_left : contents[left]? = some bytes)
    (at_right : contents[right]? = some bytes) :
    refs[left]? = refs[right]? ↔ before.sharesConstants = true := by
  cases shares : before.sharesConstants with
  | true =>
      have stands : refs.map some = contents.map (after.pool.lookup? after.heap) := by
        rw [← List.forall₂_eq_eq_eq, List.forall₂_map_left_iff, List.forall₂_map_right_iff]
        exact (added.shared shares).imp fun _ _ => Eq.symm
      have chosen {position : Nat} (here : contents[position]? = some bytes) :
          refs[position]?.map some = some (after.pool.lookup? after.heap bytes) := by
        rw [← List.getElem?_map, stands, List.getElem?_map, here]
        rfl
      have same := (chosen at_left).trans (chosen at_right).symm
      exact iff_of_true (Option.map_injective (Option.some_injective _) same) rfl
  | false =>
      have distinct : refs.Nodup := by
        apply List.Nodup.of_map StringRef.id
        rw [(added.apart shares).1]
        exact List.nodup_range'
      have length_eq : refs.length = contents.length := added.held.length_eq
      have left_inside : left < refs.length := by
        rw [length_eq]
        exact (List.getElem?_eq_some_iff.mp at_left).1
      refine iff_of_false (fun same => ?_) nofun
      exact differ ((List.getElem?_inj left_inside distinct).mp same)

/-- A program is installed unless one of its strings is too long. -/
theorem ensures_install_installed (program : Program)
    (current : machine.collector.Current machine.heap) :
    (install program).Ensures machine (fun _ _ => ¬Fit program.strings)
      fun _ after => Installed machine program after := by
  have added := (ensures_addConstants_added machine program.strings).mono
    (fun _ _ held => held.2) fun _ _ => id
  refine added.bind fun refs after held => ?_
  obtain ⟨enriched, added⟩ := held
  obtain ⟨heap, pool, collector, rfl⟩ := enriched.rest
  have enriched_current := enriched.current current
  have released := current_releaseConstants enriched_current machine.program.constants refs
  exact
    { stack := OperandStack.toList_clear machine.stack
      offset := rfl
      phase := rfl
      globals := rfl
      natives := rfl
      lastError := rfl
      preserved := enriched.heap
      code := rfl
      constants := added.map_bytes?
      tracked := fun ref member => by
        rw [released.indexed.tracks_iff, index_releaseConstants,
          enriched_current.indexed.contains_iff]
        exact added.tracked current ref member
      shared := fun _ _ _ => added.shared_iff }

/-! ## The index of the collector -/

/-- A change that keeps the collector in step with the heap. -/
def KeepsCurrent (before after : Machine) : Prop :=
  before.collector.Current before.heap → after.collector.Current after.heap

instance : Routine KeepsCurrent where
  refl _ := id
  trans _ _ _ early late current := late (early current)
  stack _ _ _ := id
  natives _ _ := id
  sink _ _ := id
  pool _ _ := id
  lastError _ _ := id
  stored _ bytes current := current.insert_store bytes _

theorem within_install_keepsCurrent (program : Program) :
    (install program).Within KeepsCurrent fun _ => True := by
  intro machine
  refine ((ensures_addConstants_added machine program.strings).mono
    (fun _ _ held => ⟨held.1.current, trivial⟩) fun _ _ held => held.1.current).bind
      fun refs after kept => ?_
  exact fun current => current_releaseConstants (kept current) _ refs

theorem conduct_keepsCurrent : Conduct (fun _ => True) KeepsCurrent where
  assigned _ _ _ := id
  load image _ := Routine.within_load within_install_keepsCurrent image
  loadProgram program _ := Routine.within_loadProgram (within_install_keepsCurrent program)
  reset _ := Routine.within_outside _ fun _ => (id : KeepsCurrent _ _)
  collect machine current := current.collect machine.roots
  setMode _ _ _ current := current.congr rfl rfl
  setThreshold _ _ current := current.congr rfl rfl
  runs := id
  step _ _ _ natives := Routine.keeps_stepWith (fun _ _ => id) (fun _ _ _ _ => id)
    (fun machine current => current.collect machine.roots) natives
  refused converted := converted
  returned _ converted ran current := ran (converted current)

/-- The collector has the position of the one entry of each string, and entries of live strings
only. -/
theorem Reached.current (reached : Reached machine) :
    machine.collector.Current machine.heap := by
  induction reached with
  | created created =>
      obtain ⟨_, _, kept⟩ := Routine.of_create KeepsCurrent created
      exact kept (Collector.current_ofConfig _)
  | served _ served induction => exact conduct_keepsCurrent.related_of_served served induction
  | entered _ _ _ induction => exact induction

/-! ## Loading -/

/-- A load succeeds exactly outside natives called by the program and for an accepted program, which
is then installed; a failure is remembered and changes nothing else. -/
structure AllOrNothing (machine : Machine) (update : Update Unit)
    (accepted : Program → Prop) : Prop where
  succeeds_iff : (∃ after, update.apply machine = (.ok (), after)) ↔
    machine.inNative = false ∧ ∃ program, accepted program
  failed : ∀ error after, update.apply machine = (.error error, after) →
    after = machine.remember error
  installed : ∀ after, update.apply machine = (.ok (), after) →
    ∃ program, accepted program ∧ Installed machine program after

theorem allOrNothing_of_ensures {update : Update Unit} {accepted : Program → Prop}
    (ensured : update.Ensures machine
      (fun error after => after = machine.remember error ∧
        ¬(machine.inNative = false ∧ ∃ program, accepted program))
      fun _ after => machine.inNative = false ∧
        ∃ program, accepted program ∧ Installed machine program after) :
    AllOrNothing machine update accepted := by
  rw [Update.Ensures] at ensured
  rcases outcome : update.apply machine with ⟨error | value, last⟩
  · rw [outcome] at ensured
    obtain ⟨last_eq, refused⟩ := ensured
    have never (after : Machine) (succeeded : update.apply machine = (.ok (), after)) : False := by
      cases outcome.symm.trans succeeded
    refine ⟨iff_of_false (fun succeeded => succeeded.elim never) refused, ?_, ?_⟩
    · intro found after failed
      cases outcome.symm.trans failed
      exact last_eq
    · exact fun after succeeded => (never after succeeded).elim
  · rw [outcome] at ensured
    obtain ⟨outside, program, accepts, installed⟩ := ensured
    refine ⟨iff_of_true ⟨last, outcome⟩ ⟨outside, program, accepts⟩, ?_, ?_⟩
    · intro error after failed
      cases outcome.symm.trans failed
    · intro after succeeded
      cases outcome.symm.trans succeeded
      exact ⟨program, accepts, installed⟩

/-- A program that is read and accepted is installed, unless a native called by the program is under
way. -/
theorem allOrNothing_installing {α : Type} (what : String) {checked : Except MachineError α}
    {choice : α → Program} {accepted : Program → Prop}
    (current : machine.collector.Current machine.heap)
    (accepted_iff : ∀ program, accepted program ↔
      ∃ value, checked = .ok value ∧ choice value = program)
    (fit : ∀ program, accepted program → Fit program.strings) :
    AllOrNothing machine (Update.recorded do
      requireOutsideNative what
      let value ← Update.ofExcept checked
      install (choice value)) accepted := by
  apply allOrNothing_of_ensures
  apply Update.Ensures.recorded
  refine (ensures_requireOutsideNative what fun error inside _ => ?_).bind fun _ after held => ?_
  · exact ⟨rfl, fun accepted => absurd (inside.symm.trans accepted.1) nofun⟩
  obtain ⟨rfl, outside⟩ := held
  refine .ofExcept_bind (fun error refused => ?_) fun value read => ?_
  · refine ⟨rfl, fun accepted => ?_⟩
    obtain ⟨_, program, accepts⟩ := accepted
    obtain ⟨value, read, _⟩ := (accepted_iff program).mp accepts
    cases refused.symm.trans read
  · have accepts : accepted (choice value) := (accepted_iff _).mpr ⟨value, read, rfl⟩
    exact (ensures_install_installed (choice value) current).mono
      (fun _ _ long => absurd (fit _ accepts) long)
      fun _ _ installed => ⟨outside, choice value, accepts, installed⟩

/-- Wherever a machine comes, loading an image or a program is all or nothing.  The strings of an
image always fit on the heap. -/
theorem load_all_or_nothing (reached : Reached machine) :
    (∀ image, AllOrNothing machine (load image) fun program => Program.load image = .ok program) ∧
      ∀ program : Program, (∀ bytes ∈ program.strings, bytes.length ≤ StringHeap.maxLength) →
        AllOrNothing machine (loadProgram program) fun loaded =>
          loaded = program ∧ program.verify = .ok () := by
  constructor
  · intro image
    refine allOrNothing_installing _ reached.current (fun program => ?_) fun program loads => ?_
    · simp only [mapError_eq_ok_iff, exists_eq_right]
    · have short := (Program.read_eq_ok_iff.mp (Program.load_eq_ok_iff.mp loads).1).1.2.1
      exact fun bytes member => Nat.le_pred_of_lt (short bytes member)
  · intro program fit
    refine allOrNothing_installing _ reached.current (fun loaded => ?_) fun loaded accepts => ?_
    · simp only [mapError_eq_ok_iff]
      constructor
      · rintro ⟨rfl, verified⟩
        exact ⟨(), verified, rfl⟩
      · rintro ⟨_, verified, rfl⟩
        exact ⟨rfl, verified⟩
    · rw [accepts.1]
      exact fit

/-- Loads a program with two constants and stops in the middle of it. -/
def interruptedProgram : List (Nat × Request) :=
  [(0, .call (.loadProgram ⟨[[102], [103]],
    [Instruction.pushString 0, .halt].flatMap Instruction.encode⟩)), (0, .call .step)]

/-- A program that uses a string of the first program twice. -/
def sharingProgram : Program :=
  ⟨[[103], [104], [103]], Instruction.halt.encode⟩

theorem load_all_or_nothing_of_shared_constants :
    ∃ machine after, Reached machine ∧ machine.program.constants = [⟨0⟩, ⟨1⟩] ∧
      (load sharingProgram.image).apply machine = (.ok (), after) ∧
      after.program.constants = [⟨1⟩, ⟨2⟩, ⟨1⟩] ∧ Installed machine sharingProgram after ∧
      (load [0]).apply machine = (.error (.badBytecode (.tooShort 1 5)),
        machine.remember (.badBytecode (.tooShort 1 5))) := by
  have ran : ((create { builtins := false, sharesConstants := true }).toOption.bind fun start =>
      (serve invoke interruptedProgram start).map fun machine =>
        ((machine.program.constants,
          ((load sharingProgram.image).apply machine).2.program.constants),
          ((load sharingProgram.image).apply machine).1, ((load [0]).apply machine).1)) =
      some (([⟨0⟩, ⟨1⟩], [⟨1⟩, ⟨2⟩, ⟨1⟩]), .ok (), .error (.badBytecode (.tooShort 1 5))) := by
    decide +kernel
  simp only [Option.bind_eq_some_iff, Option.map_eq_some_iff, Prod.mk.injEq,
    toOption_eq_some_iff] at ran
  obtain ⟨start, created, machine, served, ⟨constants, replaced⟩, loaded, refused⟩ := ran
  have reached := (Reached.created created).of_serve served
  have loads := (load_all_or_nothing reached).1
  have succeeded : (load sharingProgram.image).apply machine =
      (.ok (), ((load sharingProgram.image).apply machine).2) := Prod.ext loaded rfl
  have failed : (load [0]).apply machine =
      (.error (.badBytecode (.tooShort 1 5)), ((load [0]).apply machine).2) := Prod.ext refused rfl
  obtain ⟨program, read, installed⟩ := (loads sharingProgram.image).installed _ succeeded
  have read_eq : Program.load sharingProgram.image = .ok sharingProgram := by decide +kernel
  cases read_eq.symm.trans read
  have unchanged := (loads [0]).failed _ _ failed
  exact ⟨machine, _, reached, constants, succeeded, replaced, installed,
    failed.trans (by rw [unchanged])⟩

end Machine

end StackMachine
