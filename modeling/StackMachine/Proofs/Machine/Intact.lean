import StackMachine.Proofs.Collector
import StackMachine.Proofs.ContentMap.Content
import StackMachine.Proofs.Machine.Ensures
import StackMachine.Proofs.OperandStack

/-!
# Intact machines

A machine is intact when every string it holds is live: on the stack, as key or value of a global,
as name of a native and as constant of the program.  Its two maps are then sound.  Changes of the
heap that spare the strings held, a collection among them, keep a machine intact.
-/

namespace StackMachine

/-- A value that is no string, or a live one. -/
def Value.LiveIn (heap : StringHeap) (value : Value) : Prop :=
  ∀ ref, value.string? = some ref → heap.Live ref

theorem Value.LiveIn.preserved {before after : StringHeap} {value : Value}
    (live : value.LiveIn before) (preserved : before.Preserves after) : value.LiveIn after :=
  fun ref refers => (live ref refers).preserved preserved

@[simp]
theorem Value.liveIn_string {heap : StringHeap} {ref : StringRef} :
    (Value.string ref).LiveIn heap ↔ heap.Live ref := by
  simp [Value.LiveIn, Value.string?]

theorem Value.liveIn_of_string?_eq_none {heap : StringHeap} {value : Value}
    (none : value.string? = none) : value.LiveIn heap := by
  intro ref refers
  rw [none] at refers
  cases refers

/-- Natives that may be registered: any of them, or only the builtin ones. -/
def Native.Admitted (onlyBuiltins : Bool) : Native → Prop
  | .builtin _ => True
  | .host _ => onlyBuiltins = false

namespace Machine

/-- The strings that a machine holds for programs and for the host to see. -/
def held (machine : Machine) : List StringRef :=
  stringsOf machine.stack.toList ++
    machine.globals.entries.flatMap (fun (key, value) => key :: stringsOf [value]) ++
    machine.natives.keys ++ machine.program.constants

/-- Every string held is live, and the maps can be searched. -/
structure Intact (onlyBuiltins : Bool) (machine : Machine) : Prop where
  hashed : machine.heap.Hashed
  stack : ∀ value ∈ machine.stack.toList, value.LiveIn machine.heap
  globals_balanced : machine.globals.Balanced
  globals_sound : machine.globals.Sound machine.heap
  globals_live : ∀ entry ∈ machine.globals.entries, entry.2.LiveIn machine.heap
  natives_balanced : machine.natives.Balanced
  natives_sound : machine.natives.Sound machine.heap
  natives_admitted : ∀ entry ∈ machine.natives.entries,
    entry.2.native.Admitted onlyBuiltins
  constants : ∀ ref ∈ machine.program.constants, machine.heap.Live ref

variable {onlyBuiltins : Bool} {machine : Machine}

theorem mem_stringsOf_iff {values : List Value} {ref : StringRef} :
    ref ∈ stringsOf values ↔ .string ref ∈ values := by
  rw [stringsOf, List.mem_filterMap]
  constructor
  · rintro ⟨value, member, refers⟩
    cases value with
    | string found =>
        cases refers
        exact member
    | _ => cases refers
  · intro member
    exact ⟨.string ref, member, rfl⟩

theorem mem_held_iff {ref : StringRef} :
    ref ∈ machine.held ↔
      .string ref ∈ machine.stack.toList ∨
        (∃ entry ∈ machine.globals.entries, entry.1 = ref ∨ entry.2 = .string ref) ∨
        ref ∈ machine.natives.keys ∨ ref ∈ machine.program.constants := by
  simp only [held, List.mem_append, mem_stringsOf_iff, List.mem_flatMap, List.mem_cons,
    List.not_mem_nil, or_false, or_assoc]
  refine or_congr_right (or_congr_left ?_)
  constructor
  · rintro ⟨entry, member, key | value⟩
    · exact ⟨entry, member, .inl key.symm⟩
    · exact ⟨entry, member, .inr value.symm⟩
  · rintro ⟨entry, member, key | value⟩
    · exact ⟨entry, member, .inl key.symm⟩
    · exact ⟨entry, member, .inr value.symm⟩

theorem mem_roots_of_mem_held {ref : StringRef} (member : ref ∈ machine.held) :
    ref ∈ machine.roots := by
  simp only [held, roots, List.mem_append] at member ⊢
  rcases member with ((stack | global) | native) | constant
  · exact .inl (.inl (.inl (.inl stack)))
  · exact .inl (.inl (.inr global))
  · exact .inl (.inr native)
  · exact .inr constant

namespace Intact

theorem live_of_mem_held (intact : Intact onlyBuiltins machine) {ref : StringRef}
    (member : ref ∈ machine.held) : machine.heap.Live ref := by
  rcases mem_held_iff.mp member with stack | ⟨entry, global, key | value⟩ | native | constant
  · exact Value.liveIn_string.mp (intact.stack _ stack)
  · exact intact.globals_sound.exists_bytes?_of_mem_keys
      (key ▸ List.mem_map_of_mem global)
  · exact Value.liveIn_string.mp (value ▸ intact.globals_live entry global)
  · exact intact.natives_sound.exists_bytes?_of_mem_keys native
  · exact intact.constants ref constant

/-- A machine stays intact when its heap changes and the strings it holds do not. -/
theorem of_heap (intact : Intact onlyBuiltins machine) {heap : StringHeap} (hashed : heap.Hashed)
    (kept : ∀ ref ∈ machine.held, heap.bytes? ref = machine.heap.bytes? ref) :
    Intact onlyBuiltins { machine with heap } := by
  have value_kept {value : Value} (live : value.LiveIn machine.heap)
      (member : ∀ ref, value = .string ref → ref ∈ machine.held) : value.LiveIn heap := by
    cases value with
    | string ref =>
        obtain ⟨bytes, content⟩ := Value.liveIn_string.mp live
        exact Value.liveIn_string.mpr ⟨bytes, (kept ref (member ref rfl)).trans content⟩
    | _ => exact Value.liveIn_of_string?_eq_none rfl
  refine
    { hashed
      stack := fun value member => value_kept (intact.stack value member) fun ref equal =>
        mem_held_iff.mpr (.inl (equal ▸ member))
      globals_balanced := intact.globals_balanced
      globals_sound := intact.globals_sound.of_bytes?_eq fun key member => ?_
      globals_live := fun entry member =>
        value_kept (intact.globals_live entry member) fun ref equal =>
          mem_held_iff.mpr (.inr (.inl ⟨entry, member, .inr equal⟩))
      natives_balanced := intact.natives_balanced
      natives_sound := intact.natives_sound.of_bytes?_eq fun key member =>
        kept key (mem_held_iff.mpr (.inr (.inr (.inl member))))
      natives_admitted := intact.natives_admitted
      constants := fun ref member => ?_ }
  · obtain ⟨entry, inside, rfl⟩ := List.mem_map.mp member
    exact kept entry.1 (mem_held_iff.mpr (.inr (.inl ⟨entry, inside, .inl rfl⟩)))
  · obtain ⟨bytes, content⟩ := intact.constants ref member
    exact ⟨bytes, (kept ref (mem_held_iff.mpr (.inr (.inr (.inr member))))).trans content⟩

theorem of_preserves (intact : Intact onlyBuiltins machine) {heap : StringHeap}
    (hashed : heap.Hashed) (preserved : machine.heap.Preserves heap) :
    Intact onlyBuiltins { machine with heap } := by
  refine intact.of_heap hashed fun ref member => ?_
  obtain ⟨bytes, content⟩ := intact.live_of_mem_held member
  rw [content, preserved ref bytes content]

/-- What a machine holds does not depend on its other parts. -/
theorem congr {after : Machine} (intact : Intact onlyBuiltins machine)
    (heap_eq : after.heap = machine.heap) (stack_eq : after.stack = machine.stack)
    (globals_eq : after.globals = machine.globals) (natives_eq : after.natives = machine.natives)
    (program_eq : after.program = machine.program) : Intact onlyBuiltins after where
  hashed := by rw [heap_eq]; exact intact.hashed
  stack := by rw [heap_eq, stack_eq]; exact intact.stack
  globals_balanced := by rw [globals_eq]; exact intact.globals_balanced
  globals_sound := by rw [heap_eq, globals_eq]; exact intact.globals_sound
  globals_live := by rw [heap_eq, globals_eq]; exact intact.globals_live
  natives_balanced := by rw [natives_eq]; exact intact.natives_balanced
  natives_sound := by rw [heap_eq, natives_eq]; exact intact.natives_sound
  natives_admitted := by rw [natives_eq]; exact intact.natives_admitted
  constants := by rw [heap_eq, program_eq]; exact intact.constants

theorem withStack (intact : Intact onlyBuiltins machine) {stack : OperandStack}
    (live : ∀ value ∈ stack.toList, value.LiveIn machine.heap) :
    Intact onlyBuiltins { machine with stack } :=
  { intact with stack := live }

theorem collect (intact : Intact onlyBuiltins machine) :
    Intact onlyBuiltins machine.collect.2 := by
  have hashed := (machine.collector.evolves_collect machine.roots machine.heap).hashed intact.hashed
  have spared := intact.of_heap hashed fun ref member =>
    Collector.bytes?_collect machine.heap (mem_roots_of_mem_held member)
  exact spared.congr rfl rfl rfl rfl rfl

end Intact

/-! ## Relations between machines -/

/-- A change that allocates strings and frees none. -/
def Extends (onlyBuiltins : Bool) (before after : Machine) : Prop :=
  before.Intact onlyBuiltins → after.Intact onlyBuiltins ∧
    (∃ log, before.heap.Evolves log after.heap) ∧ before.heap.Preserves after.heap

/-- A change that allocates strings and may free strings that are not held. -/
def Follows (onlyBuiltins : Bool) (before after : Machine) : Prop :=
  before.Intact onlyBuiltins → after.Intact onlyBuiltins ∧
    ∃ log, before.heap.Evolves log after.heap

instance : Std.Refl (Extends onlyBuiltins) where
  refl machine intact := ⟨intact, ⟨[], .refl⟩, .refl machine.heap⟩

instance : IsTrans Machine (Extends onlyBuiltins) where
  trans first second third before later intact := by
    obtain ⟨middle, ⟨early, evolves⟩, preserved⟩ := before intact
    obtain ⟨last, ⟨late, evolves'⟩, preserved'⟩ := later middle
    exact ⟨last, ⟨early ++ late, evolves.trans evolves'⟩, preserved.trans preserved'⟩

instance : Std.Refl (Follows onlyBuiltins) where
  refl _ intact := ⟨intact, [], .refl⟩

instance : IsTrans Machine (Follows onlyBuiltins) where
  trans first second third before later intact := by
    obtain ⟨middle, early, evolves⟩ := before intact
    obtain ⟨last, late, evolves'⟩ := later middle
    exact ⟨last, early ++ late, evolves.trans evolves'⟩

theorem Extends.follows {before after : Machine} (extended : Extends onlyBuiltins before after) :
    Follows onlyBuiltins before after := by
  intro intact
  obtain ⟨after_intact, evolves, _⟩ := extended intact
  exact ⟨after_intact, evolves⟩

/-- A change of the parts that hold no strings. -/
theorem extends_of_same {after : Machine} (heap_eq : after.heap = machine.heap)
    (stack_eq : after.stack = machine.stack) (globals_eq : after.globals = machine.globals)
    (natives_eq : after.natives = machine.natives)
    (program_eq : after.program = machine.program) : Extends onlyBuiltins machine after := by
  intro intact
  refine ⟨intact.congr heap_eq stack_eq globals_eq natives_eq program_eq, ⟨[], ?_⟩, ?_⟩
  · rw [heap_eq]
    exact .refl
  · rw [heap_eq]
    exact .refl _

/-- A change that keeps the heap. -/
theorem extends_of_heap_eq {after : Machine} (heap_eq : after.heap = machine.heap)
    (intact_of : machine.Intact onlyBuiltins → after.Intact onlyBuiltins) :
    Extends onlyBuiltins machine after := by
  intro intact
  refine ⟨intact_of intact, ⟨[], ?_⟩, ?_⟩
  · rw [heap_eq]
    exact .refl
  · rw [heap_eq]
    exact .refl _

theorem extends_store (bytes : List UInt8) (collector : Collector) :
    Extends onlyBuiltins machine
      { machine with heap := machine.heap.store bytes, collector } := by
  intro intact
  have preserved := machine.heap.preserves_store bytes
  refine ⟨?_, ⟨[bytes], .store bytes .refl⟩, preserved⟩
  exact (intact.of_preserves (intact.hashed.store bytes) preserved).congr rfl rfl rfl rfl rfl

theorem follows_collect : Follows onlyBuiltins machine machine.collect.2 := by
  intro intact
  exact ⟨intact.collect, [], machine.collector.evolves_collect machine.roots machine.heap⟩

end Machine

end StackMachine
