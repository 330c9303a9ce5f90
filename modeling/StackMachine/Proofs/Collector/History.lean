import Mathlib.Algebra.GroupWithZero.Nat
import Mathlib.Data.List.DropRight
import StackMachine.Proofs.Collector.Marking

/-!
# The histories of a collector

Operations on a collector follow one another in any order, with allocations and frees on the heap in
between.  The slot of a freed string may be taken by a new one while the freed one still has an
entry.  When the new string is registered then, its place in the index is that of the other, and
what was registered is no longer known.  As long as no registration meets another string in its
slot, the index is exact, and what the collector knows about a string is read off the history: the
string is known when it was registered and its entry not dropped since, and owned when it was
registered or adopted in the mode `own` and its entry not dropped since.  Live strings are known in
any case.
-/

namespace StackMachine

namespace Collector

/-- What is done to a collector or to the heap it works on. -/
inductive Operation where
  | alloc (bytes : List UInt8)
  | free (ref : StringRef)
  | track (ref : StringRef)
  | trackBorrowed (ref : StringRef)
  | adopt (ref : StringRef)
  | forget (ref : StringRef)
  | collect (roots : List StringRef)
  | setMode (mode : CollectionMode)
  | setThreshold (threshold : Option Nat)
deriving DecidableEq, Repr

/-- A collector and the heap it works on. -/
structure State where
  /-- The collector. -/
  collector : Collector
  /-- The heap. -/
  heap : StringHeap

namespace State

/-- The state after an operation. -/
def perform (state : State) : Operation → State
  | .alloc bytes =>
    match state.heap.alloc bytes with
    | .ok (_, heap) => { state with heap }
    | .error _ => state
  | .free ref => { state with heap := (state.heap.free ref).2 }
  | .track ref =>
    { state with collector := (state.collector.track ref (state.heap.slotOf ref)).2 }
  | .trackBorrowed ref =>
    { state with collector := (state.collector.trackBorrowed ref (state.heap.slotOf ref)).2 }
  | .adopt ref => { state with collector := (state.collector.adopt ref).2 }
  | .forget ref => { state with collector := (state.collector.forget ref).2 }
  | .collect roots =>
    let (_, collector, heap) := state.collector.collect roots state.heap
    { collector, heap }
  | .setMode mode => { state with collector := state.collector.setMode mode }
  | .setThreshold threshold => { state with collector := state.collector.setThreshold threshold }

theorem collector_perform_alloc (state : State) (bytes : List UInt8) :
    (state.perform (.alloc bytes)).collector = state.collector := by
  cases allocated : state.heap.alloc bytes <;> simp only [perform, allocated]

/-- The state after operations. -/
def run (state : State) (operations : List Operation) : State :=
  operations.foldl perform state

/-- The operations with the states in which they are performed. -/
def steps (state : State) : List Operation → List (State × Operation)
  | [] => []
  | operation :: rest => (state, operation) :: (state.perform operation).steps rest

@[simp]
theorem run_append_singleton (state : State) (operations : List Operation) (operation : Operation) :
    state.run (operations ++ [operation]) = (state.run operations).perform operation := by
  rw [run, List.foldl_append]
  rfl

theorem steps_append (state : State) (operations rest : List Operation) :
    state.steps (operations ++ rest) =
      state.steps operations ++ (state.run operations).steps rest := by
  induction operations generalizing state with
  | nil => rfl
  | cons first others induction =>
      rw [List.cons_append, steps, induction, steps, List.cons_append]
      rfl

theorem steps_append_singleton (state : State) (operations : List Operation)
    (operation : Operation) :
    state.steps (operations ++ [operation]) =
      state.steps operations ++ [(state.run operations, operation)] :=
  state.steps_append operations [operation]

theorem steps_prefix {state : State} {before operations : List Operation}
    (inside : before <+: operations) : state.steps before <+: state.steps operations := by
  obtain ⟨rest, rfl⟩ := inside
  rw [steps_append]
  exact List.prefix_append _ _

/-! ## What the index keeps -/

/-- Strings that are registered were given out before. -/
def Given (state : State) : Operation → Prop
  | .track ref | .trackBorrowed ref => ref.id < state.heap.strings.next
  | _ => True

/-- No other string that has an entry lies in the slot of a string that is registered. -/
def Clear (state : State) : Operation → Prop
  | .track ref | .trackBorrowed ref => ∀ entry ∈ state.collector.entries,
    state.heap.slotOf entry.ref = state.heap.slotOf ref → entry.ref = ref
  | _ => True

instance (state : State) : DecidablePred state.Given
  | .track ref | .trackBorrowed ref => inferInstanceAs (Decidable (ref.id < _))
  | .alloc _ | .free _ | .adopt _ | .forget _ | .collect _ | .setMode _ | .setThreshold _ =>
    isTrue trivial

instance (state : State) : DecidablePred state.Clear
  | .track ref | .trackBorrowed ref =>
    inferInstanceAs (Decidable (∀ entry ∈ state.collector.entries, _ → entry.ref = ref))
  | .alloc _ | .free _ | .adopt _ | .forget _ | .collect _ | .setMode _ | .setThreshold _ =>
    isTrue trivial

theorem matches_perform {state : State} (agrees : state.collector.Matches state.heap)
    {operation : Operation} (given : state.Given operation) :
    (state.perform operation).collector.Matches (state.perform operation).heap := by
  cases operation with
  | alloc bytes =>
      cases allocated : state.heap.alloc bytes with
      | error reason => simpa only [perform, allocated] using agrees
      | ok result =>
          obtain ⟨_, _, stored⟩ := StringHeap.alloc_eq_ok_iff.mp allocated
          simp only [perform, allocated, stored]
          exact agrees.store bytes
  | free ref => exact agrees.free ref
  | track ref => exact agrees.insert given _
  | trackBorrowed ref => exact agrees.insert given false
  | adopt ref => exact agrees.adopt ref
  | forget ref => exact agrees.forget ref
  | collect roots => exact agrees.collect roots
  | setMode mode | setThreshold threshold => exact agrees.congr rfl rfl

theorem matches_run {state : State} (agrees : state.collector.Matches state.heap)
    {operations : List Operation}
    (given : ∀ step ∈ state.steps operations, step.1.Given step.2) :
    (state.run operations).collector.Matches (state.run operations).heap := by
  induction operations generalizing state with
  | nil => exact agrees
  | cons operation rest induction =>
      rw [steps, List.forall_mem_cons] at given
      exact induction (matches_perform agrees given.1) given.2

/-- A registration keeps the index exact unless another string is met in the slot. -/
theorem indexed_insert_iff {state : State} (agrees : state.collector.Matches state.heap)
    (indexed : state.collector.Indexed) {ref : StringRef} (given : ref.id < state.heap.strings.next)
    (owned : Bool) :
    (state.collector.insert ⟨ref, owned⟩ (state.heap.slotOf ref)).2.Indexed ↔
      ∀ entry ∈ state.collector.entries,
        state.heap.slotOf entry.ref = state.heap.slotOf ref → entry.ref = ref := by
  constructor
  · intro kept entry member same
    have agreed := agrees.insert given owned
    obtain ⟨registered, inside, ref_eq⟩ :=
      indexed.exists_mem_insert ⟨ref, owned⟩ (state.heap.slotOf ref)
    have one := agreed.eq_of_slotOf_eq kept (mem_insert_of_mem member) inside
      (by rw [same, ref_eq])
    rw [one, ref_eq]
  · intro clear
    refine (indexed.every.insert (fun noted known => (agrees.slots ref noted known).2.symm)
      fun entry member known => ?_).indexed fun _ _ => trivial
    have same := clear entry member (agrees.slots _ _ known).2
    rw [same]
    exact ⟨fun earlier => absurd earlier (Nat.lt_irrefl _),
      fun later => absurd later (Nat.lt_irrefl _)⟩

theorem indexed_perform {state : State} (agrees : state.collector.Matches state.heap)
    (indexed : state.collector.Indexed) {operation : Operation} (given : state.Given operation) :
    (state.perform operation).collector.Indexed ↔ state.Clear operation := by
  cases operation with
  | alloc bytes =>
      refine iff_of_true ?_ trivial
      exact (collector_perform_alloc state bytes).symm ▸ indexed
  | track ref | trackBorrowed ref => exact indexed_insert_iff agrees indexed given _
  | adopt ref => exact iff_of_true (indexed.adopt ref) trivial
  | forget ref => exact iff_of_true (indexed.forget ref) trivial
  | collect roots => exact iff_of_true (indexed.collect roots state.heap) trivial
  | free _ | setMode _ | setThreshold _ => exact iff_of_true indexed trivial

/-- The index is exact all along when no registration meets another string in its slot. -/
theorem indexed_run_iff {state : State} (agrees : state.collector.Matches state.heap)
    (indexed : state.collector.Indexed) {operations : List Operation}
    (given : ∀ step ∈ state.steps operations, step.1.Given step.2) :
    (∀ before, before <+: operations → (state.run before).collector.Indexed) ↔
      ∀ step ∈ state.steps operations, step.1.Clear step.2 := by
  induction operations generalizing state with
  | nil =>
      refine iff_of_true (fun before inside => ?_) (by simp [steps])
      rwa [List.prefix_nil.mp inside]
  | cons operation rest induction =>
      rw [steps, List.forall_mem_cons] at given ⊢
      have step := indexed_perform agrees indexed given.1
      have later (indexed : (state.perform operation).collector.Indexed) :=
        induction (matches_perform agrees given.1) indexed given.2
      constructor
      · intro exact_before
        have after := exact_before [operation] (List.prefix_append [operation] rest)
        refine ⟨step.mp after, (later after).mp fun before inside => ?_⟩
        exact exact_before (operation :: before) (List.cons_prefix_cons.mpr ⟨rfl, inside⟩)
      · rintro ⟨clear, clear_later⟩ before inside
        have after := step.mpr clear
        rcases List.prefix_cons_iff.mp inside with rfl | ⟨shorter, rfl, within⟩
        · exact indexed
        · exact (later after).mpr clear_later shorter within

/-! ## Reading a history -/

/-- Something was made by an operation, and has not been undone by a later one. -/
def Since (state : State) (made undone : State → Operation → Prop) (operations : List Operation) :
    Prop :=
  ∃ before operation after, operations = before ++ operation :: after ∧
    made (state.run before) operation ∧
    ∀ earlier other later, after = earlier ++ other :: later →
      ¬ undone (state.run (before ++ operation :: earlier)) other

theorem not_since_nil {state : State} {made undone : State → Operation → Prop} :
    ¬ state.Since made undone [] := by
  rintro ⟨before, operation, after, split, _⟩
  cases before <;> cases split

theorem since_append_singleton {state : State} {made undone : State → Operation → Prop}
    {operations : List Operation} {operation : Operation} :
    state.Since made undone (operations ++ [operation]) ↔
      made (state.run operations) operation ∨
        state.Since made undone operations ∧ ¬ undone (state.run operations) operation := by
  constructor
  · rintro ⟨before, first, after, split, was_made, kept⟩
    rcases List.eq_nil_or_concat after with rfl | ⟨init, last, rfl⟩
    · obtain ⟨rfl, same⟩ := List.append_inj' split rfl
      cases same
      exact .inl was_made
    · rw [List.concat_eq_append] at split kept
      rw [← List.cons_append, ← List.append_assoc] at split
      obtain ⟨rfl, same⟩ := List.append_inj' split rfl
      cases same
      refine .inr ⟨⟨before, first, init, rfl, was_made, fun earlier other later init_eq => ?_⟩,
        kept init _ [] rfl⟩
      exact kept earlier other (later ++ [operation]) (by rw [init_eq, List.append_assoc]; rfl)
  · rintro (was_made | ⟨⟨before, first, after, rfl, was_made, kept⟩, not_undone⟩)
    · exact ⟨operations, operation, [], rfl, was_made,
        fun earlier other later none => by simp at none⟩
    · refine ⟨before, first, after ++ [operation], by simp, was_made,
        fun earlier other later split => ?_⟩
      rcases List.eq_nil_or_concat later with rfl | ⟨init, last, rfl⟩
      · obtain ⟨rfl, same⟩ := List.append_inj' split rfl
        cases same
        exact not_undone
      · rw [List.concat_eq_append, ← List.cons_append, ← List.append_assoc] at split
        obtain ⟨rfl, _⟩ := List.append_inj' split rfl
        exact kept earlier other init rfl

/-- A property that operations make and undo holds when it was made and not undone since. -/
theorem iff_since {state : State} {made undone : State → Operation → Prop}
    (property : State → Prop) (start : ¬ property state)
    (step : ∀ (state : State) (operation : Operation), state.collector.Indexed →
      (state.perform operation).collector.Indexed →
        (property (state.perform operation) ↔
          made state operation ∨ property state ∧ ¬ undone state operation))
    {operations : List Operation}
    (indexed : ∀ before, before <+: operations → (state.run before).collector.Indexed) :
    property (state.run operations) ↔ state.Since made undone operations := by
  induction operations using List.reverseRecOn with
  | nil => exact iff_of_false start not_since_nil
  | append_singleton operations operation induction =>
      have before := indexed operations (List.prefix_append _ _)
      have after := indexed _ List.prefix_rfl
      rw [run_append_singleton] at after ⊢
      rw [step _ _ before after, since_append_singleton,
        induction fun early inside => indexed early (inside.trans (List.prefix_append _ _))]

/-! ## Known and owned strings -/

/-- An operation tells the collector about a string. -/
def Registers (ref : StringRef) (_ : State) (operation : Operation) : Prop :=
  operation = .track ref ∨ operation = .trackBorrowed ref

/-- An operation makes a string the collector's own: it is tracked while it is not known, or adopted
while it is, both in the mode `own`. -/
def Acquires (ref : StringRef) (state : State) (operation : Operation) : Prop :=
  state.collector.config.mode = .own ∧
    (operation = .track ref ∧ state.collector.get? ref = none ∨
      operation = .adopt ref ∧ (state.collector.get? ref).isSome = true)

/-- An operation drops what is known about a string: it is forgotten, or it is none of the roots of
a collection and is freed by that collection or gone before. -/
def Drops (ref : StringRef) (state : State) (operation : Operation) : Prop :=
  operation = .forget ref ∨ ∃ roots, operation = .collect roots ∧ ref ∉ roots ∧
    (state.collector.config.mode = .own ∧ state.collector.get? ref = some ⟨ref, true⟩ ∨
      state.heap.contains ref = false)

/-- What is known about a string after an operation. -/
theorem get?_perform {state : State} (indexed : state.collector.Indexed) {operation : Operation}
    (kept : (state.perform operation).collector.Indexed) (ref : StringRef) :
    (state.perform operation).collector.get? ref =
      match operation with
      | .track tracked =>
        if ref = tracked then
          some ((state.collector.get? ref).getD ⟨tracked, state.collector.config.mode == .own⟩)
        else state.collector.get? ref
      | .trackBorrowed tracked =>
        if ref = tracked then some ((state.collector.get? ref).getD ⟨tracked, false⟩)
        else state.collector.get? ref
      | .adopt adopted =>
        if state.collector.config.mode = .own ∧ ref = adopted then
          (state.collector.get? ref).map fun entry => ⟨entry.ref, true⟩
        else state.collector.get? ref
      | .forget forgotten => if ref = forgotten then none else state.collector.get? ref
      | .collect roots =>
        (state.collector.get? ref).filter (state.collector.Keeps roots state.heap)
      | _ => state.collector.get? ref := by
  cases operation with
  | alloc bytes => rw [collector_perform_alloc]
  | free freed => rfl
  | track tracked => exact indexed.get?_insert kept ref
  | trackBorrowed tracked => exact indexed.get?_insert kept ref
  | adopt adopted => exact indexed.get?_adopt adopted ref
  | forget forgotten => exact indexed.get?_forget forgotten ref
  | collect roots => exact indexed.get?_collect roots state.heap ref
  | setMode mode => rfl
  | setThreshold threshold => rfl

theorem keeps_iff_not_drops {state : State} {ref : StringRef} {roots : List StringRef}
    {entry : Tracked} (indexed : state.collector.Indexed)
    (known : state.collector.get? ref = some entry) :
    state.collector.Keeps roots state.heap entry ↔ ¬ Drops ref state (.collect roots) := by
  obtain ⟨-, rfl⟩ := indexed.get?_eq_some_iff.mp known
  have owned_iff : state.collector.get? entry.ref = some ⟨entry.ref, true⟩ ↔
      entry.owned = true := by
    rw [known, Option.some_inj]
    exact ⟨fun same => same ▸ rfl, fun owned => by rw [← owned]⟩
  simp only [Keeps, Drops, owned_iff, reduceCtorEq, false_or, Operation.collect.injEq]
  grind

theorem isSome_get?_perform_iff (ref : StringRef) (state : State) (operation : Operation)
    (indexed : state.collector.Indexed) (kept : (state.perform operation).collector.Indexed) :
    ((state.perform operation).collector.get? ref).isSome = true ↔
      Registers ref state operation ∨
        (state.collector.get? ref).isSome = true ∧ ¬ Drops ref state operation := by
  rw [get?_perform indexed kept]
  cases operation with
  | track tracked | trackBorrowed tracked =>
      by_cases same : ref = tracked <;> simp [Registers, Drops, same, eq_comm (a := tracked)]
  | adopt adopted =>
      by_cases taken : state.collector.config.mode = .own ∧ ref = adopted <;>
        simp [Registers, Drops, taken]
  | forget forgotten =>
      by_cases same : ref = forgotten <;> simp [Registers, Drops, same, eq_comm (a := forgotten)]
  | collect roots =>
      cases known : state.collector.get? ref with
      | none => simp [Registers]
      | some entry => simp [Registers, Option.isSome_filter, keeps_iff_not_drops indexed known]
  | _ => simp [Registers, Drops]

theorem get?_perform_eq_owned_iff (ref : StringRef) (state : State) (operation : Operation)
    (indexed : state.collector.Indexed) (kept : (state.perform operation).collector.Indexed) :
    (state.perform operation).collector.get? ref = some ⟨ref, true⟩ ↔
      Acquires ref state operation ∨
        state.collector.get? ref = some ⟨ref, true⟩ ∧ ¬ Drops ref state operation := by
  rw [get?_perform indexed kept]
  cases operation with
  | track tracked =>
      by_cases same : ref = tracked
      · subst same
        cases known : state.collector.get? ref <;> simp [Acquires, Drops, known]
      · simp [Acquires, Drops, same, eq_comm (a := tracked)]
  | trackBorrowed tracked =>
      by_cases same : ref = tracked
      · subst same
        cases known : state.collector.get? ref <;> simp [Acquires, Drops, known]
      · simp [Acquires, Drops, same]
  | adopt adopted =>
      by_cases taken : state.collector.config.mode = .own ∧ ref = adopted
      · obtain ⟨own, rfl⟩ := taken
        cases known : state.collector.get? ref with
        | none => simp [Acquires, known]
        | some entry =>
            obtain ⟨-, rfl⟩ := indexed.get?_eq_some_iff.mp known
            simp [Acquires, known, own]
      · have not_acquired : ¬ Acquires ref state (.adopt adopted) := by
          rintro ⟨own, ⟨⟨⟩, _⟩ | ⟨same, _⟩⟩
          cases same
          exact taken ⟨own, rfl⟩
        simp [not_acquired, Drops, taken]
  | forget forgotten =>
      by_cases same : ref = forgotten <;> simp [Acquires, Drops, same, eq_comm (a := forgotten)]
  | collect roots =>
      cases known : state.collector.get? ref with
      | none => simp [Acquires, known]
      | some entry =>
          simp [Acquires, Option.filter_some, keeps_iff_not_drops indexed known, and_comm]
  | _ => simp [Acquires, Drops]

/-! ## Figures -/

/-- Whether a step registers a string that the collector did not know. -/
def isRegistration : State × Operation → Bool
  | (state, .track ref) => (state.collector.track ref (state.heap.slotOf ref)).1
  | (state, .trackBorrowed ref) => (state.collector.trackBorrowed ref (state.heap.slotOf ref)).1
  | _ => false

/-- Whether a step is a collection. -/
def isCollection : State × Operation → Bool
  | (_, .collect _) => true
  | _ => false

/-- The number of strings that a step frees as a collection. -/
def collected : State × Operation → Nat
  | (state, .collect roots) => (state.collector.collect roots state.heap).1.freed
  | _ => 0

theorem figures_insert (collector : Collector) (tracked : Tracked) (slot : Nat) :
    (collector.insert tracked slot).2.pending =
        collector.pending + (collector.insert tracked slot).1.toNat ∧
      (collector.insert tracked slot).2.totalFreed = collector.totalFreed := by
  unfold Collector.insert
  split <;> exact ⟨rfl, rfl⟩

theorem figures_adopt (collector : Collector) (ref : StringRef) :
    (collector.adopt ref).2.pending = collector.pending ∧
      (collector.adopt ref).2.totalFreed = collector.totalFreed := by
  unfold Collector.adopt
  split
  · split <;> exact ⟨rfl, rfl⟩
  · exact ⟨rfl, rfl⟩

theorem figures_forget (collector : Collector) (ref : StringRef) :
    (collector.forget ref).2.pending = collector.pending ∧
      (collector.forget ref).2.totalFreed = collector.totalFreed := by
  unfold Collector.forget
  split <;> exact ⟨rfl, rfl⟩

/-- Registrations and collections change the figures, and nothing else does. -/
theorem figures_perform (state : State) (operation : Operation) :
    (state.perform operation).collector.pending =
        (if isCollection (state, operation) then 0
          else state.collector.pending + (isRegistration (state, operation)).toNat) ∧
      (state.perform operation).collector.totalFreed =
        state.collector.totalFreed + collected (state, operation) := by
  cases operation with
  | alloc bytes =>
      rw [collector_perform_alloc]
      exact ⟨rfl, rfl⟩
  | free ref => exact ⟨rfl, rfl⟩
  | track ref => exact figures_insert _ _ _
  | trackBorrowed ref => exact figures_insert _ _ _
  | adopt ref => exact figures_adopt _ _
  | forget ref => exact figures_forget _ _
  | collect roots => exact ⟨rfl, rfl⟩
  | setMode mode => exact ⟨rfl, rfl⟩
  | setThreshold threshold => exact ⟨rfl, rfl⟩

/-- The registrations since the last collection are counted. -/
theorem pending_run {state : State} (nothing : state.collector.pending = 0)
    (operations : List Operation) :
    (state.run operations).collector.pending =
      ((state.steps operations).rtakeWhile fun step => !isCollection step).countP
        isRegistration := by
  induction operations using List.reverseRecOn with
  | nil => exact nothing
  | append_singleton operations operation induction =>
      rw [run_append_singleton, (figures_perform _ _).1, steps_append_singleton,
        List.rtakeWhile_concat, induction]
      cases isCollection (state.run operations, operation) with
      | true => rfl
      | false =>
          rw [if_neg Bool.false_ne_true, if_pos Bool.not_false, List.countP_append,
            List.countP_singleton]
          cases isRegistration (state.run operations, operation) <;> rfl

theorem totalFreed_run (state : State) (operations : List Operation) :
    (state.run operations).collector.totalFreed =
      state.collector.totalFreed + ((state.steps operations).map collected).sum := by
  induction operations generalizing state with
  | nil => rfl
  | cons operation rest induction =>
      rw [run, List.foldl_cons, ← run, induction, (figures_perform _ _).2, steps, List.map_cons,
        List.sum_cons, Nat.add_assoc]

end State

/-! ## Collectors with a history -/

/-- A collector that has just been set up, and a heap without strings. -/
def fresh (config : CollectorConfig) : State :=
  ⟨ofConfig config, {}⟩

/-- What is expected of a collector after operations on a fresh one and its heap: the index has the
position of the one entry of each string, a collection that marks entries leaves none marked and is
the one that is carried out, strings are known and owned as the history says, and the registrations
since the last collection are counted. -/
structure Consistent (start : State) (operations : List Operation) : Prop where
  indexed (ref : StringRef) (position : Nat) :
    (start.run operations).collector.index.get? ref.id = some position ↔
      ∃ entry, (start.run operations).collector.entries[position]? = some entry ∧ entry.ref = ref
  nodup : ((start.run operations).collector.entries.toList.map Tracked.ref).Nodup
  unmarked (roots : List StringRef) (heap : StringHeap) :
    (start.run operations).collector.markAndSweep roots heap =
      (((start.run operations).collector.collect roots heap).1,
        ((start.run operations).collector.collect roots heap).2.1.entries.toList.map
          (Marked.mk · false),
        ((start.run operations).collector.collect roots heap).2.2)
  known (ref : StringRef) : ((start.run operations).collector.get? ref).isSome = true ↔
    start.Since (State.Registers ref) (State.Drops ref) operations
  owned (ref : StringRef) : (start.run operations).collector.get? ref = some ⟨ref, true⟩ ↔
    start.Since (State.Acquires ref) (State.Drops ref) operations
  pending : (start.run operations).collector.pending =
    ((start.steps operations).rtakeWhile fun step => !State.isCollection step).countP
      State.isRegistration

theorem indexed_iff_refs {collector : Collector} :
    collector.Indexed ↔ ∀ (ref : StringRef) (position : Nat),
      collector.index.get? ref.id = some position ↔
        ∃ entry, collector.entries[position]? = some entry ∧ entry.ref = ref := by
  simp only [StringRef.ext_iff]
  exact ⟨fun indexed ref => indexed ref.id, fun indexed id => indexed ⟨id⟩⟩

theorem matches_fresh (config : CollectorConfig) :
    (fresh config).collector.Matches (fresh config).heap :=
  (current_ofConfig config).toMatches

theorem get?_fresh (config : CollectorConfig) (ref : StringRef) :
    (fresh config).collector.get? ref = none := by
  simp [fresh, ofConfig, get?, find?, SlotIndex.get?]

theorem consistent_of_indexed (config : CollectorConfig) {operations : List Operation}
    (indexed : ∀ before, before <+: operations →
      ((fresh config).run before).collector.Indexed) : Consistent (fresh config) operations := by
  have after := indexed operations List.prefix_rfl
  exact {
    indexed := indexed_iff_refs.mp after
    nodup := after.nodup_refs
    unmarked := fun roots heap => after.finds.markAndSweep_eq roots
    known := fun ref => State.iff_since (fun state => (state.collector.get? ref).isSome = true)
      (by simp [get?_fresh]) (State.isSome_get?_perform_iff ref) indexed
    owned := fun ref => State.iff_since (fun state => state.collector.get? ref = some ⟨ref, true⟩)
      (by simp [get?_fresh]) (State.get?_perform_eq_owned_iff ref) indexed
    pending := State.pending_run rfl operations }

/-- After each operation a collector is consistent with its history, exactly when no registration
meets another string with an entry in its slot. -/
theorem consistent_iff_clear (config : CollectorConfig) {operations : List Operation}
    (given : ∀ step ∈ (fresh config).steps operations, step.1.Given step.2) :
    (∀ before, before <+: operations → Consistent (fresh config) before) ↔
      ∀ step ∈ (fresh config).steps operations, step.1.Clear step.2 := by
  rw [← State.indexed_run_iff (matches_fresh config) (indexed_ofConfig config) given]
  constructor
  · exact fun consistent before inside => indexed_iff_refs.mpr (consistent before inside).indexed
  · exact fun indexed before inside =>
      consistent_of_indexed config fun earlier shorter => indexed earlier (shorter.trans inside)

/-- A slot may be taken again once the entry of the string that lay in it was forgotten. -/
theorem consistent_of_forgotten :
    let operations : List Operation :=
      [.alloc [97], .trackBorrowed ⟨0⟩, .free ⟨0⟩, .forget ⟨0⟩, .alloc [98], .track ⟨1⟩]
    Consistent (fresh { mode := .own }) operations ∧
      ((fresh { mode := .own }).run operations).collector.get? ⟨1⟩ = some ⟨⟨1⟩, true⟩ :=
  ⟨(consistent_iff_clear { mode := .own } (by decide)).mpr (by decide) _ List.prefix_rfl,
    by decide⟩

/-- A string is freed while it has an entry, and the string that gets its slot is registered. -/
def takenPlace : List Operation :=
  [.alloc [97], .track ⟨0⟩, .free ⟨0⟩, .alloc [98], .track ⟨1⟩]

/-- A string whose place was taken was registered and is not known, and it is registered again. -/
theorem not_consistent_takenPlace :
    ¬ Consistent (fresh {}) takenPlace ∧
      ((fresh {}).run takenPlace).collector.get? ⟨0⟩ = none ∧
      (((fresh {}).run takenPlace).collector.track ⟨0⟩ 0).1 = true ∧
      (((fresh {}).run takenPlace).collector.track ⟨0⟩ 0).2.size = 3 := by
  refine ⟨fun consistent => ?_, by decide, by decide, by decide⟩
  have registered : (fresh {}).Since (State.Registers ⟨0⟩) (State.Drops ⟨0⟩) takenPlace := by
    refine ⟨[.alloc [97]], .track ⟨0⟩, [.free ⟨0⟩, .alloc [98], .track ⟨1⟩], rfl, .inl rfl, ?_⟩
    intro earlier other later split drops
    have member : other ∈ [.free ⟨0⟩, .alloc [98], .track ⟨1⟩] := by rw [split]; simp
    rcases drops with rfl | ⟨roots, rfl, _⟩ <;> simp at member
  exact absurd ((consistent.known ⟨0⟩).mpr registered) (by decide)

/-- After each operation a collection is what it is to be, with any roots and on any heap, exactly
when no registration meets another string with an entry in its slot.  On its own heap a collection
frees in any case what it is to free, and keeps of the entries of live strings those that it is to
keep. -/
theorem collect_exact_iff_clear (config : CollectorConfig) {operations : List Operation}
    (given : ∀ step ∈ (fresh config).steps operations, step.1.Given step.2) :
    ((∀ before, before <+: operations →
        ((fresh config).run before).collector.CollectsExactly) ↔
      ∀ step ∈ (fresh config).steps operations, step.1.Clear step.2) ∧
    ∀ roots heap,
      let state := (fresh config).run operations
      let (stats, after, left) := state.collector.collect roots heap
      (heap = state.heap → state.collector.Release roots heap stats after left) ∧
        after.stats.freed =
          (((fresh config).steps operations).map State.collected).sum + stats.freed := by
  refine ⟨?_, fun roots heap => ⟨?_, ?_⟩⟩
  · rw [← State.indexed_run_iff (matches_fresh config) (indexed_ofConfig config) given]
    refine forall_congr' fun before => forall_congr' fun inside => ?_
    have given_before (step) (member : step ∈ (fresh config).steps before) :=
      given step ((State.steps_prefix inside).subset member)
    exact (State.matches_run (matches_fresh config) given_before).finds.collectsExactly_iff
  · rintro rfl
    exact (State.matches_run (matches_fresh config) given).finds.release roots
  · have total := State.totalFreed_run (fresh config) operations
    exact congrArg (· + _) (total.trans (Nat.zero_add _))

/-- A slot may be taken again once a collection has dropped the entry of the string that lay in it,
and a collection then frees the new string. -/
theorem collection_of_dropped :
    let state := (fresh { mode := .own }).run
      [.alloc [97], .track ⟨0⟩, .free ⟨0⟩, .collect [], .alloc [98], .track ⟨1⟩]
    let (stats, after, left) := state.collector.collect [⟨0⟩, ⟨0⟩] state.heap
    state.collector.Collection [⟨0⟩, ⟨0⟩] state.heap stats after left ∧ stats.freed = 1 :=
  ⟨(collect_exact_iff_clear { mode := .own } (by decide +kernel)).1.mpr (by decide +kernel) _
    List.prefix_rfl [⟨0⟩, ⟨0⟩] _, by decide +kernel⟩

/-- A string whose place was taken is not marked when it is among the roots, and its entry is not
kept. -/
theorem not_collection_takenPlace :
    let state := (fresh {}).run takenPlace
    let (stats, after, left) := state.collector.collect [⟨0⟩] state.heap
    stats.marked = 0 ∧ after.entries.toList = [⟨⟨1⟩, false⟩] ∧
      ¬ state.collector.Collection [⟨0⟩] state.heap stats after left := by
  refine ⟨by decide +kernel, by decide +kernel, fun collection => ?_⟩
  have kept := collection.entries
  revert kept
  decide +kernel

/-- On its heap a collector can collect with marks on the entries. -/
theorem markAndSweep_run_eq (config : CollectorConfig) {operations : List Operation}
    (given : ∀ step ∈ (fresh config).steps operations, step.1.Given step.2)
    (roots : List StringRef) :
    let state := (fresh config).run operations
    state.collector.markAndSweep roots state.heap =
      ((state.collector.collect roots state.heap).1,
        (state.collector.collect roots state.heap).2.1.entries.toList.map (Marked.mk · false),
        (state.collector.collect roots state.heap).2.2) :=
  (State.matches_run (matches_fresh config) given).finds.markAndSweep_eq roots

end Collector

end StackMachine
