import Mathlib.Data.List.Dedup
import StackMachine.Proofs.Collector

/-!
# What the operations of a collector do

Each operation of an indexed collector is described by what it does to the entry of every string.
Forgetting a string moves the last entry into the place of the one it drops, and the index follows.
A collection frees the owned strings that are live and that no root refers to, and drops the entries
of these and of the strings that are gone; all figures count what they say, and the same collection
once more changes nothing.
-/

namespace StackMachine

namespace Collector

variable {collector : Collector}

/-! ## The entry of a string -/

theorem Indexed.get?_eq_some_iff (indexed : collector.Indexed) {ref : StringRef} {entry : Tracked} :
    collector.get? ref = some entry ↔ entry ∈ collector.entries ∧ entry.ref = ref := by
  rw [get?, Option.map_eq_some_iff]
  constructor
  · rintro ⟨⟨position, _⟩, found, rfl⟩
    obtain ⟨there, ref_eq⟩ := indexed.find?_eq_some_iff.mp found
    exact ⟨Array.mem_of_getElem? there, ref_eq⟩
  · rintro ⟨member, ref_eq⟩
    obtain ⟨position, there⟩ := Array.getElem?_of_mem member
    exact ⟨(position, entry), indexed.find?_eq_some_iff.mpr ⟨there, ref_eq⟩, rfl⟩

theorem Indexed.get?_of_mem (indexed : collector.Indexed) {entry : Tracked}
    (member : entry ∈ collector.entries) : collector.get? entry.ref = some entry :=
  indexed.get?_eq_some_iff.mpr ⟨member, rfl⟩

theorem Indexed.isSome_get?_iff (indexed : collector.Indexed) {ref : StringRef} :
    (collector.get? ref).isSome = true ↔ ref ∈ collector.entries.toList.map Tracked.ref := by
  simp only [Option.isSome_iff_exists, indexed.get?_eq_some_iff, List.mem_map, Array.mem_toList_iff]

theorem Indexed.contains_eq_isSome_get? (indexed : collector.Indexed) (ref : StringRef) :
    collector.index.contains ref.id = (collector.get? ref).isSome := by
  rw [Bool.eq_iff_iff, indexed.contains_iff, Option.isSome_iff_exists]
  exact exists_congr fun entry => indexed.get?_eq_some_iff.symm

/-- No string has two entries. -/
theorem Indexed.nodup_refs (indexed : collector.Indexed) :
    (collector.entries.toList.map Tracked.ref).Nodup := by
  refine List.pairwise_map.mpr (indexed.pairwise.imp fun different same => ?_)
  exact different (congrArg StringRef.id same)

theorem Indexed.get?_insert (indexed : collector.Indexed) {tracked : Tracked} {slot : Nat}
    (kept : (collector.insert tracked slot).2.Indexed) (ref : StringRef) :
    (collector.insert tracked slot).2.get? ref =
      if ref = tracked.ref then some ((collector.get? ref).getD tracked)
      else collector.get? ref := by
  have contains_eq := indexed.contains_eq_isSome_get? tracked.ref
  refine Option.ext fun entry => ?_
  rw [kept.get?_eq_some_iff]
  cases known : collector.get? tracked.ref with
  | some old =>
      rw [known, Option.isSome_some] at contains_eq
      rw [Collector.insert, if_pos contains_eq, ← indexed.get?_eq_some_iff]
      split
      · rename_i same
        rw [same, known, Option.getD_some]
      · rfl
  | none =>
      rw [known, Option.isSome_none] at contains_eq
      rw [Collector.insert, if_neg (by simp [contains_eq]), Array.mem_push, or_and_right,
        ← indexed.get?_eq_some_iff]
      split
      · rename_i same
        simp only [same, known, Option.getD_none, reduceCtorEq, false_or, Option.some.injEq]
        constructor
        · rintro ⟨rfl, _⟩
          rfl
        · rintro rfl
          exact ⟨rfl, rfl⟩
      · rename_i other
        refine or_iff_left ?_
        rintro ⟨rfl, rfl⟩
        exact other rfl

theorem Indexed.get?_adopt (indexed : collector.Indexed) (adopted ref : StringRef) :
    (collector.adopt adopted).2.get? ref =
      if collector.config.mode = .own ∧ ref = adopted then
        (collector.get? ref).map fun entry => ⟨entry.ref, true⟩
      else collector.get? ref := by
  have adopted_get? {entry : Tracked} : (collector.adopt adopted).2.get? ref = some entry ↔
      entry ∈ (collector.adopt adopted).2.entries ∧ entry.ref = ref :=
    (indexed.adopt adopted).get?_eq_some_iff
  cases known : collector.get? ref with
  | none =>
      have unknown : (collector.adopt adopted).2.get? ref = none := by
        refine Option.eq_none_iff_forall_ne_some.mpr fun entry found => ?_
        obtain ⟨member, rfl⟩ := adopted_get?.mp found
        obtain ⟨old, there, ref_eq⟩ := indexed.exists_mem_of_mem_adopt member
        cases known.symm.trans (ref_eq ▸ indexed.get?_of_mem there)
      rw [unknown, Option.map_none, ite_self]
  | some entry =>
      obtain ⟨member, rfl⟩ := indexed.get?_eq_some_iff.mp known
      by_cases own : collector.config.mode = .own
      · by_cases same : entry.ref = adopted
        · subst same
          rw [if_pos ⟨own, rfl⟩]
          exact adopted_get?.mpr ⟨indexed.mem_adopt_of_mem own member, rfl⟩
        · rw [if_neg (same ·.2)]
          exact adopted_get?.mpr ⟨indexed.mem_adopt_of_ne member same, rfl⟩
      · have unchanged : (collector.adopt adopted).2 = collector := by
          unfold Collector.adopt
          split
          · rename_i mode_eq _
            exact absurd mode_eq own
          · rfl
        rw [if_neg (own ·.1), unchanged, known]

/-! ## Forgetting -/

theorem Indexed.get?_forget (indexed : collector.Indexed) (forgotten ref : StringRef) :
    (collector.forget forgotten).2.get? ref =
      if ref = forgotten then none else collector.get? ref := by
  cases found : collector.find? forgotten with
  | none =>
      have unknown : collector.get? forgotten = none := by rw [get?, found, Option.map_none]
      simp only [Collector.forget, found]
      split
      · rename_i same
        rw [same, unknown]
      · rfl
  | some place =>
      obtain ⟨position, gone⟩ := place
      obtain ⟨there, rfl⟩ := indexed.find?_eq_some_iff.mp found
      have inside := (Array.getElem?_eq_some_iff.mp there).1
      have entries_eq : (collector.forget gone.ref).2.entries =
          removeAt collector.entries position := by rw [Collector.forget, found]
      refine Option.ext fun entry => ?_
      rw [(indexed.forget gone.ref).get?_eq_some_iff, entries_eq, Array.mem_iff_getElem?]
      simp only [getElem?_removeAt inside]
      constructor
      · rintro ⟨⟨place, here⟩, rfl⟩
        split at here
        · rename_i before_last
          have elsewhere : entry.ref ≠ gone.ref := by
            intro same
            have place_eq := indexed.position_unique here there (congrArg StringRef.id same)
            split at place_eq <;> omega
          rw [if_neg elsewhere]
          exact indexed.get?_of_mem (Array.mem_of_getElem? here)
        · cases here
      · intro kept
        split at kept
        · cases kept
        · rename_i other
          obtain ⟨member, rfl⟩ := indexed.get?_eq_some_iff.mp kept
          obtain ⟨place, here⟩ := Array.getElem?_of_mem member
          have elsewhere : place ≠ position := by
            rintro rfl
            cases here.symm.trans there
            exact other rfl
          have place_inside := (Array.getElem?_eq_some_iff.mp here).1
          -- The last entry is found in the place of the one that is gone, and any other in its own.
          by_cases last : place + 1 < collector.entries.size
          · exact ⟨⟨place, by rw [if_pos last, if_neg elsewhere, here]⟩, rfl⟩
          · have place_eq : collector.entries.size - 1 = place := by omega
            exact ⟨⟨position, by rw [if_pos (by omega), if_pos rfl, place_eq, here]⟩, rfl⟩

/-! ## Collecting -/

/-- A string is to be freed by a collection: it is owned, live and none of the roots, and the mode
allows it. -/
def Frees (collector : Collector) (roots : List StringRef) (heap : StringHeap) (ref : StringRef) :
    Prop :=
  collector.config.mode = .own ∧ collector.get? ref = some ⟨ref, true⟩ ∧ ref ∉ roots ∧
    heap.contains ref = true

instance (collector : Collector) (roots : List StringRef) (heap : StringHeap) :
    DecidablePred (collector.Frees roots heap) := fun _ =>
  inferInstanceAs (Decidable (_ ∧ _ ∧ _ ∧ _))

theorem isReleased_iff {mode : CollectionMode} {roots : List StringRef} {entry : Tracked} :
    isReleased mode (reachedFrom roots) entry = true ↔
      mode = .own ∧ entry.owned = true ∧ entry.ref ∉ roots := by
  rw [← contains_reachedFrom]
  simp [isReleased, and_assoc]

theorem Indexed.get?_collect (indexed : collector.Indexed) (roots : List StringRef)
    (heap : StringHeap) (ref : StringRef) :
    (collector.collect roots heap).2.1.get? ref =
      (collector.get? ref).filter (collector.Keeps roots heap) := by
  refine Option.ext fun entry => ?_
  rw [(indexed.collect roots heap).get?_eq_some_iff, Option.filter_eq_some_iff,
    indexed.get?_eq_some_iff, ← Array.mem_toList_iff, indexed.toList_entries_collect,
    List.mem_filter, Array.mem_toList_iff]
  exact and_right_comm

/-- The strings that a collection frees, in the order of their entries. -/
def freedBy (collector : Collector) (roots : List StringRef) (heap : StringHeap) : List StringRef :=
  (collector.entries.toList.map Tracked.ref).filter (collector.Frees roots heap)

theorem Finds.get?_of_mem {heap : StringHeap} (finds : collector.Finds heap.Live) {entry : Tracked}
    (member : entry ∈ collector.entries) (live : heap.Live entry.ref) :
    collector.get? entry.ref = some entry := by
  obtain ⟨position, there⟩ := Array.getElem?_of_mem member
  rw [get?, find?, finds.found position entry there live, Option.bind_some, there]
  rfl

theorem Finds.frees_iff {roots : List StringRef} {heap : StringHeap}
    (finds : collector.Finds heap.Live) {entry : Tracked} (member : entry ∈ collector.entries) :
    collector.Frees roots heap entry.ref ↔
      isReleased collector.config.mode (reachedFrom roots) entry = true ∧
        heap.contains entry.ref = true := by
  rw [Frees, isReleased_iff, ← and_assoc, ← and_assoc, ← StringHeap.live_iff_contains, ← and_assoc]
  refine and_congr_left fun live => ?_
  rw [finds.get?_of_mem member live, Option.some_inj]
  refine and_congr_left fun _ => and_congr_right fun _ => ?_
  exact ⟨fun same => same ▸ rfl, fun owned => by rw [← owned]⟩

theorem Finds.freedBy_eq {heap : StringHeap} (finds : collector.Finds heap.Live)
    (roots : List StringRef) :
    collector.freedBy roots heap =
      ((collector.entries.toList.filter
        (isReleased collector.config.mode (reachedFrom roots))).map Tracked.ref).filter
          heap.contains := by
  rw [freedBy, List.filter_map, List.filter_map, List.filter_filter]
  refine congrArg _ (List.filter_congr fun entry member => ?_)
  rw [Bool.eq_iff_iff, Function.comp, decide_eq_true_iff,
    finds.frees_iff (Array.mem_toList_iff.mp member), Bool.and_eq_true, Function.comp, and_comm]

/-! ### The heap -/

theorem get?_foldl_free (entries : List Tracked) (heap : StringHeap) (ref : StringRef) :
    (entries.foldl (fun heap entry => (heap.free entry.ref).2) heap).get? ref =
      if ref ∈ entries.map Tracked.ref then none else heap.get? ref := by
  induction entries generalizing heap with
  | nil => rfl
  | cons entry rest induction =>
      rw [List.foldl_cons, induction, StringHeap.get?_free, List.map_cons]
      by_cases later : ref ∈ rest.map Tracked.ref
      · rw [if_pos later, if_pos (List.mem_cons_of_mem _ later)]
      · simp only [List.mem_cons, later, or_false, if_false]

/-- Freeing distinct strings gives back what they take. -/
theorem allocatedBytes_foldl_free {entries : List Tracked} {heap : StringHeap}
    (distinct : entries.Pairwise fun left right => left.ref = right.ref → ¬ heap.Live left.ref) :
    (entries.foldl (fun heap entry => (heap.free entry.ref).2) heap).allocatedBytes =
      heap.allocatedBytes - ((entries.map Tracked.ref).filterMap heap.bytes?).flatten.length := by
  induction entries generalizing heap with
  | nil => rfl
  | cons entry rest induction =>
      rw [List.pairwise_cons] at distinct
      have others : (rest.map Tracked.ref).filterMap (heap.free entry.ref).2.bytes? =
          (rest.map Tracked.ref).filterMap heap.bytes? := by
        refine List.filterMap_congr fun ref member => ?_
        obtain ⟨other, inside, rfl⟩ := List.mem_map.mp member
        rw [StringHeap.bytes?_free]
        split
        · rename_i same
          have dead := distinct.1 other inside same.symm
          rw [same]
          exact (Option.eq_none_iff_forall_ne_some.mpr fun bytes content =>
            dead ⟨bytes, content⟩).symm
        · rfl
      have later : rest.Pairwise fun left right =>
          left.ref = right.ref → ¬ (heap.free entry.ref).2.Live left.ref :=
        distinct.2.imp fun alone same live => alone same (StringHeap.live_free_iff.mp live).2
      rw [List.foldl_cons, induction later, others, StringHeap.allocatedBytes_free, List.map_cons,
        List.filterMap_cons]
      cases heap.bytes? entry.ref with
      | none => rw [Option.getD_none, List.length_nil, Nat.sub_zero]
      | some bytes =>
          rw [Option.getD_some, List.flatten_cons, List.length_append, Nat.sub_sub]

/-- A collection takes the strings to be freed off the heap, and no other. -/
theorem Finds.get?_heap_collect {heap : StringHeap} (finds : collector.Finds heap.Live)
    (roots : List StringRef) (ref : StringRef) :
    (collector.collect roots heap).2.2.get? ref =
      if collector.Frees roots heap ref then none else heap.get? ref := by
  have frees_iff : collector.Frees roots heap ref ↔
      ref ∈ (collector.entries.toList.filter
        (isReleased collector.config.mode (reachedFrom roots))).map Tracked.ref ∧
          heap.contains ref = true := by
    rw [← List.mem_filter, ← finds.freedBy_eq, freedBy, List.mem_filter, decide_eq_true_iff]
    refine ⟨fun frees => ⟨?_, frees⟩, And.right⟩
    obtain ⟨⟨position, entry⟩, found, _⟩ := Option.map_eq_some_iff.mp frees.2.1
    obtain ⟨_, there, rfl⟩ := finds.of_find? found
    exact List.mem_map_of_mem (Array.mem_toList_iff.mpr (Array.mem_of_getElem? there))
  rw [heap_collect, get?_foldl_free]
  by_cases live : heap.contains ref = true
  · simp only [frees_iff, live, and_true]
  · have gone : heap.get? ref = none := by simpa [StringHeap.contains] using live
    simp only [gone, ite_self]

theorem Finds.allocatedBytes_collect {heap : StringHeap} (finds : collector.Finds heap.Live)
    (roots : List StringRef) :
    (collector.collect roots heap).2.2.allocatedBytes =
      heap.allocatedBytes -
        ((collector.freedBy roots heap).filterMap heap.bytes?).flatten.length := by
  have distinct : collector.entries.toList.Pairwise fun left right =>
      left.ref = right.ref → ¬ heap.Live left.ref :=
    finds.pairwise.imp fun alone same => alone (congrArg StringRef.id same)
  rw [heap_collect, allocatedBytes_foldl_free (distinct.sublist List.filter_sublist),
    finds.freedBy_eq, List.filterMap_filter]
  congr 3
  refine List.filterMap_congr fun ref _ => ?_
  unfold StringHeap.contains StringHeap.bytes?
  cases heap.get? ref <;> rfl

/-! ### The figures -/

theorem Finds.freed_collect {heap : StringHeap} (finds : collector.Finds heap.Live)
    (roots : List StringRef) :
    (collector.collect roots heap).1.freed = (collector.freedBy roots heap).length := by
  rw [finds.freedBy_eq, List.filter_map, List.length_map, ← List.countP_eq_length_filter]
  simp only [Collector.collect, ← Array.countP_toList, Array.toList_filter]
  rfl

/-- The entries reached are those of the distinct roots that have one. -/
theorem Indexed.marked_collect (indexed : collector.Indexed) (roots : List StringRef)
    (heap : StringHeap) :
    (collector.collect roots heap).1.marked =
      (roots.dedup.filter fun ref => (collector.get? ref).isSome).length := by
  have permuted : ((collector.entries.toList.map Tracked.ref).filter (· ∈ roots)).Perm
      (roots.dedup.filter fun ref => (collector.get? ref).isSome) := by
    refine (List.perm_ext_iff_of_nodup (indexed.nodup_refs.filter _)
      ((List.nodup_dedup roots).filter _)).mpr fun ref => ?_
    rw [List.mem_filter, List.mem_filter, List.mem_dedup, indexed.isSome_get?_iff,
      decide_eq_true_iff, and_comm]
  have all := List.zipIdx_map_fst 0 collector.entries.toList
  rw [← permuted.length_eq, List.filter_map, List.length_map, ← List.countP_eq_length_filter, ← all,
    List.countP_map]
  simp only [Collector.collect, ← Array.countP_toList, Array.toList_map, Array.toList_zipIdx,
    List.countP_map]
  refine List.countP_congr fun place member => ?_
  obtain ⟨entry, position⟩ := place
  have there := List.mem_zipIdx_iff_getElem?.mp member
  rw [Array.getElem?_toList] at there
  simpa using indexed.marked_iff there

/-! ### The same collection once more -/

theorem Keeps.not_isReleased {roots : List StringRef} {heap : StringHeap} {entry : Tracked}
    (kept : collector.Keeps roots heap entry) :
    ¬ isReleased collector.config.mode (reachedFrom roots) entry = true := by
  rw [isReleased_iff]
  rintro ⟨own, owned, unreached⟩
  rcases kept with reached | ⟨left_alone, _⟩
  · exact unreached reached
  · exact left_alone ⟨own, owned⟩

/-- A collection that is to keep every entry changes neither entries nor heap. -/
theorem Indexed.collect_of_keeps (indexed : collector.Indexed) {roots : List StringRef}
    {heap : StringHeap} (kept : ∀ entry ∈ collector.entries, collector.Keeps roots heap entry) :
    (collector.collect roots heap).1.freed = 0 ∧ (collector.collect roots heap).2.2 = heap ∧
      (collector.collect roots heap).2.1.entries = collector.entries := by
  have nothing : collector.entries.toList.filter
      (isReleased collector.config.mode (reachedFrom roots)) = [] :=
    List.filter_eq_nil_iff.mpr fun entry member =>
      (kept entry (Array.mem_toList_iff.mp member)).not_isReleased
  refine ⟨?_, ?_, ?_⟩
  · rw [indexed.finds.freed_collect, indexed.finds.freedBy_eq, nothing]
    rfl
  · rw [heap_collect, nothing]
    rfl
  · rw [← Array.toList_inj, indexed.toList_entries_collect, List.filter_eq_self]
    exact fun entry member => decide_eq_true_iff.mpr (kept entry (Array.mem_toList_iff.mp member))

/-- What a collection leaves, the same collection is to keep. -/
theorem Indexed.keeps_of_mem_collect (indexed : collector.Indexed) {roots : List StringRef}
    {heap : StringHeap} {entry : Tracked}
    (left : entry ∈ (collector.collect roots heap).2.1.entries) :
    (collector.collect roots heap).2.1.Keeps roots (collector.collect roots heap).2.2 entry := by
  rw [← Array.mem_toList_iff, indexed.toList_entries_collect, List.mem_filter, decide_eq_true_iff,
    Array.mem_toList_iff] at left
  obtain ⟨member, kept⟩ := left
  have spared : ¬ collector.Frees roots heap entry.ref := fun frees =>
    kept.not_isReleased ((indexed.finds.frees_iff member).mp frees).1
  refine kept.imp_right fun left_alone => ⟨left_alone.1, ?_⟩
  rw [StringHeap.contains, indexed.finds.get?_heap_collect, if_neg spared]
  exact left_alone.2

/-- The entries of live strings that a collection keeps are those that are to be kept. -/
theorem Finds.live_entries_collect {heap : StringHeap} (finds : collector.Finds heap.Live)
    (roots : List StringRef) :
    (collector.collect roots heap).2.1.entries.toList.filter (heap.contains ·.ref) =
      (collector.entries.toList.filter (collector.Keeps roots heap)).filter
        (heap.contains ·.ref) := by
  have all := List.zipIdx_map_fst 0 collector.entries.toList
  rw [Collector.toList_entries_collect, List.filter_filter, List.filter_map, List.filter_filter]
  conv_rhs => rw [← all, List.filter_map]
  refine congrArg _ (List.filter_congr fun place member => ?_)
  obtain ⟨entry, position⟩ := place
  have there := List.mem_zipIdx_iff_getElem?.mp member
  rw [Array.getElem?_toList] at there
  rw [Function.comp, Function.comp, Bool.eq_iff_iff, Bool.and_eq_true, Bool.and_eq_true,
    decide_eq_true_iff]
  refine and_congr_right fun live => ?_
  rw [Keeps, ← finds.marked_iff there (StringHeap.live_iff_contains.mpr live)]
  simp [isKept, -not_and, Decidable.not_and_iff_or_not]

/-- What a collection with given roots makes of a heap and of the entries of live strings: the
strings to be freed are gone and are counted, nothing else is changed on the heap, and of the
entries those to be kept are left in their order. -/
structure Release (collector : Collector) (roots : List StringRef) (heap : StringHeap)
    (stats : CollectionStats) (after : Collector) (left : StringHeap) : Prop where
  get? (ref : StringRef) :
    left.get? ref = if collector.Frees roots heap ref then none else heap.get? ref
  nextRef : left.nextRef = heap.nextRef
  allocatedBytes : left.allocatedBytes =
    heap.allocatedBytes - ((collector.freedBy roots heap).filterMap heap.bytes?).flatten.length
  freed : stats.freed = (collector.freedBy roots heap).length
  live : after.entries.toList.filter (heap.contains ·.ref) =
    (collector.entries.toList.filter (collector.Keeps roots heap)).filter (heap.contains ·.ref)

theorem Finds.release {heap : StringHeap} (finds : collector.Finds heap.Live)
    (roots : List StringRef) :
    collector.Release roots heap (collector.collect roots heap).1
      (collector.collect roots heap).2.1 (collector.collect roots heap).2.2 where
  get? := finds.get?_heap_collect roots
  nextRef := by rw [StringHeap.nextRef, heap_collect, next_foldl_free, StringHeap.nextRef]
  allocatedBytes := finds.allocatedBytes_collect roots
  freed := finds.freed_collect roots
  live := finds.live_entries_collect roots

/-- What a collection with given roots makes of a collector and a heap: beside the release of
strings, just the entries to be kept are left in their order, and the figures are those of this
collection and of all so far. -/
structure Collection (collector : Collector) (roots : List StringRef) (heap : StringHeap)
    (stats : CollectionStats) (after : Collector) (left : StringHeap) : Prop
    extends collector.Release roots heap stats after left where
  entries : after.entries.toList = collector.entries.toList.filter (collector.Keeps roots heap)
  config : after.config = collector.config
  pending : after.pending = 0
  figures : stats = {
    tracked := collector.size
    marked := (roots.dedup.filter fun ref => (collector.get? ref).isSome).length
    freed := (collector.freedBy roots heap).length
    retained := after.size
    collections := collector.stats.collections + 1 }
  total : after.stats =
    { stats with tracked := after.size, freed := collector.stats.freed + stats.freed }
  again : (after.collect roots left).1.freed = 0 ∧ (after.collect roots left).2.2 = left ∧
    (after.collect roots left).2.1.entries = after.entries

theorem Indexed.collection (indexed : collector.Indexed) (roots : List StringRef)
    (heap : StringHeap) :
    collector.Collection roots heap (collector.collect roots heap).1
      (collector.collect roots heap).2.1 (collector.collect roots heap).2.2 where
  toRelease := indexed.finds.release roots
  entries := indexed.toList_entries_collect roots heap
  config := rfl
  pending := rfl
  figures := by
    rw [← indexed.marked_collect roots heap, ← indexed.finds.freed_collect roots]
    rfl
  total := rfl
  again := (indexed.collect roots heap).collect_of_keeps fun _ => indexed.keeps_of_mem_collect

/-! ### Every collection -/

/-- With any roots and on any heap, a collection is what it is to be. -/
def CollectsExactly (collector : Collector) : Prop :=
  ∀ roots heap, collector.Collection roots heap (collector.collect roots heap).1
    (collector.collect roots heap).2.1 (collector.collect roots heap).2.2

/-- When a root without a string keeps its entries and no others, the index leads to them. -/
theorem Finds.get?_of_collectsExactly {asked : StringRef → Prop} (finds : collector.Finds asked)
    (exactly : collector.CollectsExactly) {position : Nat} {entry : Tracked}
    (there : collector.entries[position]? = some entry) :
    collector.index.get? entry.ref.id = some position := by
  let places := collector.entries.toList.zipIdx
  let marked (place : Tracked × Nat) : Bool :=
    (markedFrom collector.index [entry.ref]).contains place.2
  let rooted (place : Tracked × Nat) : Bool := place.1.ref = entry.ref
  have marked_iff {place : Tracked × Nat} :
      marked place = true ↔ collector.index.get? entry.ref.id = some place.2 := by
    simp [marked, contains_markedFrom]
  have inside {place : Tracked × Nat} : place ∈ places ↔
      collector.entries[place.2]? = some place.1 := by
    rw [List.mem_zipIdx_iff_getElem?, Array.getElem?_toList]
  have kept_eq : (places.filter marked).map Prod.fst = (places.filter rooted).map Prod.fst := by
    have kept := (exactly [entry.ref] {}).entries
    have all := List.zipIdx_map_fst 0 collector.entries.toList
    rw [Collector.toList_entries_collect] at kept
    conv_rhs at kept => rw [← all, List.filter_map]
    convert kept using 3 <;> funext place <;>
      simp [marked, rooted, isKept, Keeps, StringHeap.contains, StringHeap.get?]
  have narrowed : (places.filter rooted).filter marked = places.filter marked := by
    rw [List.filter_filter]
    refine List.filter_congr fun place member => ?_
    rw [Bool.and_eq_left_iff_imp]
    intro found
    obtain ⟨other, here, id_eq⟩ := finds.sound _ _ (marked_iff.mp found)
    cases (inside.mp member).symm.trans here
    exact decide_eq_true (StringRef.ext id_eq)
  have length_eq := congrArg List.length kept_eq
  rw [List.length_map, List.length_map, ← narrowed] at length_eq
  have every := List.length_filter_eq_length_iff.mp length_eq
  exact marked_iff.mp (every (entry, position)
    (List.mem_filter.mpr ⟨inside.mpr there, decide_eq_true rfl⟩))

theorem Finds.collectsExactly_iff {asked : StringRef → Prop} (finds : collector.Finds asked) :
    collector.CollectsExactly ↔ collector.Indexed := by
  constructor
  · refine fun exactly id position => ⟨finds.sound id position, ?_⟩
    rintro ⟨entry, there, rfl⟩
    exact finds.get?_of_collectsExactly exactly there
  · exact fun indexed => indexed.collection

end Collector

end StackMachine
