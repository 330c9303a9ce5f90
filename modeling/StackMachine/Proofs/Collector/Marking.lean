import StackMachine.Proofs.Collector.Collection

/-!
# Marking and sweeping

A collection can be carried out in place: the entry that the index has for a root is marked, and
then the entries are gone through in order, where a mark is taken off and an entry without one is
freed, kept or dropped.  Each string is freed while later entries are still to be looked at, and it
is freed for want of a mark, whether or not it is one of the roots.  On a collector whose index
leads to the entries of all live strings this comes to the collection that looks at the roots and at
the heap as it was, and no mark is left.
-/

namespace StackMachine

namespace Collector

/-- An entry with its mark. -/
structure Marked where
  /-- The entry. -/
  entry : Tracked
  /-- Whether a root was found to refer to its string. -/
  marked : Bool
deriving DecidableEq, Repr

/-- Marks the entry that the index has for a root, and counts it when it had no mark. -/
def markRoot (index : SlotIndex) : Nat × List Marked → StringRef → Nat × List Marked
  | (count, entries), root =>
    match (index.get? root.id).bind fun position => (entries[position]?).map (position, ·) with
    | some (position, ⟨entry, false⟩) => (count + 1, entries.set position ⟨entry, true⟩)
    | _ => (count, entries)

/-- Goes through entries: marks are taken off, and of the entries without one those are dropped that
are freed or whose string is gone.  Gives the number of strings freed, the entries left and the
heap. -/
def sweep (mode : CollectionMode) : List Marked → StringHeap → Nat × List Marked × StringHeap
  | [], heap => (0, [], heap)
  | ⟨entry, marked⟩ :: rest, heap =>
    if marked then
      let (freed, kept, heap) := sweep mode rest heap
      (freed, ⟨entry, false⟩ :: kept, heap)
    else if mode == .own && entry.owned then
      let (gone, heap) := heap.free entry.ref
      let (freed, kept, heap) := sweep mode rest heap
      (if gone then freed + 1 else freed, kept, heap)
    else if heap.contains entry.ref then
      let (freed, kept, heap) := sweep mode rest heap
      (freed, ⟨entry, false⟩ :: kept, heap)
    else sweep mode rest heap

/-- A collection carried out with marks on the entries. -/
def markAndSweep (collector : Collector) (roots : List StringRef) (heap : StringHeap) :
    CollectionStats × List Marked × StringHeap :=
  let entries := collector.entries.toList.map (Marked.mk · false)
  let (marked, entries) := roots.foldl (markRoot collector.index) (0, entries)
  let (freed, kept, heap) := sweep collector.config.mode entries heap
  ({ tracked := collector.size, marked, freed, retained := kept.length,
     collections := collector.last.collections + 1 }, kept, heap)

variable {collector : Collector}

/-! ## Marking -/

/-- The entries with marks at given positions. -/
def markedAt (positions : HandleTable Unit) (entries : List Tracked) : List Marked :=
  entries.zipIdx.map fun (entry, position) => ⟨entry, positions.contains position⟩

theorem getElem?_markedAt (positions : HandleTable Unit) (entries : List Tracked) (position : Nat) :
    (markedAt positions entries)[position]? =
      entries[position]?.map fun entry => ⟨entry, positions.contains position⟩ := by
  rw [markedAt, List.getElem?_map, List.getElem?_zipIdx, Option.map_map, Nat.zero_add]
  rfl

theorem map_entry_markedAt (positions : HandleTable Unit) (entries : List Tracked) :
    (markedAt positions entries).map Marked.entry = entries := by
  rw [markedAt, List.map_map]
  exact List.zipIdx_map_fst 0 entries

theorem contains_insert (positions : HandleTable Unit) (position place : Nat) :
    (positions.insert position ()).contains place =
      (decide (place = position) || positions.contains place) := by
  rw [HandleTable.contains, HandleTable.get?_insert]
  split <;> simp [HandleTable.contains, *]

/-- A position that has its mark already, or has no entry, makes no difference. -/
theorem markedAt_insert_of_marked {positions : HandleTable Unit} {entries : List Tracked}
    {position : Nat} (same : ∀ entry, entries[position]? = some entry →
      positions.contains position = true) :
    markedAt (positions.insert position ()) entries = markedAt positions entries := by
  refine List.ext_getElem? fun place => ?_
  rw [getElem?_markedAt, getElem?_markedAt, contains_insert]
  cases there : entries[place]? with
  | none => rfl
  | some entry =>
      by_cases here : place = position
      · subst here
        simp [same entry there]
      · simp [here]

theorem markedAt_insert {positions : HandleTable Unit} {entries : List Tracked} {position : Nat}
    {entry : Tracked} (there : entries[position]? = some entry) :
    markedAt (positions.insert position ()) entries =
      (markedAt positions entries).set position ⟨entry, true⟩ := by
  obtain ⟨inside, entry_eq⟩ := List.getElem?_eq_some_iff.mp there
  refine List.ext_getElem? fun place => ?_
  rw [List.getElem?_set, getElem?_markedAt, getElem?_markedAt, contains_insert]
  by_cases here : position = place
  · subst here
    simp [markedAt, inside, entry_eq]
  · simp [here, Ne.symm here]

/-- Marking one more root marks the entry that the index leads to. -/
theorem markRoot_eq (index : SlotIndex) (done : List StringRef) (root : StringRef)
    (entries : List Tracked) :
    markRoot index
        ((markedAt (markedFrom index done) entries).countP Marked.marked,
          markedAt (markedFrom index done) entries) root =
      ((markedAt (markedFrom index (done ++ [root])) entries).countP Marked.marked,
        markedAt (markedFrom index (done ++ [root])) entries) := by
  have marked_eq : markedFrom index (done ++ [root]) =
      (index.get? root.id).elim (markedFrom index done) ((markedFrom index done).insert · ()) := by
    rw [markedFrom, List.foldl_append]
    rfl
  cases found : index.get? root.id with
  | none => rw [marked_eq, markRoot, found, Option.bind_none, Option.elim_none]
  | some position =>
      rw [marked_eq, found, Option.elim_some]
      simp only [markRoot, found, Option.bind_some, getElem?_markedAt]
      cases there : entries[position]? with
      | none =>
          rw [markedAt_insert_of_marked (by simp [there])]
          rfl
      | some entry =>
          cases marked : (markedFrom index done).contains position with
          | true =>
              rw [markedAt_insert_of_marked fun _ _ => marked]
              rfl
          | false =>
              have inside : position < (markedAt (markedFrom index done) entries).length := by
                simpa [markedAt] using (List.getElem?_eq_some_iff.mp there).1
              have unmarked : (markedAt (markedFrom index done) entries)[position] =
                  ⟨entry, false⟩ := by
                rw [← Option.some_inj, ← List.getElem?_eq_getElem, getElem?_markedAt, there, marked]
                rfl
              rw [markedAt_insert there, List.countP_set inside, unmarked]
              simp

theorem foldl_markRoot_eq (index : SlotIndex) (roots done : List StringRef)
    (entries : List Tracked) :
    roots.foldl (markRoot index)
        ((markedAt (markedFrom index done) entries).countP Marked.marked,
          markedAt (markedFrom index done) entries) =
      ((markedAt (markedFrom index (done ++ roots)) entries).countP Marked.marked,
        markedAt (markedFrom index (done ++ roots)) entries) := by
  induction roots generalizing done with
  | nil => rw [List.foldl_nil, List.append_nil]
  | cons root rest induction =>
      rw [List.foldl_cons, markRoot_eq, induction, List.append_assoc, List.singleton_append]

/-! ## Sweeping -/

theorem contains_free {heap : StringHeap} {ref other : StringRef} (different : other ≠ ref) :
    (heap.free ref).2.contains other = heap.contains other := by
  rw [StringHeap.contains, StringHeap.get?_free, if_neg different, StringHeap.contains]

theorem free_of_not_live {heap : StringHeap} {ref : StringRef} (dead : ¬ heap.Live ref) :
    heap.free ref = (false, heap) := by
  have gone : heap.get? ref = none := by
    simpa [StringHeap.live_iff_contains, StringHeap.contains] using dead
  rw [StringHeap.free, gone]

/-- Entries as marks leave them: those of live strings are marked when their string is one of the
roots, and are the only ones of their string. -/
structure Sweepable (roots : List StringRef) (heap : StringHeap)
    (entries : List Marked) : Prop where
  reached : ∀ marked ∈ entries, marked.marked = true → marked.entry.ref ∈ roots
  marked : ∀ marked ∈ entries, heap.Live marked.entry.ref → marked.entry.ref ∈ roots →
    marked.marked = true
  single : entries.Pairwise fun left right =>
    left.entry.ref = right.entry.ref → ¬ heap.Live left.entry.ref

theorem Sweepable.tail {roots : List StringRef} {heap after : StringHeap} {first : Marked}
    {rest : List Marked} (sweepable : Sweepable roots heap (first :: rest))
    (fewer : ∀ ref, after.Live ref → heap.Live ref) : Sweepable roots after rest where
  reached marked member := sweepable.reached marked (List.mem_cons_of_mem _ member)
  marked marked member live :=
    sweepable.marked marked (List.mem_cons_of_mem _ member) (fewer _ live)
  single := (List.pairwise_cons.mp sweepable.single).2.imp fun alone same live =>
    alone same (fewer _ live)

/-- The later entries are those of other strings, and so are not affected when this one is freed. -/
theorem Sweepable.contains_free_eq {roots : List StringRef} {heap : StringHeap}
    {first other : Marked} {rest : List Marked} (sweepable : Sweepable roots heap (first :: rest))
    (live : heap.Live first.entry.ref) (member : other ∈ rest) :
    (heap.free first.entry.ref).2.contains other.entry.ref = heap.contains other.entry.ref :=
  contains_free fun same =>
    (List.pairwise_cons.mp sweepable.single).1 other member same.symm live

theorem Sweepable.filter_isKept_free {mode : CollectionMode} {roots : List StringRef}
    {heap : StringHeap} {first : Marked} {rest : List Marked}
    (sweepable : Sweepable roots heap (first :: rest)) (live : heap.Live first.entry.ref) :
    (rest.filter fun other =>
        isKept mode (heap.free first.entry.ref).2 other.entry other.marked) =
      rest.filter fun other => isKept mode heap other.entry other.marked :=
  List.filter_congr fun other member => by
    rw [isKept, isKept, sweepable.contains_free_eq live member]

theorem Sweepable.countP_contains_free {released : Tracked → Bool} {roots : List StringRef}
    {heap : StringHeap} {first : Marked} {rest : List Marked}
    (sweepable : Sweepable roots heap (first :: rest)) (live : heap.Live first.entry.ref) :
    (((rest.map Marked.entry).filter released).countP fun other =>
        (heap.free first.entry.ref).2.contains other.ref) =
      ((rest.map Marked.entry).filter released).countP fun other => heap.contains other.ref := by
  refine List.countP_congr fun other member => ?_
  obtain ⟨marked, inside, rfl⟩ := List.mem_map.mp (List.mem_of_mem_filter member)
  rw [sweepable.contains_free_eq live inside]

/-- Sweeping frees and keeps what a collection does, although it looks at the heap after some of the
strings were freed, and frees some strings of the roots that are gone. -/
theorem Sweepable.sweep_eq (mode : CollectionMode) {roots : List StringRef} {entries : List Marked}
    {heap : StringHeap} (sweepable : Sweepable roots heap entries) :
    sweep mode entries heap =
      (((entries.map Marked.entry).filter (isReleased mode (reachedFrom roots))).countP fun entry =>
          heap.contains entry.ref,
        (entries.filter fun marked => isKept mode heap marked.entry marked.marked).map
          fun marked => ⟨marked.entry, false⟩,
        ((entries.map Marked.entry).filter (isReleased mode (reachedFrom roots))).foldl
          (fun heap entry => (heap.free entry.ref).2) heap) := by
  induction entries generalizing heap with
  | nil => rfl
  | cons first rest induction =>
      obtain ⟨entry, marked⟩ := first
      have reached_eq : (reachedFrom roots).contains entry.ref.id = decide (entry.ref ∈ roots) := by
        rw [Bool.eq_iff_iff, contains_reachedFrom, decide_eq_true_iff]
      have same_heap := induction (sweepable.tail fun _ => id)
      rw [List.map_cons, sweep]
      cases marked with
      | true =>
          have reached := sweepable.reached _ List.mem_cons_self rfl
          have spared : isReleased mode (reachedFrom roots) entry = false := by
            simp [isReleased, reached_eq, reached]
          have kept : isKept mode heap entry true = true := rfl
          simp [spared, kept, same_heap]
      | false =>
          by_cases owned : (mode == .own && entry.owned) = true
          · have dropped : isKept mode heap entry false = false := by simp [isKept, owned]
            by_cases live : heap.Live entry.ref
            · have unreached : entry.ref ∉ roots := fun reached =>
                Bool.false_ne_true (sweepable.marked _ List.mem_cons_self live reached)
              have released : isReleased mode (reachedFrom roots) entry = true := by
                simp [isReleased, reached_eq, unreached, owned]
              have left_over : Sweepable roots (heap.free entry.ref).2 rest :=
                sweepable.tail fun ref live => (StringHeap.live_free_iff.mp live).2
              have after := induction left_over
              rw [sweepable.filter_isKept_free live, sweepable.countP_contains_free live] at after
              have contained := StringHeap.live_iff_contains.mp live
              simp only [Bool.false_eq_true, if_false, if_pos owned, after,
                List.filter_cons_of_pos released, dropped, List.filter_cons, List.countP_cons,
                List.foldl_cons, StringHeap.fst_free, contained, if_true]
            · have gone : heap.contains entry.ref = false := by
                simpa [StringHeap.live_iff_contains] using live
              simp only [Bool.false_eq_true, if_false, if_pos owned, free_of_not_live live,
                same_heap, dropped, List.filter_cons]
              split
              · simp [gone, free_of_not_live live]
              · rfl
          · have spared : isReleased mode (reachedFrom roots) entry = false := by
              simp [isReleased, owned]
            have kept_eq : isKept mode heap entry false = heap.contains entry.ref := by
              simp [isKept, owned]
            by_cases live : heap.contains entry.ref = true
            · simp [spared, kept_eq, owned, live, same_heap]
            · simp [spared, kept_eq, owned, live, same_heap]

theorem Finds.sweepable {heap : StringHeap} (finds : collector.Finds heap.Live)
    (roots : List StringRef) : Sweepable roots heap
      (markedAt (markedFrom collector.index roots) collector.entries.toList) := by
  have back {marked : Marked}
      (member : marked ∈ markedAt (markedFrom collector.index roots) collector.entries.toList) :
      ∃ position, collector.entries[position]? = some marked.entry ∧
        (markedFrom collector.index roots).contains position = marked.marked := by
    obtain ⟨⟨entry, position⟩, inside, rfl⟩ := List.mem_map.mp member
    have there := List.mem_zipIdx_iff_getElem?.mp inside
    exact ⟨position, by rw [← Array.getElem?_toList, there], rfl⟩
  refine
    { reached := fun marked member mark => ?_
      marked := fun marked member live reached => ?_
      single := ?_ }
  · obtain ⟨position, there, contained⟩ := back member
    obtain ⟨root, reached, found⟩ := contains_markedFrom.mp (contained.trans mark)
    obtain ⟨entry, there', id_eq⟩ := finds.sound _ _ found
    cases there.symm.trans there'
    rwa [StringRef.ext id_eq]
  · obtain ⟨position, there, contained⟩ := back member
    rw [← contained]
    exact (finds.marked_iff there live).mpr reached
  · have alone := finds.pairwise
    rw [← map_entry_markedAt (markedFrom collector.index roots) collector.entries.toList,
      List.pairwise_map] at alone
    exact alone.imp fun alone same => alone (congrArg StringRef.id same)

/-- Marking and sweeping comes to a collection and leaves no mark, when the index leads to the
entries of all live strings. -/
theorem Finds.markAndSweep_eq {heap : StringHeap} (finds : collector.Finds heap.Live)
    (roots : List StringRef) :
    collector.markAndSweep roots heap =
      ((collector.collect roots heap).1,
        (collector.collect roots heap).2.1.entries.toList.map (Marked.mk · false),
        (collector.collect roots heap).2.2) := by
  have unmarked : collector.entries.toList.map (Marked.mk · false) =
      markedAt (markedFrom collector.index []) collector.entries.toList := by
    refine List.ext_getElem? fun position => ?_
    rw [getElem?_markedAt, List.getElem?_map]
    rfl
  have nothing : (markedAt (markedFrom collector.index []) collector.entries.toList).countP
      Marked.marked = 0 := by
    rw [← unmarked, List.countP_eq_zero]
    simp
  have marked := foldl_markRoot_eq collector.index roots [] collector.entries.toList
  rw [nothing, List.nil_append] at marked
  have kept_eq : ((markedAt (markedFrom collector.index roots) collector.entries.toList).filter
        fun marked => isKept collector.config.mode heap marked.entry marked.marked).map
          (fun marked => Marked.mk marked.entry false) =
      (collector.collect roots heap).2.1.entries.toList.map (Marked.mk · false) := by
    rw [toList_entries_collect, markedAt, List.filter_map, List.map_map, List.map_map]
    rfl
  have size_eq : (collector.collect roots heap).1.retained =
      ((collector.collect roots heap).2.1.entries.toList.map (Marked.mk · false)).length := by
    rw [List.length_map]
    rfl
  have count_eq : (collector.collect roots heap).1.marked =
      (markedAt (markedFrom collector.index roots) collector.entries.toList).countP
        Marked.marked := by
    simp only [Collector.collect, ← Array.countP_toList, Array.toList_map, Array.toList_zipIdx,
      List.countP_map, markedAt]
    rfl
  have freed_eq : (collector.collect roots heap).1.freed =
      (collector.entries.toList.filter
        (isReleased collector.config.mode (reachedFrom roots))).countP fun entry =>
          heap.contains entry.ref := by
    simp only [Collector.collect, ← Array.countP_toList, Array.toList_filter]
  rw [markAndSweep, unmarked, marked]
  simp only [(finds.sweepable roots).sweep_eq, map_entry_markedAt, kept_eq, ← size_eq, ← count_eq,
    ← freed_eq, ← heap_collect]
  rfl

end Collector

end StackMachine
