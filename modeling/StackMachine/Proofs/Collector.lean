import StackMachine.Proofs.Collector.Index

/-!
# Collections spare the roots

A collection frees only strings that no root refers to.  In the mode `own` it frees all of these
when the collector tends the heap: it has an entry for every live string, and owns the string unless
something else is known to be responsible for it.
-/

namespace StackMachine

namespace Collector

/-! ## Releasing -/

theorem bytes?_foldl_free (entries : List Tracked) (heap : StringHeap) {ref : StringRef}
    (spared : ∀ entry ∈ entries, entry.ref ≠ ref) :
    (entries.foldl (fun heap entry => (heap.free entry.ref).2) heap).bytes? ref =
      heap.bytes? ref := by
  induction entries generalizing heap with
  | nil => rfl
  | cons entry rest induction =>
      have head := spared entry List.mem_cons_self
      rw [List.foldl_cons,
        induction _ fun other member => spared other (List.mem_cons_of_mem entry member),
        StringHeap.bytes?_free, if_neg head.symm]

/-- What is live after some strings were freed is none of them. -/
theorem live_of_live_foldl_free {entries : List Tracked} {heap : StringHeap} {ref : StringRef}
    (live : (entries.foldl (fun heap entry => (heap.free entry.ref).2) heap).Live ref) :
    heap.Live ref ∧ ∀ entry ∈ entries, entry.ref ≠ ref := by
  induction entries generalizing heap with
  | nil => exact ⟨live, by simp⟩
  | cons entry rest induction =>
      obtain ⟨⟨bytes, content⟩, others⟩ := induction live
      rw [StringHeap.bytes?_free] at content
      split at content
      · cases content
      · rename_i spared
        exact ⟨⟨bytes, content⟩, List.forall_mem_cons.mpr ⟨Ne.symm spared, others⟩⟩

theorem evolves_foldl_free (entries : List Tracked) (heap : StringHeap) :
    heap.Evolves [] (entries.foldl (fun heap entry => (heap.free entry.ref).2) heap) := by
  induction entries generalizing heap with
  | nil => exact .refl
  | cons entry rest induction =>
      exact (StringHeap.Evolves.free entry.ref .refl).trans (induction _)

theorem next_foldl_free (entries : List Tracked) (heap : StringHeap) :
    (entries.foldl (fun heap entry => (heap.free entry.ref).2) heap).strings.next =
      heap.strings.next := by
  have counted := (evolves_foldl_free entries heap).next_eq
  simpa using counted

theorem evolves_collect (collector : Collector) (roots : List StringRef) (heap : StringHeap) :
    heap.Evolves [] (collector.collect roots heap).2.2 := by
  simp only [collect, release, ← Array.foldl_toList]
  exact evolves_foldl_free _ heap

theorem heap_collect (collector : Collector) (roots : List StringRef) (heap : StringHeap) :
    (collector.collect roots heap).2.2 =
      (collector.entries.toList.filter
        (isReleased collector.config.mode (reachedFrom roots))).foldl
          (fun heap entry => (heap.free entry.ref).2) heap := by
  simp only [Collector.collect, release, ← Array.foldl_toList, Array.toList_filter]

/-- The strings that roots refer to survive a collection. -/
theorem bytes?_collect {collector : Collector} {roots : List StringRef} {ref : StringRef}
    (heap : StringHeap) (root : ref ∈ roots) :
    (collector.collect roots heap).2.2.bytes? ref = heap.bytes? ref := by
  simp only [collect, release, ← Array.foldl_toList]
  refine bytes?_foldl_free _ heap fun entry member => ?_
  rintro rfl
  have released := (Array.mem_filter.mp (Array.mem_toList_iff.mp member)).2
  simp [isReleased, contains_reachedFrom.mpr root] at released

variable {collector : Collector}

/-! ## Slots -/

/-- What a collector remembers agrees with the heap: it knows slots as the heap gave them out, and
its index leads to the entries of all live strings. -/
structure Matches (collector : Collector) (heap : StringHeap) : Prop where
  finds : collector.Finds heap.Live
  slots : ∀ (ref : StringRef) (slot : Nat), collector.index.slots.get? ref.id = some slot →
    ref.id < heap.strings.next ∧ heap.slotOf ref = slot
  slotted : heap.Slotted

namespace Matches

variable {heap : StringHeap}

theorem given (agrees : collector.Matches heap) {entry : Tracked}
    (member : entry ∈ collector.entries) : entry.ref.id < heap.strings.next := by
  obtain ⟨slot, known⟩ := agrees.finds.noted entry member
  exact (agrees.slots _ slot known).1

/-- An exact index has no two entries in one slot. -/
theorem eq_of_slotOf_eq (agrees : collector.Matches heap) (indexed : collector.Indexed)
    {entry other : Tracked} (member : entry ∈ collector.entries)
    (member' : other ∈ collector.entries)
    (same : heap.slotOf entry.ref = heap.slotOf other.ref) : entry = other := by
  obtain ⟨slot, known⟩ := agrees.finds.noted entry member
  obtain ⟨slot', known'⟩ := agrees.finds.noted other member'
  have slots_eq : slot = slot' := by
    rw [← (agrees.slots _ _ known).2, ← (agrees.slots _ _ known').2, same]
  obtain ⟨position, there⟩ := Array.getElem?_of_mem member
  obtain ⟨place, there'⟩ := Array.getElem?_of_mem member'
  have id_eq := SlotIndex.eq_of_slots_eq ((indexed _ position).mpr ⟨entry, there, rfl⟩)
    ((indexed _ place).mpr ⟨other, there', rfl⟩) (by rw [known, known', slots_eq])
  exact indexed.eq_of_ref_eq member member' (StringRef.ext id_eq)

/-- A string that was given out can be told of in its slot. -/
theorem insert (agrees : collector.Matches heap) {ref : StringRef}
    (given : ref.id < heap.strings.next) (owned : Bool) :
    (collector.insert ⟨ref, owned⟩ (heap.slotOf ref)).2.Matches heap where
  finds := by
    refine agrees.finds.insert (fun noted known => (agrees.slots ref noted known).2.symm)
      fun entry member same => ?_
    obtain ⟨entry_given, slot_eq⟩ := agrees.slots _ _ same
    exact ⟨agrees.slotted.newest entry.ref ref given slot_eq,
      agrees.slotted.newest ref entry.ref entry_given slot_eq.symm⟩
  slots other slot known := by
    rcases eq_or_slots_of_slots_insert known with ⟨same, rfl⟩ | before
    · rw [StringRef.ext same]
      exact ⟨given, rfl⟩
    · exact agrees.slots other slot before
  slotted := agrees.slotted

theorem store (agrees : collector.Matches heap) (bytes : List UInt8) :
    collector.Matches (heap.store bytes) where
  finds := agrees.finds.imp fun entry member live => by
    refine (StringHeap.live_store_iff.mp live).resolve_left fun same => ?_
    have given := agrees.given member
    rw [same] at given
    exact absurd given (Nat.lt_irrefl _)
  slots ref slot known := by
    obtain ⟨given, slot_eq⟩ := agrees.slots ref slot known
    have old : ref ≠ heap.nextRef := by
      rintro rfl
      exact absurd given (Nat.lt_irrefl _)
    rw [StringHeap.store, HandleTable.next_append, ← StringHeap.store,
      StringHeap.slotOf_store, if_neg old]
    exact ⟨Nat.lt_succ_of_lt given, slot_eq⟩
  slotted := agrees.slotted.store bytes

theorem free (agrees : collector.Matches heap) (ref : StringRef) :
    collector.Matches (heap.free ref).2 where
  finds := agrees.finds.imp fun _ _ live => (StringHeap.live_free_iff.mp live).2
  slots other slot known := by
    rw [StringHeap.next_free, StringHeap.slotOf_free]
    exact agrees.slots other slot known
  slotted := agrees.slotted.free ref

theorem foldl_free (agrees : collector.Matches heap) (entries : List Tracked) :
    collector.Matches (entries.foldl (fun heap entry => (heap.free entry.ref).2) heap) := by
  induction entries generalizing heap with
  | nil => exact agrees
  | cons entry rest induction => exact induction (agrees.free entry.ref)

/-- A collector that finds the same strings in the same slots agrees with the same heap. -/
theorem of_finds {after : Collector} (agrees : collector.Matches heap)
    (finds : after.Finds heap.Live) (slots : after.index.slots = collector.index.slots) :
    after.Matches heap :=
  ⟨finds, slots ▸ agrees.slots, agrees.slotted⟩

theorem congr {after : Collector} (agrees : collector.Matches heap)
    (index : after.index = collector.index) (entries : after.entries = collector.entries) :
    after.Matches heap :=
  agrees.of_finds (agrees.finds.congr index fun _ => by rw [entries]) (by rw [index])

theorem adopt (agrees : collector.Matches heap) (ref : StringRef) :
    (collector.adopt ref).2.Matches heap :=
  agrees.of_finds (agrees.finds.adopt ref) (by rw [index_adopt])

theorem forget (agrees : collector.Matches heap) (ref : StringRef) :
    (collector.forget ref).2.Matches heap :=
  agrees.of_finds (agrees.finds.forget ref) (slots_forget collector ref)

theorem collect (agrees : collector.Matches heap) (roots : List StringRef) :
    (collector.collect roots heap).2.1.Matches (collector.collect roots heap).2.2 := by
  have released := agrees.foldl_free
    (collector.entries.toList.filter (isReleased collector.config.mode (reachedFrom roots)))
  rw [← heap_collect] at released
  exact released.of_finds (released.finds.collect roots heap) (slots_collect collector roots heap)

end Matches

/-- A collector that agrees with the heap and has entries for live strings only. -/
structure Current (collector : Collector) (heap : StringHeap) : Prop
    extends collector.Matches heap where
  live : ∀ entry ∈ collector.entries, heap.Live entry.ref

theorem current_ofConfig (config : CollectorConfig) : (ofConfig config).Current {} where
  finds := finds_ofConfig config
  slots ref slot known := by simp [ofConfig] at known
  slotted := StringHeap.slotted_empty
  live entry member := by simp [ofConfig] at member

namespace Current

variable {heap : StringHeap}

theorem indexed (current : collector.Current heap) : collector.Indexed :=
  current.finds.indexed current.live

theorem congr {after : Collector} (current : collector.Current heap)
    (index : after.index = collector.index) (entries : after.entries = collector.entries) :
    after.Current heap :=
  ⟨current.toMatches.congr index entries, entries ▸ current.live⟩

theorem insert (current : collector.Current heap) {ref : StringRef} (live : heap.Live ref)
    (owned : Bool) : (collector.insert ⟨ref, owned⟩ (heap.slotOf ref)).2.Current heap := by
  refine ⟨current.toMatches.insert live.lt_next owned, fun entry member => ?_⟩
  unfold Collector.insert at member
  split at member
  · exact current.live entry member
  · rcases Array.mem_push.mp member with old | rfl
    · exact current.live entry old
    · exact live

/-- A new string can be told of as soon as it is on the heap. -/
theorem insert_store (current : collector.Current heap) (bytes : List UInt8) (owned : Bool) :
    (collector.insert ⟨heap.nextRef, owned⟩ heap.nextSlot).2.Current (heap.store bytes) := by
  have stored : collector.Current (heap.store bytes) :=
    ⟨current.toMatches.store bytes, fun entry member =>
      (current.live entry member).preserved (heap.preserves_store bytes)⟩
  have inserted := stored.insert (heap.live_nextRef_store bytes) owned
  rwa [StringHeap.slotOf_nextRef_store] at inserted

theorem adopt (current : collector.Current heap) (ref : StringRef) :
    (collector.adopt ref).2.Current heap := by
  refine ⟨current.toMatches.adopt ref, fun entry member => ?_⟩
  obtain ⟨old, there, ref_eq⟩ := current.indexed.exists_mem_of_mem_adopt member
  rw [← ref_eq]
  exact current.live old there

theorem collect (current : collector.Current heap) (roots : List StringRef) :
    (collector.collect roots heap).2.1.Current (collector.collect roots heap).2.2 := by
  refine ⟨current.toMatches.collect roots, fun entry member => ?_⟩
  rw [← Array.mem_toList_iff, current.indexed.toList_entries_collect, List.mem_filter,
    decide_eq_true_iff, Array.mem_toList_iff] at member
  obtain ⟨inside, reached | ⟨left_alone, _⟩⟩ := member
  · obtain ⟨bytes, content⟩ := current.live entry inside
    exact ⟨bytes, (bytes?_collect heap reached).trans content⟩
  · obtain ⟨bytes, content⟩ := current.live entry inside
    refine ⟨bytes, ?_⟩
    rw [heap_collect, bytes?_foldl_free _ heap fun other freed same => ?_, content]
    obtain ⟨member, released⟩ := List.mem_filter.mp freed
    cases current.indexed.eq_of_ref_eq (Array.mem_toList_iff.mp member) inside same
    simp only [isReleased, Bool.and_eq_true, beq_iff_eq] at released
    exact absurd released.1 left_alone

end Current

/-! ## Tended heaps -/

/-- The collector has an entry for every live string, and owns the string unless it is among those
that something else is responsible for. -/
structure Tends (collector : Collector) (heap : StringHeap) (borrowed : List StringRef) : Prop where
  own : collector.config.mode = .own
  current : collector.Current heap
  tracked : ∀ ref, heap.Live ref → ∃ entry ∈ collector.entries, entry.ref = ref ∧
    (entry.owned = true ∨ ref ∈ borrowed)

namespace Tends

variable {heap : StringHeap} {borrowed borrowed' : List StringRef}

theorem mono (tends : collector.Tends heap borrowed)
    (subset : ∀ ref ∈ borrowed, ref ∈ borrowed') : collector.Tends heap borrowed' := by
  refine { tends with tracked := fun ref live => ?_ }
  obtain ⟨entry, member, ref_eq, owned⟩ := tends.tracked ref live
  exact ⟨entry, member, ref_eq, owned.imp_right (subset ref)⟩

/-- A new string is tracked, as owned or on behalf of something else. -/
theorem insert_store (tends : collector.Tends heap borrowed) (bytes : List UInt8) (owned : Bool) :
    (collector.insert ⟨heap.nextRef, owned⟩ heap.nextSlot).2.Tends (heap.store bytes)
      (if owned then borrowed else heap.nextRef :: borrowed) := by
  have fresh : collector.index.contains heap.nextRef.id ≠ true := by
    intro known
    obtain ⟨entry, member, ref_eq⟩ := tends.current.indexed.contains_iff.mp known
    exact absurd (tends.current.given member) (by rw [ref_eq]; exact Nat.lt_irrefl _)
  have entries_eq : (collector.insert ⟨heap.nextRef, owned⟩ heap.nextSlot).2.entries =
      collector.entries.push ⟨heap.nextRef, owned⟩ := by
    rw [Collector.insert, if_neg fresh]
  refine
    { own := by rw [Collector.insert, if_neg fresh]; exact tends.own
      current := tends.current.insert_store bytes owned
      tracked := fun ref live => ?_ }
  rw [entries_eq]
  by_cases new : ref = heap.nextRef
  · subst new
    refine ⟨_, Array.mem_push_self, rfl, ?_⟩
    cases owned <;> simp
  · have before := (StringHeap.live_store_iff.mp live).resolve_left new
    obtain ⟨entry, member, ref_eq, held⟩ := tends.tracked ref before
    refine ⟨entry, Array.mem_push_of_mem _ member, ref_eq, held.imp_right fun inside => ?_⟩
    cases owned <;> simp [inside]

theorem track (tends : collector.Tends heap borrowed) (bytes : List UInt8) :
    (collector.track heap.nextRef heap.nextSlot).2.Tends (heap.store bytes) borrowed := by
  have owned : (collector.config.mode == .own) = true := by
    rw [tends.own]
    rfl
  rw [Collector.track, owned]
  exact tends.insert_store bytes true

theorem trackBorrowed (tends : collector.Tends heap borrowed) (bytes : List UInt8) :
    (collector.trackBorrowed heap.nextRef heap.nextSlot).2.Tends (heap.store bytes)
      (heap.nextRef :: borrowed) :=
  tends.insert_store bytes false

theorem trackBorrowed_live (tends : collector.Tends heap borrowed) {ref : StringRef}
    (live : heap.Live ref) (slot : Nat) : (collector.trackBorrowed ref slot).2 = collector := by
  obtain ⟨entry, member, ref_eq, _⟩ := tends.tracked ref live
  have known := tends.current.indexed.contains_iff.mpr ⟨entry, member, ref_eq⟩
  rw [Collector.trackBorrowed, Collector.insert, if_pos known]

/-- A string that is adopted is not borrowed any more. -/
theorem adopt (tends : collector.Tends heap borrowed) (ref : StringRef) :
    (collector.adopt ref).2.Tends heap (borrowed.filter (· ≠ ref)) := by
  have indexed := tends.current.indexed
  refine
    { own := (config_adopt collector ref).symm ▸ tends.own
      current := tends.current.adopt ref
      tracked := fun other live => ?_ }
  obtain ⟨entry, member, rfl, held⟩ := tends.tracked other live
  by_cases same : entry.ref = ref
  · subst same
    exact ⟨⟨entry.ref, true⟩, indexed.mem_adopt_of_mem tends.own member, rfl, .inl rfl⟩
  · refine ⟨entry, indexed.mem_adopt_of_ne member same, rfl, held.imp_right fun inside => ?_⟩
    exact List.mem_filter.mpr ⟨inside, by simpa using same⟩

theorem foldl_adopt {released : List StringRef} (tends : collector.Tends heap borrowed)
    (covered : ∀ ref ∈ borrowed, ref ∈ released ∨ ref ∈ borrowed') :
    (released.foldl (fun collector ref => (collector.adopt ref).2) collector).Tends heap
      borrowed' := by
  induction released generalizing collector borrowed with
  | nil => exact tends.mono fun ref member => (covered ref member).resolve_left (by simp)
  | cons ref rest induction =>
      refine induction (tends.adopt ref) fun other member => ?_
      rw [List.mem_filter] at member
      rcases covered other member.1 with released | still
      · exact .inl ((List.mem_cons.mp released).resolve_left (by simpa using member.2))
      · exact .inr still

/-- The entry of a string that survives a collection: the string is reached when it is owned. -/
theorem exists_mem_of_live_collect (tends : collector.Tends heap borrowed) {roots : List StringRef}
    {ref : StringRef} (live : (collector.collect roots heap).2.2.Live ref) :
    heap.Live ref ∧ ∃ entry ∈ collector.entries, entry.ref = ref ∧
      (entry.owned = true ∧ ref ∈ roots ∨ entry.owned = false ∧ ref ∈ borrowed) := by
  simp only [Collector.collect, release, ← Array.foldl_toList] at live
  obtain ⟨before, spared⟩ := live_of_live_foldl_free live
  obtain ⟨entry, member, rfl, held⟩ := tends.tracked ref before
  refine ⟨before, entry, member, rfl, ?_⟩
  cases owned : entry.owned with
  | false => exact .inr ⟨rfl, held.resolve_left (by simp [owned])⟩
  | true =>
      refine .inl ⟨rfl, Classical.byContradiction fun unreached => spared entry ?_ rfl⟩
      have released : isReleased collector.config.mode (reachedFrom roots) entry = true := by
        simp [isReleased, tends.own, owned, mt contains_reachedFrom.mp unreached]
      exact Array.mem_toList_iff.mpr (Array.mem_filter.mpr ⟨member, released⟩)

/-- After a collection, the collector still tends the heap. -/
theorem collect (tends : collector.Tends heap borrowed) (roots : List StringRef) :
    (collector.collect roots heap).2.1.Tends (collector.collect roots heap).2.2 borrowed where
  own := tends.own
  current := tends.current.collect roots
  tracked ref live := by
    obtain ⟨before, entry, member, rfl, held⟩ := tends.exists_mem_of_live_collect live
    refine ⟨entry, ?_, rfl, held.imp (·.1) (·.2)⟩
    rw [← Array.mem_toList_iff, tends.current.indexed.toList_entries_collect, List.mem_filter,
      decide_eq_true_iff, Array.mem_toList_iff]
    rcases held with ⟨_, reached⟩ | ⟨borrowed, _⟩
    · exact ⟨member, .inl reached⟩
    · exact ⟨member, .inr ⟨by simp [borrowed], StringHeap.live_iff_contains.mp before⟩⟩

/-- The strings that survive a collection are reached or borrowed. -/
theorem mem_of_live_collect (tends : collector.Tends heap borrowed) {roots : List StringRef}
    {ref : StringRef} (live : (collector.collect roots heap).2.2.Live ref) :
    ref ∈ roots ∨ ref ∈ borrowed := by
  obtain ⟨_, _, _, _, held⟩ := tends.exists_mem_of_live_collect live
  exact held.imp (·.2) (·.2)

end Tends

end Collector

end StackMachine
