import Mathlib.Data.List.Induction
import StackMachine.Collector
import StackMachine.Proofs.StringHeap.Slots

/-!
# The index of a collector

The index leads from strings to the positions of their entries.  An older string has no place in it
beside a newer one in the same slot, so that the index need not lead to every entry.  What is asked
of it here is that it leads to the entries of certain strings, of which none has a newer entry in
its slot: every operation keeps this up, when what is told of a new string respects the slots.
Where all strings may be asked for, the index has the position of every entry and nothing else.
-/

namespace StackMachine

namespace Collector

/-- A table has the numbers that were put into it for some of the roots. -/
theorem contains_foldl_insert (number? : StringRef → Option Nat) (roots : List StringRef)
    (table : HandleTable Unit) (number : Nat) :
    (roots.foldl (fun table root => (number? root).elim table (table.insert · ())) table).contains
        number = true ↔
      table.contains number = true ∨ ∃ root ∈ roots, number? root = some number := by
  induction roots generalizing table with
  | nil => simp
  | cons root rest induction =>
      simp only [List.foldl_cons, induction, List.mem_cons, or_and_right, exists_or,
        exists_eq_left, ← or_assoc]
      refine or_congr_left ?_
      cases number? root with
      | none => simp
      | some found =>
          rw [Option.elim_some, HandleTable.contains, HandleTable.get?_insert]
          by_cases same : number = found
          · simp [same]
          · simp [same, Ne.symm same, HandleTable.contains]

theorem contains_reachedFrom {roots : List StringRef} {ref : StringRef} :
    (reachedFrom roots).contains ref.id = true ↔ ref ∈ roots := by
  refine (contains_foldl_insert (fun root => some root.id) roots {} ref.id).trans ?_
  simp [HandleTable.contains, ← StringRef.ext_iff]

/-- A collection marks the positions that the index leads to from the roots. -/
theorem contains_markedFrom {index : SlotIndex} {roots : List StringRef} {position : Nat} :
    (markedFrom index roots).contains position = true ↔
      ∃ root ∈ roots, index.get? root.id = some position := by
  refine (contains_foldl_insert (fun root => index.get? root.id) roots {} position).trans ?_
  simp [HandleTable.contains]

/-! ## Entries -/

/-- The index leads to entries only, and to every entry of the strings in question.  An entry of one
of these has no newer one in its slot. -/
structure Finds (collector : Collector) (asked : StringRef → Prop) : Prop where
  sound : ∀ id position, collector.index.get? id = some position →
    ∃ entry, collector.entries[position]? = some entry ∧ entry.ref.id = id
  found : ∀ position entry, collector.entries[position]? = some entry → asked entry.ref →
    collector.index.get? entry.ref.id = some position
  noted : ∀ entry ∈ collector.entries, ∃ slot, collector.index.slots.get? entry.ref.id = some slot
  newest : ∀ older ∈ collector.entries, ∀ newer ∈ collector.entries,
    collector.index.slots.get? older.ref.id = collector.index.slots.get? newer.ref.id →
      older.ref.id < newer.ref.id → ¬ asked older.ref

/-- The index has the position of every entry, and nothing else. -/
def Indexed (collector : Collector) : Prop :=
  ∀ id position, collector.index.get? id = some position ↔
    ∃ entry, collector.entries[position]? = some entry ∧ entry.ref.id = id

variable {collector : Collector} {asked : StringRef → Prop}

theorem finds_ofConfig (config : CollectorConfig) : (ofConfig config).Finds asked where
  sound id position found := by simp [ofConfig, SlotIndex.get?] at found
  found position entry there := by simp [ofConfig] at there
  noted entry member := by simp [ofConfig] at member
  newest older member := by simp [ofConfig] at member

theorem Indexed.finds (indexed : collector.Indexed) : collector.Finds asked where
  sound id position := (indexed id position).mp
  found position entry there _ := (indexed _ _).mpr ⟨entry, there, rfl⟩
  noted entry member := by
    obtain ⟨position, there⟩ := Array.getElem?_of_mem member
    obtain ⟨slot, known, _⟩ :=
      SlotIndex.get?_eq_some_iff.mp ((indexed _ position).mpr ⟨entry, there, rfl⟩)
    exact ⟨slot, known⟩
  newest older member newer member' same before _ := by
    obtain ⟨position, there⟩ := Array.getElem?_of_mem member
    obtain ⟨position', there'⟩ := Array.getElem?_of_mem member'
    have one := SlotIndex.eq_of_slots_eq ((indexed _ position).mpr ⟨older, there, rfl⟩)
      ((indexed _ position').mpr ⟨newer, there', rfl⟩) same
    exact absurd one (Nat.ne_of_lt before)

namespace Finds

theorem indexed (finds : collector.Finds asked)
    (all : ∀ entry ∈ collector.entries, asked entry.ref) : collector.Indexed := by
  refine fun id position => ⟨finds.sound id position, ?_⟩
  rintro ⟨entry, there, rfl⟩
  exact finds.found position entry there (all entry (Array.mem_of_getElem? there))

theorem imp {asked' : StringRef → Prop} (finds : collector.Finds asked)
    (fewer : ∀ entry ∈ collector.entries, asked' entry.ref → asked entry.ref) :
    collector.Finds asked' where
  sound := finds.sound
  found position entry there question :=
    finds.found position entry there (fewer entry (Array.mem_of_getElem? there) question)
  noted := finds.noted
  newest older member newer member' same before question :=
    finds.newest older member newer member' same before (fewer older member question)

/-- What an index finds depends on the strings of the entries only. -/
theorem congr {after : Collector} (finds : collector.Finds asked)
    (index : after.index = collector.index)
    (refs : ∀ position : Nat, after.entries[position]?.map Tracked.ref =
      collector.entries[position]?.map Tracked.ref) : after.Finds asked := by
  have back {position : Nat} {entry : Tracked} (there : after.entries[position]? = some entry) :
      ∃ old, collector.entries[position]? = some old ∧ old.ref = entry.ref := by
    have same := refs position
    rw [there, Option.map_some, eq_comm, Option.map_eq_some_iff] at same
    exact same
  have member {entry : Tracked} (inside : entry ∈ after.entries) :
      ∃ old ∈ collector.entries, old.ref = entry.ref := by
    obtain ⟨position, there⟩ := Array.getElem?_of_mem inside
    obtain ⟨old, there, same⟩ := back there
    exact ⟨old, Array.mem_of_getElem? there, same⟩
  refine
    { sound := fun id position found => ?_
      found := fun position entry there question => ?_
      noted := fun entry inside => ?_
      newest := fun older inside newer inside' same before => ?_ }
  · obtain ⟨entry, there, id_eq⟩ := finds.sound id position (index ▸ found)
    have same := refs position
    rw [there, Option.map_some, Option.map_eq_some_iff] at same
    obtain ⟨other, there', ref_eq⟩ := same
    exact ⟨other, there', by rw [ref_eq, id_eq]⟩
  · obtain ⟨old, there, same⟩ := back there
    rw [index, ← same]
    exact finds.found position old there (same ▸ question)
  · obtain ⟨old, inside, same⟩ := member inside
    rw [index, ← same]
    exact finds.noted old inside
  · obtain ⟨old, inside, older_eq⟩ := member inside
    obtain ⟨old', inside', newer_eq⟩ := member inside'
    rw [index, ← older_eq, ← newer_eq] at same
    rw [← older_eq, ← newer_eq] at before
    rw [← older_eq]
    exact finds.newest old inside old' inside' same before

/-- A position that the index leads to has an entry of the string. -/
theorem of_find? (finds : collector.Finds asked) {ref : StringRef} {position : Nat}
    {entry : Tracked} (there : collector.find? ref = some (position, entry)) :
    collector.index.get? ref.id = some position ∧
      collector.entries[position]? = some entry ∧ entry.ref = ref := by
  obtain ⟨position', found, there⟩ := Option.bind_eq_some_iff.mp there
  obtain ⟨entry', there, same⟩ := Option.map_eq_some_iff.mp there
  cases same
  obtain ⟨other, there', id_eq⟩ := finds.sound _ _ found
  cases there.symm.trans there'
  exact ⟨found, there, StringRef.ext id_eq⟩

theorem slots_note (finds : collector.Finds asked) {entry : Tracked}
    (member : entry ∈ collector.entries) (number slot : Nat) :
    (collector.index.note number slot).slots.get? entry.ref.id =
      collector.index.slots.get? entry.ref.id := by
  obtain ⟨noted, known⟩ := finds.noted entry member
  exact SlotIndex.slots_note_of_known known _ _

section Insert

variable {ref : StringRef} {slot : Nat}

/-- A string that is entered is found, when no entry in its slot is newer. -/
theorem get?_enter_self (finds : collector.Finds asked)
    (agreed : ∀ noted, collector.index.slots.get? ref.id = some noted → noted = slot)
    (newest : ∀ entry ∈ collector.entries, collector.index.slots.get? entry.ref.id = some slot →
      entry.ref.id ≤ ref.id) (position : Nat) :
    ((collector.index.note ref.id slot).enter ref.id position).get? ref.id = some position := by
  have known := SlotIndex.slots_note_self agreed
  refine SlotIndex.get?_enter_self known (fun other place found same => ?_) position
  rw [SlotIndex.get?_note] at found
  obtain ⟨entry, there, rfl⟩ := finds.sound other place found
  have member := Array.mem_of_getElem? there
  rw [finds.slots_note member] at same
  exact newest entry member same

/-- What was found before still is, unless it is older and in the slot of the string entered. -/
theorem get?_enter_of_spared (finds : collector.Finds asked)
    (agreed : ∀ noted, collector.index.slots.get? ref.id = some noted → noted = slot)
    {place : Nat} {entry : Tracked} (there : collector.entries[place]? = some entry)
    (found : collector.index.get? entry.ref.id = some place) (differ : entry.ref.id ≠ ref.id)
    (spared : collector.index.slots.get? entry.ref.id = some slot → ¬ entry.ref.id < ref.id)
    (position : Nat) :
    ((collector.index.note ref.id slot).enter ref.id position).get? entry.ref.id = some place := by
  refine SlotIndex.get?_enter_of_spared (by rw [SlotIndex.get?_note, found]) differ fun same => ?_
  rw [finds.slots_note (Array.mem_of_getElem? there), SlotIndex.slots_note_self agreed] at same
  exact spared same

end Insert

/-- A string is entered, where of the entries in its slot the newest may be asked for. -/
theorem insert (finds : collector.Finds asked) {tracked : Tracked} {slot : Nat}
    (agreed : ∀ noted, collector.index.slots.get? tracked.ref.id = some noted → noted = slot)
    (newest : ∀ entry ∈ collector.entries, collector.index.slots.get? entry.ref.id = some slot →
      (entry.ref.id < tracked.ref.id → ¬ asked entry.ref) ∧
        (tracked.ref.id < entry.ref.id → ¬ asked tracked.ref)) :
    (collector.insert tracked slot).2.Finds asked := by
  unfold Collector.insert
  split
  · exact finds
  rename_i unknown
  have fresh : collector.index.get? tracked.ref.id = none := by
    simpa [SlotIndex.contains] using unknown
  have slot_tracked := SlotIndex.slots_note_self agreed
  refine
    { sound := fun id position found => ?_
      found := fun position entry there question => ?_
      noted := fun entry member => ?_
      newest := fun older member newer member' same before => ?_ }
  · rcases SlotIndex.eq_or_get?_of_get?_enter found with ⟨rfl, rfl⟩ | old
    · exact ⟨tracked, Array.getElem?_push_size, rfl⟩
    · rw [SlotIndex.get?_note] at old
      obtain ⟨entry, there, id_eq⟩ := finds.sound id position old
      have inside := (Array.getElem?_eq_some_iff.mp there).1
      exact ⟨entry, by rw [Array.getElem?_push, if_neg (Nat.ne_of_lt inside), there], id_eq⟩
  · rw [Array.getElem?_push] at there
    split at there
    · rename_i last
      cases there
      rw [last]
      exact finds.get?_enter_self agreed (fun entry member same =>
        Nat.le_of_not_lt fun later => (newest entry member same).2 later question) _
    · have found := finds.found position entry there question
      have differ : entry.ref.id ≠ tracked.ref.id := by
        intro same
        rw [same, fresh] at found
        cases found
      exact finds.get?_enter_of_spared agreed there found differ (fun same earlier =>
        (newest entry (Array.mem_of_getElem? there) same).1 earlier question) _
  · rw [SlotIndex.slots_enter]
    rcases Array.mem_push.mp member with old | rfl
    · rw [finds.slots_note old]
      exact finds.noted entry old
    · exact ⟨slot, slot_tracked⟩
  · rw [SlotIndex.slots_enter] at same
    rcases Array.mem_push.mp member with old | rfl <;>
      rcases Array.mem_push.mp member' with old' | rfl
    · rw [finds.slots_note old, finds.slots_note old'] at same
      exact finds.newest older old newer old' same before
    · rw [finds.slots_note old, slot_tracked] at same
      exact (newest older old same).1 before
    · rw [finds.slots_note old', slot_tracked] at same
      exact (newest newer old' same.symm).2 before
    · exact absurd before (Nat.lt_irrefl _)

theorem adopt (finds : collector.Finds asked) (ref : StringRef) :
    (collector.adopt ref).2.Finds asked := by
  unfold Collector.adopt
  split
  · rename_i position entry _ found
    split
    · exact finds
    · obtain ⟨_, there, rfl⟩ := finds.of_find? found
      refine finds.congr rfl fun place => ?_
      rw [Array.getElem?_setIfInBounds]
      split
      · rename_i same
        subst same
        have inside := (Array.getElem?_eq_some_iff.mp there).1
        rw [if_pos inside, there]
        rfl
      · rfl
  · exact finds

end Finds

theorem eq_or_slots_of_slots_insert {tracked : Tracked} {slot id noted : Nat}
    (known : (collector.insert tracked slot).2.index.slots.get? id = some noted) :
    id = tracked.ref.id ∧ noted = slot ∨ collector.index.slots.get? id = some noted := by
  unfold Collector.insert at known
  split at known
  · exact .inr known
  · rw [SlotIndex.slots_enter, SlotIndex.slots_note] at known
    split at known
    · rename_i same
      cases before : collector.index.slots.get? tracked.ref.id with
      | none =>
          rw [before, Option.getD_none, Option.some_inj] at known
          exact .inl ⟨same, known.symm⟩
      | some old =>
          rw [before, Option.getD_some] at known
          exact .inr (by rw [same, before, known])
    · exact .inr known

/-! ## Indexed collectors -/

theorem indexed_ofConfig (config : CollectorConfig) : (ofConfig config).Indexed :=
  have every : (ofConfig config).Finds fun _ => True := finds_ofConfig config
  every.indexed fun _ _ => trivial

theorem Indexed.contains_iff (indexed : collector.Indexed) {ref : StringRef} :
    collector.index.contains ref.id = true ↔ ∃ entry ∈ collector.entries, entry.ref = ref := by
  rw [SlotIndex.contains, Option.isSome_iff_exists]
  constructor
  · rintro ⟨position, found⟩
    obtain ⟨entry, there, id_eq⟩ := (indexed _ _).mp found
    exact ⟨entry, Array.mem_of_getElem? there, congrArg StringRef.mk id_eq⟩
  · rintro ⟨entry, member, rfl⟩
    obtain ⟨position, there⟩ := Array.getElem?_of_mem member
    exact ⟨position, (indexed _ _).mpr ⟨entry, there, rfl⟩⟩

theorem Indexed.find?_eq_some_iff (indexed : collector.Indexed) {ref : StringRef} {position : Nat}
    {entry : Tracked} :
    collector.find? ref = some (position, entry) ↔
      collector.entries[position]? = some entry ∧ entry.ref = ref := by
  have same : entry.ref = ref ↔ entry.ref.id = ref.id := by
    cases entry.ref
    cases ref
    simp
  simp only [find?, Option.bind_eq_some_iff, Option.map_eq_some_iff, Prod.mk.injEq,
    indexed _ _, same]
  constructor
  · rintro ⟨_, ⟨found, there, id_eq⟩, _, there', rfl, rfl⟩
    cases there.symm.trans there'
    exact ⟨there, id_eq⟩
  · rintro ⟨there, id_eq⟩
    exact ⟨position, ⟨entry, there, id_eq⟩, entry, there, rfl, rfl⟩

theorem index_adopt (collector : Collector) (ref : StringRef) :
    (collector.adopt ref).2.index = collector.index := by
  unfold adopt
  split
  · split <;> rfl
  · rfl

theorem config_adopt (collector : Collector) (ref : StringRef) :
    (collector.adopt ref).2.config = collector.config := by
  unfold Collector.adopt
  split
  · split <;> rfl
  · rfl

theorem Indexed.mem_adopt_of_mem (indexed : collector.Indexed) (own : collector.config.mode = .own)
    {entry : Tracked} (member : entry ∈ collector.entries) :
    ⟨entry.ref, true⟩ ∈ (collector.adopt entry.ref).2.entries := by
  obtain ⟨position, there⟩ := Array.getElem?_of_mem member
  have found := indexed.find?_eq_some_iff.mpr ⟨there, rfl⟩
  simp only [Collector.adopt, own, found]
  split
  · rename_i owned
    rw [← owned]
    exact member
  · have inside := (Array.getElem?_eq_some_iff.mp there).1
    exact Array.mem_of_getElem? (Array.getElem?_setIfInBounds_self_of_lt inside)

theorem Indexed.mem_adopt_of_ne (indexed : collector.Indexed) {entry : Tracked} {ref : StringRef}
    (member : entry ∈ collector.entries) (other : entry.ref ≠ ref) :
    entry ∈ (collector.adopt ref).2.entries := by
  unfold Collector.adopt
  split
  · rename_i position adopted _ found
    split
    · exact member
    · obtain ⟨there, ref_eq⟩ := indexed.find?_eq_some_iff.mp found
      obtain ⟨place, here⟩ := Array.getElem?_of_mem member
      have elsewhere : position ≠ place := by
        rintro rfl
        cases here.symm.trans there
        exact other ref_eq
      exact Array.mem_of_getElem? ((Array.getElem?_setIfInBounds_ne elsewhere).trans here)
  · exact member

theorem Indexed.exists_mem_of_mem_adopt (indexed : collector.Indexed) {entry : Tracked}
    {ref : StringRef} (member : entry ∈ (collector.adopt ref).2.entries) :
    ∃ old ∈ collector.entries, old.ref = entry.ref := by
  unfold Collector.adopt at member
  split at member
  · rename_i position adopted _ found
    split at member
    · exact ⟨entry, member, rfl⟩
    · obtain ⟨there, ref_eq⟩ := indexed.find?_eq_some_iff.mp found
      rcases Array.mem_or_eq_of_mem_setIfInBounds member with old | rfl
      · exact ⟨entry, old, rfl⟩
      · exact ⟨adopted, Array.mem_of_getElem? there, ref_eq⟩
  · exact ⟨entry, member, rfl⟩

theorem mem_insert_of_mem {tracked entry : Tracked} {slot : Nat}
    (member : entry ∈ collector.entries) :
    entry ∈ (collector.insert tracked slot).2.entries := by
  unfold Collector.insert
  split
  · exact member
  · exact Array.mem_push_of_mem _ member

theorem Indexed.exists_mem_insert (indexed : collector.Indexed) (tracked : Tracked) (slot : Nat) :
    ∃ entry ∈ (collector.insert tracked slot).2.entries, entry.ref = tracked.ref := by
  unfold Collector.insert
  split
  · rename_i known
    exact indexed.contains_iff.mp known
  · exact ⟨tracked, Array.mem_push_self, rfl⟩

/-- Where an entry of a string is, no entry of the same string is elsewhere. -/
theorem Indexed.position_unique (indexed : collector.Indexed) {left right : Nat}
    {entry other : Tracked} (at_left : collector.entries[left]? = some entry)
    (at_right : collector.entries[right]? = some other) (same : entry.ref.id = other.ref.id) :
    left = right :=
  Option.some.inj (((indexed _ left).mpr ⟨entry, at_left, same⟩).symm.trans
    ((indexed _ right).mpr ⟨other, at_right, rfl⟩))

theorem Indexed.eq_of_ref_eq (indexed : collector.Indexed) {entry other : Tracked}
    (member : entry ∈ collector.entries) (member' : other ∈ collector.entries)
    (same : entry.ref = other.ref) : entry = other := by
  obtain ⟨position, there⟩ := Array.getElem?_of_mem member
  obtain ⟨place, there'⟩ := Array.getElem?_of_mem member'
  cases indexed.position_unique there there' (congrArg StringRef.id same)
  exact Option.some.inj (there.symm.trans there')

/-- There is one entry for each string. -/
theorem Indexed.pairwise (indexed : collector.Indexed) :
    collector.entries.toList.Pairwise fun left right => left.ref.id ≠ right.ref.id := by
  rw [List.pairwise_iff_getElem]
  intro left right left_inside right_inside before same
  have at_left := (indexed _ left).mpr ⟨_, Array.getElem?_eq_getElem left_inside, same⟩
  have at_right := (indexed _ right).mpr ⟨_, Array.getElem?_eq_getElem right_inside, rfl⟩
  cases at_left.symm.trans at_right
  exact absurd before (Nat.lt_irrefl _)

/-! ## Forgetting -/

theorem getElem?_removeAt {entries : Array Tracked} {position : Nat}
    (inside : position < entries.size) (place : Nat) :
    (removeAt entries position)[place]? =
      if place + 1 < entries.size then
        entries[if place = position then entries.size - 1 else place]?
      else none := by
  have last : entries.back? = some entries[entries.size - 1] := by
    simp [Array.back?_eq_getElem?]
  rw [removeAt, last]
  simp only [Array.getElem?_pop, Array.getElem?_setIfInBounds, Array.size_setIfInBounds,
    Nat.lt_sub_iff_add_lt]
  by_cases same : place = position
  · subst same
    rw [if_pos rfl, if_pos rfl, if_pos inside, Array.getElem?_eq_getElem]
  · rw [if_neg same, if_neg (Ne.symm same)]

theorem mem_of_mem_removeAt {entries : Array Tracked} {position : Nat} {entry : Tracked}
    (inside : position < entries.size) (member : entry ∈ removeAt entries position) :
    entry ∈ entries := by
  obtain ⟨place, there⟩ := Array.getElem?_of_mem member
  rw [getElem?_removeAt inside] at there
  split at there
  · exact Array.mem_of_getElem? there
  · cases there

section Forget

variable {position : Nat} {entry : Tracked}

/-- Without the entry that is dropped, the index leads to the others. -/
theorem get?_erase_of_ne (found : collector.index.get? entry.ref.id = some position)
    {id place : Nat} (known : collector.index.get? id = some place) (elsewhere : place ≠ position) :
    (collector.index.erase entry.ref.id).get? id = some place := by
  rw [SlotIndex.get?_erase, if_neg, known]
  rintro rfl
  cases known.symm.trans found
  exact elsewhere rfl

/-- Without the entry that is dropped, the index leads to no other place than before. -/
theorem Finds.exists_of_get?_erase (finds : collector.Finds asked)
    (there : collector.entries[position]? = some entry) {id place : Nat}
    (known : (collector.index.erase entry.ref.id).get? id = some place) :
    place ≠ position ∧ ∃ other, collector.entries[place]? = some other ∧ other.ref.id = id := by
  rw [SlotIndex.get?_erase] at known
  split at known
  · cases known
  · rename_i different
    obtain ⟨other, here, id_eq⟩ := finds.sound id place known
    refine ⟨?_, other, here, id_eq⟩
    rintro rfl
    cases here.symm.trans there
    exact different id_eq.symm

/-- The last entry is dropped, and the others stay where they are. -/
theorem Finds.forget_last (finds : collector.Finds asked)
    (found : collector.index.get? entry.ref.id = some position)
    (there : collector.entries[position]? = some entry)
    (last : position + 1 = collector.entries.size) :
    Finds { collector with
      entries := removeAt collector.entries position
      index := collector.index.erase entry.ref.id } asked := by
  have inside := (Array.getElem?_eq_some_iff.mp there).1
  have old {other : Tracked} : other ∈ removeAt collector.entries position →
      other ∈ collector.entries :=
    mem_of_mem_removeAt inside
  refine
    { sound := fun id place known => ?_
      found := fun place other here question => ?_
      noted := fun other member => ?_
      newest := fun older member newer member' same => ?_ }
  · obtain ⟨elsewhere, other, here, rfl⟩ := finds.exists_of_get?_erase there known
    have place_inside := (Array.getElem?_eq_some_iff.mp here).1
    refine ⟨other, ?_, rfl⟩
    rw [getElem?_removeAt inside, if_pos (by omega), if_neg elsewhere, here]
  · rw [getElem?_removeAt inside] at here
    split at here
    · rename_i before
      rw [if_neg (by omega)] at here
      exact get?_erase_of_ne found (finds.found place other here question) (by omega)
    · cases here
  · rw [SlotIndex.slots_erase]
    exact finds.noted other (old member)
  · rw [SlotIndex.slots_erase] at same
    exact finds.newest older (old member) newer (old member') same

/-- The last entry takes the place of the one that is dropped, and the index follows. -/
theorem Finds.forget_moving (finds : collector.Finds asked)
    (found : collector.index.get? entry.ref.id = some position)
    (there : collector.entries[position]? = some entry) {last : Tracked}
    (before_last : position + 1 < collector.entries.size)
    (last_there : collector.entries[collector.entries.size - 1]? = some last) :
    Finds { collector with
      entries := removeAt collector.entries position
      index := (collector.index.erase entry.ref.id).enter last.ref.id position } asked := by
  have inside := (Array.getElem?_eq_some_iff.mp there).1
  have old {other : Tracked} : other ∈ removeAt collector.entries position →
      other ∈ collector.entries :=
    mem_of_mem_removeAt inside
  have moved : (removeAt collector.entries position)[position]? = some last := by
    rw [getElem?_removeAt inside, if_pos before_last, if_pos rfl, last_there]
  refine
    { sound := fun id place known => ?_
      found := fun place other here question => ?_
      noted := fun other member => ?_
      newest := fun older member newer member' same => ?_ }
  · rcases SlotIndex.eq_or_get?_of_get?_enter known with ⟨rfl, rfl⟩ | before
    · exact ⟨last, moved, rfl⟩
    · obtain ⟨elsewhere, other, here, rfl⟩ := finds.exists_of_get?_erase there before
      by_cases end_eq : place + 1 < collector.entries.size
      · refine ⟨other, ?_, rfl⟩
        rw [getElem?_removeAt inside, if_pos end_eq, if_neg elsewhere, here]
      · have place_inside := (Array.getElem?_eq_some_iff.mp here).1
        have place_eq : place = collector.entries.size - 1 := by omega
        cases (place_eq ▸ here).symm.trans last_there
        cases known.symm.trans (SlotIndex.get?_enter_of_get? before position)
        exact absurd rfl elsewhere
  · rw [getElem?_removeAt inside] at here
    split at here
    · split at here
      · rename_i same
        cases last_there.symm.trans here
        have known := finds.found _ last last_there question
        rw [same]
        exact SlotIndex.get?_enter_of_get? (get?_erase_of_ne found known (by omega)) position
      · rename_i elsewhere
        have known := finds.found place other here question
        have differ : other.ref.id ≠ last.ref.id := by
          intro same
          have ref_eq : other.ref = last.ref := StringRef.ext same
          have known' := finds.found _ last last_there (ref_eq ▸ question)
          rw [same, known', Option.some.injEq] at known
          omega
        refine SlotIndex.get?_enter_of_spared (get?_erase_of_ne found known elsewhere) differ
          fun same earlier => ?_
        rw [SlotIndex.slots_erase] at same
        exact finds.newest other (Array.mem_of_getElem? here) last
          (Array.mem_of_getElem? last_there) same earlier question
    · cases here
  · rw [SlotIndex.slots_enter, SlotIndex.slots_erase]
    exact finds.noted other (old member)
  · rw [SlotIndex.slots_enter, SlotIndex.slots_erase] at same
    exact finds.newest older (old member) newer (old member') same

theorem Finds.forget (finds : collector.Finds asked) (ref : StringRef) :
    (collector.forget ref).2.Finds asked := by
  unfold Collector.forget
  split
  · exact finds
  rename_i position entry gone
  obtain ⟨found, there, rfl⟩ := finds.of_find? gone
  have inside := (Array.getElem?_eq_some_iff.mp there).1
  by_cases before_last : position + 1 < collector.entries.size
  · obtain ⟨last, last_there⟩ :
        ∃ last, collector.entries[collector.entries.size - 1]? = some last :=
      ⟨_, Array.getElem?_eq_getElem (by omega)⟩
    have moved : (removeAt collector.entries position)[position]? = some last := by
      rw [getElem?_removeAt inside, if_pos before_last, if_pos rfl, last_there]
    simp only [moved]
    exact finds.forget_moving found there before_last last_there
  · have none_moved : (removeAt collector.entries position)[position]? = none := by
      rw [getElem?_removeAt inside, if_neg before_last]
    simp only [none_moved]
    exact finds.forget_last found there (by omega)

end Forget

theorem slots_forget (collector : Collector) (ref : StringRef) :
    (collector.forget ref).2.index.slots = collector.index.slots := by
  unfold Collector.forget
  split
  · rfl
  · rename_i position entry gone
    dsimp only
    split <;> simp

/-! ## Kept entries -/

/-- The entries that a collection keeps. -/
theorem toList_entries_collect (collector : Collector) (roots : List StringRef)
    (heap : StringHeap) :
    (collector.collect roots heap).2.1.entries.toList =
      (collector.entries.toList.zipIdx.filter fun (entry, position) =>
        isKept collector.config.mode heap entry
          ((markedFrom collector.index roots).contains position)).map Prod.fst := by
  simp only [Collector.collect, Array.toList_map, Array.toList_filter, Array.toList_zipIdx,
    List.filter_map, List.map_map]
  rfl

theorem sublist_entries_collect (collector : Collector) (roots : List StringRef)
    (heap : StringHeap) :
    (collector.collect roots heap).2.1.entries.toList.Sublist collector.entries.toList := by
  rw [toList_entries_collect]
  have all := List.zipIdx_map_fst 0 collector.entries.toList
  have part := (List.filter_sublist (l := collector.entries.toList.zipIdx)
    (p := fun (entry, position) => isKept collector.config.mode heap entry
      ((markedFrom collector.index roots).contains position))).map Prod.fst
  rwa [all] at part

/-! ## Indexing anew -/

section Reindex

variable {index : SlotIndex} {entries : List Tracked}

/-- The entries are entered at their positions, one after the other. -/
def entered (index : SlotIndex) (entries : List Tracked) : SlotIndex :=
  entries.zipIdx.foldl (fun index (entry, position) => index.enter entry.ref.id position) index

theorem entered_append_singleton (index : SlotIndex) (entries : List Tracked) (entry : Tracked) :
    entered index (entries ++ [entry]) =
      (entered index entries).enter entry.ref.id entries.length := by
  rw [entered, List.zipIdx_append, List.foldl_append, Nat.zero_add]
  rfl

theorem slots_entered (index : SlotIndex) (entries : List Tracked) :
    (entered index entries).slots = index.slots := by
  induction entries using List.reverseRecOn with
  | nil => rfl
  | append_singleton entries entry induction =>
      rw [entered_append_singleton, SlotIndex.slots_enter, induction]

/-- A cleared index leads to the entries that were entered, and to nothing else. -/
theorem exists_of_get?_entered {id position : Nat}
    (found : (entered index.clear entries).get? id = some position) :
    ∃ entry, entries[position]? = some entry ∧ entry.ref.id = id := by
  induction entries using List.reverseRecOn with
  | nil => simp [entered] at found
  | append_singleton entries entry induction =>
      rw [entered_append_singleton] at found
      rcases SlotIndex.eq_or_get?_of_get?_enter found with ⟨rfl, rfl⟩ | old
      · exact ⟨entry, by simp, rfl⟩
      · obtain ⟨other, there, id_eq⟩ := induction old
        have inside := (List.getElem?_eq_some_iff.mp there).1
        exact ⟨other, by rw [List.getElem?_append_left inside, there], id_eq⟩

/-- The entries that may be asked for are found, as none of them has a newer one in its slot or
another one of the same string. -/
theorem get?_entered
    (noted : ∀ entry ∈ entries, ∃ slot, index.slots.get? entry.ref.id = some slot)
    (newest : ∀ older ∈ entries, ∀ newer ∈ entries,
      index.slots.get? older.ref.id = index.slots.get? newer.ref.id →
        older.ref.id < newer.ref.id → ¬ asked older.ref)
    (single : entries.Pairwise fun left right => left.ref.id = right.ref.id → ¬ asked left.ref)
    {position : Nat} {entry : Tracked} (there : entries[position]? = some entry)
    (question : asked entry.ref) :
    (entered index.clear entries).get? entry.ref.id = some position := by
  induction entries using List.reverseRecOn with
  | nil => cases there
  | append_singleton entries last induction =>
      obtain ⟨single, _, apart⟩ := List.pairwise_append.mp single
      have slots_eq (id : Nat) :
          (entered index.clear entries).slots.get? id = index.slots.get? id := by
        rw [slots_entered, SlotIndex.slots_clear]
      rw [entered_append_singleton]
      rw [List.getElem?_append] at there
      split at there
      · have member := List.mem_of_getElem? there
        have found := induction (fun entry member => noted entry (List.mem_append_left _ member))
          (fun older member newer member' => newest older (List.mem_append_left _ member) newer
            (List.mem_append_left _ member')) single there
        have differ : entry.ref.id ≠ last.ref.id := fun same =>
          apart entry member last List.mem_cons_self same question
        refine SlotIndex.get?_enter_of_spared found differ fun same earlier => ?_
        rw [slots_eq, slots_eq] at same
        exact newest entry (List.mem_append_left _ member) last (by simp) same earlier question
      · rename_i beyond
        have position_eq : position = entries.length := by
          have inside := (List.getElem?_eq_some_iff.mp there).1
          simp at inside
          omega
        subst position_eq
        rw [Nat.sub_self] at there
        cases there
        obtain ⟨slot, known⟩ := noted entry (by simp)
        refine SlotIndex.get?_enter_self ((slots_eq _).trans known)
          (fun other place found same => ?_) _
        obtain ⟨rival, there, rfl⟩ := exists_of_get?_entered found
        rw [slots_eq] at same
        refine Nat.le_of_not_lt fun later => ?_
        exact newest entry (by simp) rival
          (List.mem_append_left _ (List.mem_of_getElem? there))
          (known.trans same.symm) later question

end Reindex

/-- No string that may be asked for has two entries. -/
theorem Finds.pairwise (finds : collector.Finds asked) :
    collector.entries.toList.Pairwise fun left right =>
      left.ref.id = right.ref.id → ¬ asked left.ref := by
  rw [List.pairwise_iff_getElem]
  intro left right left_inside right_inside before same question
  have ref_eq : collector.entries.toList[left].ref = collector.entries.toList[right].ref :=
    StringRef.ext same
  have at_left := finds.found left _ (Array.getElem?_eq_getElem left_inside) question
  have at_right := finds.found right _ (Array.getElem?_eq_getElem right_inside) (ref_eq ▸ question)
  rw [Array.getElem_toList] at same
  have one := at_left.symm.trans ((congrArg collector.index.get? same).trans at_right)
  exact absurd (Option.some.inj one) (Nat.ne_of_lt before)

theorem slots_collect (collector : Collector) (roots : List StringRef) (heap : StringHeap) :
    (collector.collect roots heap).2.1.index.slots = collector.index.slots :=
  slots_entered collector.index.clear _

theorem Finds.collect (finds : collector.Finds asked) (roots : List StringRef) (heap : StringHeap) :
    (collector.collect roots heap).2.1.Finds asked := by
  have part := collector.sublist_entries_collect roots heap
  have old {entry : Tracked} (member : entry ∈ (collector.collect roots heap).2.1.entries) :
      entry ∈ collector.entries :=
    Array.mem_toList_iff.mp (part.subset (Array.mem_toList_iff.mpr member))
  have index_eq : (collector.collect roots heap).2.1.index =
      entered collector.index.clear (collector.collect roots heap).2.1.entries.toList := rfl
  have slots_eq := collector.slots_collect roots heap
  refine
    { sound := fun id position found => ?_
      found := fun position entry there question => ?_
      noted := fun entry member => ?_
      newest := fun older member newer member' same => ?_ }
  · rw [index_eq] at found
    obtain ⟨entry, there, id_eq⟩ := exists_of_get?_entered found
    exact ⟨entry, by rw [← Array.getElem?_toList, there], id_eq⟩
  · rw [index_eq]
    refine get?_entered (fun entry member =>
      finds.noted entry (old (Array.mem_toList_iff.mp member)))
      (fun older member newer member' => finds.newest older (old (Array.mem_toList_iff.mp member))
        newer (old (Array.mem_toList_iff.mp member')))
      (finds.pairwise.sublist part) ?_ question
    rw [Array.getElem?_toList, there]
  · rw [slots_eq]
    exact finds.noted entry (old member)
  · rw [slots_eq] at same
    exact finds.newest older (old member) newer (old member') same

/-- Of the entries that may be asked for, a collection marks those of the roots. -/
theorem Finds.marked_iff (finds : collector.Finds asked) {roots : List StringRef} {position : Nat}
    {entry : Tracked} (there : collector.entries[position]? = some entry)
    (question : asked entry.ref) :
    (markedFrom collector.index roots).contains position = true ↔ entry.ref ∈ roots := by
  rw [contains_markedFrom]
  constructor
  · rintro ⟨root, member, found⟩
    obtain ⟨other, there', id_eq⟩ := finds.sound _ _ found
    cases there.symm.trans there'
    rwa [StringRef.ext id_eq]
  · exact fun member => ⟨entry.ref, member, finds.found position entry there question⟩

namespace Indexed

/-- Every string may be asked for. -/
theorem every (indexed : collector.Indexed) : collector.Finds fun _ => True :=
  indexed.finds

theorem marked_iff (indexed : collector.Indexed) {roots : List StringRef} {position : Nat}
    {entry : Tracked} (there : collector.entries[position]? = some entry) :
    (markedFrom collector.index roots).contains position = true ↔ entry.ref ∈ roots :=
  indexed.every.marked_iff there trivial

theorem adopt (indexed : collector.Indexed) (ref : StringRef) :
    (collector.adopt ref).2.Indexed :=
  (indexed.every.adopt ref).indexed fun _ _ => trivial

theorem forget (indexed : collector.Indexed) (ref : StringRef) :
    (collector.forget ref).2.Indexed :=
  (indexed.every.forget ref).indexed fun _ _ => trivial

theorem collect (indexed : collector.Indexed) (roots : List StringRef) (heap : StringHeap) :
    (collector.collect roots heap).2.1.Indexed :=
  (indexed.every.collect roots heap).indexed fun _ _ => trivial

end Indexed

/-- An entry is to be kept by a collection: its string is one of the roots, or is neither the
collector's to free nor gone. -/
def Keeps (collector : Collector) (roots : List StringRef) (heap : StringHeap) (entry : Tracked) :
    Prop :=
  entry.ref ∈ roots ∨
    ¬ (collector.config.mode = .own ∧ entry.owned = true) ∧ heap.contains entry.ref = true

instance (collector : Collector) (roots : List StringRef) (heap : StringHeap) :
    DecidablePred (collector.Keeps roots heap) := fun _ =>
  inferInstanceAs (Decidable (_ ∨ ¬ (_ ∧ _) ∧ _))

/-- A collection of an indexed collector keeps the entries that are to be kept, in their order. -/
theorem Indexed.toList_entries_collect (indexed : collector.Indexed) (roots : List StringRef)
    (heap : StringHeap) :
    (collector.collect roots heap).2.1.entries.toList =
      collector.entries.toList.filter (collector.Keeps roots heap) := by
  have all := List.zipIdx_map_fst 0 collector.entries.toList
  rw [Collector.toList_entries_collect, ← all, List.filter_map, all]
  refine congrArg _ (List.filter_congr fun entry member => ?_)
  have there := List.mem_zipIdx_iff_getElem?.mp member
  rw [Array.getElem?_toList] at there
  rw [Bool.eq_iff_iff, Function.comp, decide_eq_true_iff, Keeps, ← indexed.marked_iff there]
  simp [isKept, -not_and, Decidable.not_and_iff_or_not]

end Collector

end StackMachine
