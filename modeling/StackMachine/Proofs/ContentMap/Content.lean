import StackMachine.Proofs.ContentMap.Table
import StackMachine.Proofs.StringHeap
import Mathlib.Data.List.Nodup

/-!
# The contents of a map

A map is sound over a heap when its table is chained, its keys are live and stored under the hashes
of their contents, and no content has two entries.  A search in a sound map finds the entry of a
content when there is one, and otherwise a place where adding it keeps the map sound.
-/

namespace StackMachine

namespace ContentMap

variable {V : Type}

/-- The invariant of a map that depends on the heap. -/
structure Sound (heap : StringHeap) (map : ContentMap V) : Prop where
  chained : Chained map.slots
  keyed : ∀ key hash value, Slot.occupied key hash value ∈ occupants map.slots →
    ∃ bytes, heap.bytes? key = some bytes ∧ hash = hashBytes bytes
  distinct : (map.entries.map fun entry => heap.bytes? entry.1).Nodup

theorem sound_empty (heap : StringHeap) : Sound heap ({} : ContentMap V) := by
  refine ⟨fun position key hash value here => ?_, fun key hash value member => ?_, List.nodup_nil⟩
  · simp at here
  · simp [occupants] at member

/-- Soundness depends on the heap through the contents of the keys alone. -/
theorem Sound.of_bytes?_eq {heap after : StringHeap} {map : ContentMap V} (sound : Sound heap map)
    (same : ∀ key ∈ map.keys, after.bytes? key = heap.bytes? key) : Sound after map := by
  refine ⟨sound.chained, fun key hash value member => ?_, ?_⟩
  · have stored : key ∈ map.keys := by
      rw [keys, entries_eq_filterMap_occupants]
      exact List.mem_map.mpr ⟨(key, value), List.mem_filterMap.mpr ⟨_, member, rfl⟩, rfl⟩
    rw [same key stored]
    exact sound.keyed key hash value member
  · have contents_eq : (map.entries.map fun entry => after.bytes? entry.1) =
        map.entries.map fun entry => heap.bytes? entry.1 :=
      List.map_congr_left fun entry member => same entry.1 (List.mem_map_of_mem member)
    rw [contents_eq]
    exact sound.distinct

theorem mem_occupants_of_getElem? {slots : Array (Slot V)} {position : Nat} {key : StringRef}
    {hash : UInt32} {value : V} (here : slots[position]? = some (.occupied key hash value)) :
    Slot.occupied key hash value ∈ occupants slots := by
  refine List.mem_filter.mpr ⟨?_, rfl⟩
  rw [Array.mem_toList_iff]
  exact Array.mem_of_getElem? here

theorem mem_entries_iff {map : ContentMap V} {key : StringRef} {value : V} :
    (key, value) ∈ map.entries ↔
      ∃ (position : Nat) (hash : UInt32),
        map.slots[position]? = some (.occupied key hash value) := by
  constructor
  · intro member
    obtain ⟨slot, inside, entry⟩ := List.mem_filterMap.mp member
    cases slot with
    | empty => cases entry
    | tombstone => cases entry
    | occupied key' hash value' =>
        cases entry
        obtain ⟨position, here⟩ := List.getElem?_of_mem inside
        exact ⟨position, hash, by simpa using here⟩
  · rintro ⟨position, hash, here⟩
    rw [entries_eq_filterMap_occupants]
    exact List.mem_filterMap.mpr ⟨_, mem_occupants_of_getElem? here, rfl⟩

theorem Sound.exists_bytes?_of_mem_keys {heap : StringHeap} {map : ContentMap V} {key : StringRef}
    (sound : Sound heap map) (stored : key ∈ map.keys) : ∃ bytes, heap.bytes? key = some bytes := by
  obtain ⟨⟨key', value⟩, member, rfl⟩ := List.mem_map.mp stored
  obtain ⟨position, hash, here⟩ := mem_entries_iff.mp member
  obtain ⟨bytes, live, _⟩ := sound.keyed key' hash value (mem_occupants_of_getElem? here)
  exact ⟨bytes, live⟩

/-! ## Searching by handle and by content -/

/-- A search by handle and one by content stop at the same stored keys. -/
theorem probeFrom_congr {heap : StringHeap} {first second : Sought} {slots : Array (Slot V)}
    (agree : ∀ key hash value, Slot.occupied key hash value ∈ occupants slots →
      first.isAt heap key hash = second.isAt heap key hash)
    (steps position : Nat) (reusable : Option Nat) :
    probeFrom heap first slots steps position reusable =
      probeFrom heap second slots steps position reusable := by
  induction steps generalizing position reusable with
  | zero => rfl
  | succ steps induction =>
      simp only [probeFrom]
      split
      · rename_i key hash value here
        rw [agree key hash value (mem_occupants_of_getElem? here), induction]
      · rw [induction]
      · rfl

theorem isAt_ofBytes_iff {heap : StringHeap} {key : StringRef} {bytes sought : List UInt8}
    (live : heap.bytes? key = some bytes) :
    (Sought.ofBytes sought).isAt heap key (hashBytes bytes) = true ↔ bytes = sought := by
  simp only [Sought.isAt, Sought.ofBytes, live]
  constructor
  · simp
  · rintro rfl
    simp

/-- Equal handles have equal contents, so looking for a handle adds nothing to looking for its
content. -/
theorem Sound.probe_ofString {heap : StringHeap} {map : ContentMap V} {ref : StringRef}
    {string : HeapString} (sound : Sound heap map) (hashed : heap.Hashed)
    (live : heap.get? ref = some string) :
    map.probe heap (.ofString ref string) = map.probe heap (.ofBytes string.bytes) := by
  have hash_eq : string.hash = hashBytes string.bytes := hashed ref string live
  have agree : ∀ key hash value, Slot.occupied key hash value ∈ occupants map.slots →
      (Sought.ofString ref string).isAt heap key hash =
        (Sought.ofBytes string.bytes).isAt heap key hash := by
    intro key hash value member
    obtain ⟨bytes, content, rfl⟩ := sound.keyed key hash value member
    by_cases same : ref = key
    · subst same
      have bytes_eq : bytes = string.bytes := by
        simpa [StringHeap.bytes?, live] using content.symm
      rw [(isAt_ofBytes_iff content).mpr bytes_eq]
      simp [Sought.isAt, Sought.ofString]
    · simp [Sought.isAt, Sought.ofString, Sought.ofBytes, hash_eq, same]
  simp only [probe, probeFrom_congr agree]
  simp only [Sought.ofString, Sought.ofBytes, hash_eq]

theorem Sound.get?_eq_getBytes? {heap : StringHeap} {map : ContentMap V} {key : StringRef}
    {bytes : List UInt8} (sound : Sound heap map) (hashed : heap.Hashed)
    (live : heap.bytes? key = some bytes) : map.get? heap key = map.getBytes? heap bytes := by
  obtain ⟨string, found, rfl⟩ := Option.map_eq_some_iff.mp live
  simp only [get?, getBytes?, found, Option.bind_some, entry?, position?,
    sound.probe_ofString hashed found]

theorem Sound.delete_eq_deleteBytes {heap : StringHeap} {map : ContentMap V} {key : StringRef}
    {bytes : List UInt8} (sound : Sound heap map) (hashed : heap.Hashed)
    (live : heap.bytes? key = some bytes) : map.delete heap key = map.deleteBytes heap bytes := by
  obtain ⟨string, found, rfl⟩ := Option.map_eq_some_iff.mp live
  simp only [delete, deleteBytes, found, take, position?, sound.probe_ofString hashed found]

/-! ## Outcomes of a search -/

theorem capacity_pos_of_probe_eq_found {heap : StringHeap} {map : ContentMap V} {sought : Sought}
    {position : Nat} (found : map.probe heap sought = .found position) : 0 < map.capacity := by
  by_contra none
  have empty : map.capacity = 0 := by omega
  simp [probe, empty, probeFrom] at found

theorem occupied_of_probe_eq_found {heap : StringHeap} {map : ContentMap V} {sought : Sought}
    {position : Nat} (balanced : Balanced map) (found : map.probe heap sought = .found position) :
    ∃ key hash value, map.slots[position]? = some (.occupied key hash value) ∧
      sought.isAt heap key hash = true := by
  have led := leads_probe (balanced.hasRoom (capacity_pos_of_probe_eq_found found)) heap sought
  rw [found] at led
  cases led with
  | found below passed occupied here =>
      rename_i steps key hash value
      exact ⟨key, hash, value, occupied, here⟩

theorem Sound.of_probe_eq_found {heap : StringHeap} {map : ContentMap V} {bytes : List UInt8}
    {position : Nat} (balanced : Balanced map) (sound : Sound heap map)
    (found : map.probe heap (.ofBytes bytes) = .found position) :
    ∃ key hash value, map.slots[position]? = some (.occupied key hash value) ∧
      heap.bytes? key = some bytes := by
  obtain ⟨key, hash, value, occupied, here⟩ := occupied_of_probe_eq_found balanced found
  obtain ⟨content, live, rfl⟩ := sound.keyed key hash value (mem_occupants_of_getElem? occupied)
  exact ⟨key, hashBytes content, value, occupied, (isAt_ofBytes_iff live).mp here ▸ live⟩

theorem vacant_of_probe_eq_vacant {heap : StringHeap} {map : ContentMap V} {sought : Sought}
    {position : Nat} (room : HasRoom map.slots)
    (vacant : map.probe heap sought = .vacant position) :
    Vacant map.slots position ∧ Reached map.slots sought.hash position := by
  have led := leads_probe room heap sought
  rw [vacant] at led
  cases led with
  | vacant below passed ended within free =>
      rename_i steps chosen
      refine ⟨free, chosen, by omega, rfl, fun earlier before empty => ?_⟩
      have passable := passed earlier (by omega)
      rw [capacity, empty] at passable
      exact passable

/-- A search that ends at an empty slot has met every entry of its home. -/
theorem Sound.of_probe_eq_vacant {heap : StringHeap} {map : ContentMap V} {bytes : List UInt8}
    {position : Nat} (balanced : Balanced map) (sound : Sound heap map)
    (vacant : map.probe heap (.ofBytes bytes) = .vacant position) :
    ∀ entry ∈ map.entries, heap.bytes? entry.1 ≠ some bytes := by
  rintro ⟨key, value⟩ member content
  obtain ⟨target, hash, here⟩ := mem_entries_iff.mp member
  have positive : 0 < map.capacity := Nat.zero_lt_of_lt (Array.getElem?_eq_some_iff.mp here).1
  obtain ⟨bytes', live, rfl⟩ := sound.keyed key hash value (mem_occupants_of_getElem? here)
  obtain rfl : bytes' = bytes := Option.some.inj (live.symm.trans content)
  obtain ⟨steps, below, rfl, unbroken⟩ := sound.chained target key _ value here
  have led := leads_probe (balanced.hasRoom positive) heap (Sought.ofBytes bytes')
  rw [vacant] at led
  cases led with
  | vacant below' passed ended within free =>
      rename_i last chosen
      -- The key lies before the end, on it or behind it; no case is possible.
      rcases Nat.lt_trichotomy steps last with before | rfl | behind
      · have passable := passed steps before
        simp only [slotAfter, capacity, Sought.ofBytes] at passable
        rw [here] at passable
        have stopped := (isAt_ofBytes_iff live).mpr rfl
        exact absurd (stopped.symm.trans passable) (by simp)
      · simp only [slotAfter, capacity, Sought.ofBytes] at ended
        rw [here] at ended
        cases ended
      · exact unbroken last behind ended

theorem Sound.entry?_ofBytes_eq_some_iff {heap : StringHeap} {map : ContentMap V}
    {bytes : List UInt8} {key : StringRef} {value : V} (balanced : Balanced map)
    (sound : Sound heap map) :
    map.entry? heap (.ofBytes bytes) = some (key, value) ↔
      (key, value) ∈ map.entries ∧ heap.bytes? key = some bytes := by
  unfold entry? position?
  cases outcome : map.probe heap (.ofBytes bytes) with
  | vacant position =>
      have absent := sound.of_probe_eq_vacant balanced outcome
      constructor
      · intro impossible
        cases impossible
      · rintro ⟨member, content⟩
        exact absurd content (absent (key, value) member)
  | found position =>
      obtain ⟨stored, hash, current, here, content⟩ := sound.of_probe_eq_found balanced outcome
      simp only [Option.bind_some, entryAt?, here, Slot.entry?, Option.some.injEq]
      constructor
      · rintro ⟨⟩
        exact ⟨mem_entries_iff.mpr ⟨position, hash, here⟩, content⟩
      · rintro ⟨member, same⟩
        exact List.inj_on_of_nodup_map sound.distinct (mem_entries_iff.mpr ⟨position, hash, here⟩)
          member (content.trans same.symm)

/-- What is found under a content is stored under some key. -/
theorem Sound.exists_mem_of_getBytes? {heap : StringHeap} {map : ContentMap V}
    {bytes : List UInt8} {value : V} (balanced : Balanced map) (sound : Sound heap map)
    (found : map.getBytes? heap bytes = some value) : ∃ key, (key, value) ∈ map.entries := by
  obtain ⟨⟨key, value'⟩, entry, rfl⟩ := Option.map_eq_some_iff.mp found
  exact ⟨key, ((sound.entry?_ofBytes_eq_some_iff balanced).mp entry).1⟩

theorem Sound.exists_mem_of_get? {heap : StringHeap} {map : ContentMap V} {key : StringRef}
    {value : V} (balanced : Balanced map) (sound : Sound heap map) (hashed : heap.Hashed)
    (found : map.get? heap key = some value) : ∃ key, (key, value) ∈ map.entries := by
  cases live : heap.bytes? key with
  | none =>
      have dead : heap.get? key = none := by simpa [StringHeap.bytes?] using live
      simp [get?, dead] at found
  | some bytes =>
      rw [sound.get?_eq_getBytes? hashed live] at found
      exact sound.exists_mem_of_getBytes? balanced found

/-! ## Changes -/

/-- Rearranging the slots keeps a map sound. -/
theorem Sound.of_perm {heap : StringHeap} {map other : ContentMap V} (sound : Sound heap map)
    (chained : Chained other.slots)
    (permuted : (occupants other.slots).Perm (occupants map.slots)) :
    Sound heap other := by
  refine ⟨chained, fun key hash value member =>
    sound.keyed key hash value (permuted.mem_iff.mp member), ?_⟩
  rw [entries_eq_filterMap_occupants]
  refine ((permuted.filterMap Slot.entry?).map _).nodup_iff.mpr ?_
  rw [← entries_eq_filterMap_occupants]
  exact sound.distinct

theorem Sound.prepared {heap : StringHeap} {map : ContentMap V} (sound : Sound heap map) :
    Sound heap map.prepared := by
  unfold ContentMap.prepared
  split
  · rename_i unused
    have few := length_occupants_lt_of_isEmpty unused
    exact sound.of_perm (chained_resize few) (occupants_resize_perm few)
  · exact sound

theorem entries_prepared (map : ContentMap V) : map.prepared.entries = map.entries := by
  unfold prepared
  split
  · rename_i unused
    have permuted := occupants_resize_perm (length_occupants_lt_of_isEmpty unused)
    rw [occupants_of_isEmpty unused] at permuted
    rw [entries_eq_filterMap_occupants, entries_eq_filterMap_occupants,
      occupants_of_isEmpty unused, permuted.eq_nil]
  · rfl

theorem Sound.insertAt {heap : StringHeap} {map : ContentMap V} {position : Nat}
    {key : StringRef} {bytes : List UInt8} (balanced : Balanced map) (sound : Sound heap map)
    (value : V) (vacant : Vacant map.slots position)
    (reached : Reached map.slots (hashBytes bytes) position) (live : heap.bytes? key = some bytes)
    (absent : ∀ entry ∈ map.entries, heap.bytes? entry.1 ≠ some bytes) :
    Sound heap (map.insertAt position key (hashBytes bytes) value) ∧
      (map.insertAt position key (hashBytes bytes) value).entries.Perm
        ((key, value) :: map.entries) := by
  have permuted := balanced.occupants_insertAt_perm key (hashBytes bytes) value vacant
  have entries_perm := permuted.filterMap Slot.entry?
  rw [← entries_eq_filterMap_occupants, List.filterMap_cons,
    ← entries_eq_filterMap_occupants] at entries_perm
  refine ⟨⟨balanced.chained_insertAt sound.chained key (hashBytes bytes) value vacant reached,
    fun stored hash current member => ?_, ?_⟩, entries_perm⟩
  · rcases List.mem_cons.mp (permuted.mem_iff.mp member) with new | old
    · cases new
      exact ⟨bytes, live, rfl⟩
    · exact sound.keyed stored hash current old
  · refine (entries_perm.map _).nodup_iff.mpr
      (List.nodup_cons.mpr ⟨fun member => ?_, sound.distinct⟩)
    obtain ⟨entry, inside, same⟩ := List.mem_map.mp member
    exact absent entry inside (same.trans live)

theorem Sound.replaceAt {heap : StringHeap} {map : ContentMap V} {position : Nat}
    {key : StringRef} {hash : UInt32} {old : V} (sound : Sound heap map)
    (here : map.slots[position]? = some (.occupied key hash old)) (value : V) :
    Sound heap (map.replaceAt position value).2 := by
  obtain ⟨front, back, before, replaced, _⟩ := exists_entries_split here
  obtain ⟨front', back', before', written⟩ := exists_split here
  refine ⟨?_, fun stored hash' current member => ?_, ?_⟩
  · rw [replaceAt_eq here]
    refine sound.chained.set (by simp) fun key' hash' value' equal => ?_
    cases equal
    exact sound.chained position key hash old here
  · simp only [replaceAt_eq here, occupants, written, List.mem_filter, List.mem_append,
      List.mem_cons, Slot.occupied.injEq] at member
    rcases member.1 with earlier | ⟨rfl, rfl, _⟩ | later
    · exact sound.keyed stored hash' current (List.mem_filter.mpr ⟨by simp [before', earlier], rfl⟩)
    · exact sound.keyed stored hash' old (mem_occupants_of_getElem? here)
    · exact sound.keyed stored hash' current (List.mem_filter.mpr ⟨by simp [before', later], rfl⟩)
  · have distinct := sound.distinct
    rw [before] at distinct
    rw [replaced value]
    simpa using distinct

theorem Sound.takeAt {heap : StringHeap} {map : ContentMap V} {position : Nat}
    {key : StringRef} {hash : UInt32} {old : V} (sound : Sound heap map)
    (here : map.slots[position]? = some (.occupied key hash old)) :
    Sound heap (map.takeAt position).2 := by
  obtain ⟨front, back, before, _, taken⟩ := exists_entries_split here
  obtain ⟨front', back', before', written⟩ := exists_split here
  refine ⟨?_, fun stored hash' current member => ?_, ?_⟩
  · rw [takeAt_eq here]
    exact sound.chained.set (by simp) (by simp)
  · simp only [takeAt_eq here, occupants, written, List.mem_filter, List.mem_append,
      List.mem_cons, reduceCtorEq, false_or] at member
    refine sound.keyed stored hash' current (List.mem_filter.mpr ⟨?_, rfl⟩)
    rw [before']
    rcases member.1 with earlier | later
    · exact List.mem_append_left _ earlier
    · exact List.mem_append_right _ (List.mem_cons_of_mem _ later)
  · have distinct := sound.distinct
    rw [before] at distinct
    rw [taken]
    refine distinct.sublist (List.Sublist.map _ ?_)
    exact List.Sublist.append_left (List.sublist_cons_self _ _) _

theorem sound_clear (heap : StringHeap) (map : ContentMap V) : Sound heap map.clear := by
  refine ⟨chained_replicate_empty _, fun key hash value member => ?_, ?_⟩
  · rw [clear, occupants_replicate_empty] at member
    cases member
  · rw [entries_eq_filterMap_occupants, clear, occupants_replicate_empty]
    exact List.nodup_nil

theorem entries_clear (map : ContentMap V) : map.clear.entries = [] := by
  rw [entries_eq_filterMap_occupants, clear, occupants_replicate_empty]
  rfl

/-! ## What the operations do -/

/-- An entry is the only one with a content, and the others are given. -/
structure Isolates (heap : StringHeap) (bytes : List UInt8) (entries : List (StringRef × V))
    (entry : StringRef × V) (others : List (StringRef × V)) : Prop where
  perm : entries.Perm (entry :: others)
  content : heap.bytes? entry.1 = some bytes
  absent : ∀ other ∈ others, heap.bytes? other.1 ≠ some bytes

/-- A search that succeeds isolates the entry it finds. -/
theorem Sound.exists_isolates {heap : StringHeap} {map : ContentMap V} {bytes : List UInt8}
    {position : Nat} (balanced : Balanced map) (sound : Sound heap map)
    (found : map.probe heap (.ofBytes bytes) = .found position) :
    ∃ key hash old others, map.slots[position]? = some (.occupied key hash old) ∧
      Isolates heap bytes map.entries (key, old) others ∧
      (∀ value, (map.replaceAt position value).2.entries.Perm ((key, value) :: others)) ∧
      (map.takeAt position).2.entries = others := by
  obtain ⟨key, hash, old, here, content⟩ := sound.of_probe_eq_found balanced found
  obtain ⟨front, back, before, replaced, taken⟩ := exists_entries_split here
  have permuted : map.entries.Perm ((key, old) :: (front ++ back)) := by
    rw [before]
    exact List.perm_middle
  have distinct := (permuted.map fun entry => heap.bytes? entry.1).nodup_iff.mp sound.distinct
  refine ⟨key, hash, old, front ++ back, here, ⟨permuted, content, ?_⟩, fun value => ?_, taken⟩
  · intro other member same
    have fresh := (List.nodup_cons.mp distinct).1
    exact fresh (List.mem_map.mpr ⟨other, member, same.trans content.symm⟩)
  · rw [replaced value]
    exact List.perm_middle

/-- Removing a content takes out its entry when there is one. -/
theorem Sound.take_ofBytes {heap : StringHeap} {map : ContentMap V} (balanced : Balanced map)
    (sound : Sound heap map) (bytes : List UInt8) :
    Balanced (map.take heap (.ofBytes bytes)).2 ∧ Sound heap (map.take heap (.ofBytes bytes)).2 ∧
      ((∃ key old others, Isolates heap bytes map.entries (key, old) others ∧
          (map.take heap (.ofBytes bytes)).1 = some old ∧
          (map.take heap (.ofBytes bytes)).2.entries = others) ∨
        (∀ entry ∈ map.entries, heap.bytes? entry.1 ≠ some bytes) ∧
          map.take heap (.ofBytes bytes) = (none, map)) := by
  unfold take position?
  cases outcome : map.probe heap (.ofBytes bytes) with
  | found position =>
      obtain ⟨key, hash, old, others, here, isolated, _, taken⟩ :=
        sound.exists_isolates balanced outcome
      refine ⟨balanced.takeAt here, sound.takeAt here, .inl ⟨key, old, others, isolated, ?_, taken⟩⟩
      simp only [takeAt_eq here]
  | vacant position =>
      exact ⟨balanced, sound, .inr ⟨sound.of_probe_eq_vacant balanced outcome, rfl⟩⟩

/-- Storing under a live key replaces the value of its content, or else adds an entry. -/
theorem Sound.exists_put_eq_ok {heap : StringHeap} {map : ContentMap V} {key : StringRef}
    {bytes : List UInt8} (balanced : Balanced map) (sound : Sound heap map) (hashed : heap.Hashed)
    (live : heap.bytes? key = some bytes) (value : V) :
    ∃ previous result, map.put heap key value = .ok (previous, result) ∧ Balanced result ∧
      Sound heap result ∧
      ((∃ stored old others, Isolates heap bytes map.entries (stored, old) others ∧
          previous = some old ∧ result.entries.Perm ((stored, value) :: others)) ∨
        (∀ entry ∈ map.entries, heap.bytes? entry.1 ≠ some bytes) ∧ previous = none ∧
          result.entries.Perm ((key, value) :: map.entries)) := by
  obtain ⟨string, found, rfl⟩ := Option.map_eq_some_iff.mp live
  have balanced' := balanced.prepared
  have sound' := sound.prepared
  rw [← entries_prepared map]
  simp only [put, found, sound'.probe_ofString hashed found]
  cases outcome : map.prepared.probe heap (.ofBytes string.bytes) with
  | found position =>
      obtain ⟨stored, hash, old, others, here, isolated, replaced, _⟩ :=
        sound'.exists_isolates balanced' outcome
      exact ⟨_, _, rfl, balanced'.replaceAt here value, sound'.replaceAt here value,
        .inl ⟨stored, old, others, isolated, congrArg Prod.fst (replaceAt_eq here value),
          replaced value⟩⟩
  | vacant position =>
      obtain ⟨vacant, reached⟩ := vacant_of_probe_eq_vacant
        (balanced'.hasRoom (capacity_prepared_pos map)) outcome
      have absent := sound'.of_probe_eq_vacant balanced' outcome
      obtain ⟨inserted, permuted⟩ := sound'.insertAt balanced' value vacant reached live absent
      rw [hashed key string found]
      exact ⟨_, _, rfl, balanced'.insertAt key _ value vacant, inserted,
        .inr ⟨absent, rfl, permuted⟩⟩

/-- A put adds at most one entry, which has the value put. -/
theorem Sound.of_put_eq_ok {heap : StringHeap} {map result : ContentMap V} {key : StringRef}
    {value : V} {previous : Option V} (balanced : Balanced map) (sound : Sound heap map)
    (hashed : heap.Hashed) (done : map.put heap key value = .ok (previous, result)) :
    Balanced result ∧ Sound heap result ∧
      ∀ entry ∈ result.entries, entry ∈ map.entries ∨ entry.2 = value := by
  cases live : heap.bytes? key with
  | none =>
      have dead : heap.get? key = none := by simpa [StringHeap.bytes?] using live
      simp [put, dead] at done
  | some bytes =>
      obtain ⟨previous', result', done', balanced', sound', effect⟩ :=
        sound.exists_put_eq_ok balanced hashed live value
      cases done.symm.trans done'
      refine ⟨balanced', sound', fun entry member => ?_⟩
      rcases effect with ⟨stored, old, others, isolated, _, permuted⟩ | ⟨_, _, permuted⟩
      · rcases List.mem_cons.mp (permuted.mem_iff.mp member) with rfl | other
        · exact .inr rfl
        · exact .inl (isolated.perm.mem_iff.mpr (List.mem_cons_of_mem _ other))
      · rcases List.mem_cons.mp (permuted.mem_iff.mp member) with rfl | other
        · exact .inr rfl
        · exact .inl other

theorem Sound.mem_of_mem_deleteBytes {heap : StringHeap} {map : ContentMap V}
    {entry : StringRef × V} (balanced : Balanced map) (sound : Sound heap map)
    (bytes : List UInt8) (member : entry ∈ (map.deleteBytes heap bytes).2.entries) :
    entry ∈ map.entries := by
  rcases (sound.take_ofBytes balanced bytes).2.2 with
    ⟨key, old, others, isolated, _, remaining⟩ | ⟨_, unchanged⟩
  · rw [deleteBytes, remaining] at member
    exact isolated.perm.mem_iff.mpr (List.mem_cons_of_mem _ member)
  · rwa [deleteBytes, unchanged] at member

end ContentMap

end StackMachine
