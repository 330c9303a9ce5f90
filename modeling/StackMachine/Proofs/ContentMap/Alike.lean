import StackMachine.Proofs.ContentMap.Content
import StackMachine.Proofs.Outcome
import Mathlib.Data.List.Forall2

/-!
# Maps that look alike

Two maps over two heaps look alike when they agree slot by slot, keys being compared by content.  A
search for a content then ends at the same position in both, so that looking up and storing cannot
tell the maps apart.
-/

namespace StackMachine

variable {V : Type} {heap heap' : StringHeap} {related : V → V → Prop}

/-! ## Slots -/

/-- Slots that agree, their keys by content and their values by a relation. -/
inductive Slot.Alike (heap heap' : StringHeap) (related : V → V → Prop) : Slot V → Slot V → Prop
  | empty : Slot.Alike heap heap' related .empty .empty
  | tombstone : Slot.Alike heap heap' related .tombstone .tombstone
  | occupied {key key' : StringRef} {bytes : List UInt8} {value value' : V}
      (content : heap.bytes? key = some bytes) (content' : heap'.bytes? key' = some bytes)
      (values : related value value') :
      Slot.Alike heap heap' related (.occupied key (hashBytes bytes) value)
        (.occupied key' (hashBytes bytes) value')

theorem Slot.Alike.symm {related' : V → V → Prop} {slot slot' : Slot V}
    (alike : Slot.Alike heap heap' related slot slot')
    (flipped : ∀ value value', related value value' → related' value' value) :
    Slot.Alike heap' heap related' slot' slot := by
  cases alike with
  | empty => exact .empty
  | tombstone => exact .tombstone
  | occupied content content' values => exact .occupied content' content (flipped _ _ values)

/-- A heap may be replaced by one in which the keys have the same contents. -/
theorem Slot.Alike.of_heap {later : StringHeap} {related' : V → V → Prop} {slot slot' : Slot V}
    (alike : Slot.Alike heap heap' related slot slot')
    (kept : ∀ entry ∈ slot.entry?, ∀ bytes, heap.bytes? entry.1 = some bytes →
      later.bytes? entry.1 = some bytes)
    (weaker : ∀ entry ∈ slot.entry?, ∀ value', related entry.2 value' → related' entry.2 value') :
    Slot.Alike later heap' related' slot slot' := by
  cases alike with
  | empty => exact .empty
  | tombstone => exact .tombstone
  | occupied content content' values =>
      exact .occupied (kept _ rfl _ content) content' (weaker _ rfl _ values)

theorem forall₂_imp_of_mem {α β : Type} {relation relation' : α → β → Prop} {left : List α}
    {right : List β} (all : List.Forall₂ relation left right)
    (weaker : ∀ value ∈ left, ∀ value', relation value value' → relation' value value') :
    List.Forall₂ relation' left right := by
  rw [List.forall₂_iff_zip] at all ⊢
  refine ⟨all.1, fun paired => ?_⟩
  exact weaker _ (List.of_mem_zip paired).1 _ (all.2 paired)

theorem forall₂_getElem? {α β : Type} {relation : α → β → Prop} {left : List α} {right : List β}
    (all : List.Forall₂ relation left right) (position : Nat) :
    Option.Rel relation left[position]? right[position]? := by
  induction all generalizing position with
  | nil => exact .none
  | cons here rest induction =>
      cases position with
      | zero => exact .some here
      | succ position => exact induction position

theorem forall₂_set {α β : Type} {relation : α → β → Prop} {left : List α} {right : List β}
    {value : α} {value' : β} (all : List.Forall₂ relation left right) (new : relation value value')
    (position : Nat) :
    List.Forall₂ relation (left.set position value) (right.set position value') := by
  induction all generalizing position with
  | nil => exact .nil
  | cons here rest induction =>
      cases position with
      | zero => exact .cons new rest
      | succ position => exact .cons here (induction position)

theorem map_eq_of_forall₂ {α β γ : Type} {relation : α → β → Prop} {left : List α} {right : List β}
    {read : α → γ} {read' : β → γ} (all : List.Forall₂ relation left right)
    (same : ∀ value value', relation value value' → read value = read' value') :
    left.map read = right.map read' := by
  rw [← List.forall₂_eq_eq_eq, List.forall₂_map_left_iff, List.forall₂_map_right_iff]
  exact all.imp same

namespace ContentMap

/-- Tables that agree slot by slot. -/
def SlotsAlike (heap heap' : StringHeap) (related : V → V → Prop) (slots slots' : Array (Slot V)) :
    Prop :=
  List.Forall₂ (Slot.Alike heap heap' related) slots.toList slots'.toList

namespace SlotsAlike

variable {slots slots' : Array (Slot V)}

theorem size_eq (alike : SlotsAlike heap heap' related slots slots') : slots.size = slots'.size :=
  List.Forall₂.length_eq alike

theorem slot (alike : SlotsAlike heap heap' related slots slots') (position : Nat) :
    Option.Rel (Slot.Alike heap heap' related) slots[position]? slots'[position]? := by
  rw [← Array.getElem?_toList, ← Array.getElem?_toList]
  exact forall₂_getElem? alike position

theorem set {slot slot' : Slot V} (alike : SlotsAlike heap heap' related slots slots')
    (new : Slot.Alike heap heap' related slot slot') (position : Nat) :
    SlotsAlike heap heap' related (slots.setIfInBounds position slot)
      (slots'.setIfInBounds position slot') := by
  rw [SlotsAlike, Array.toList_setIfInBounds, Array.toList_setIfInBounds]
  exact forall₂_set alike new position

theorem replicate_empty (capacity : Nat) :
    SlotsAlike heap heap' related (Array.replicate capacity .empty)
      (Array.replicate capacity .empty) := by
  rw [SlotsAlike, Array.toList_replicate]
  induction capacity with
  | zero => exact .nil
  | succ capacity induction => exact .cons .empty induction

theorem placeFrom {slot slot' : Slot V} (alike : SlotsAlike heap heap' related slots slots')
    (new : Slot.Alike heap heap' related slot slot') (steps position : Nat) :
    SlotsAlike heap heap' related (placeFrom slot steps position slots)
      (placeFrom slot' steps position slots') := by
  induction steps generalizing position with
  | zero => exact alike
  | succ steps induction =>
      have here := alike.slot position
      simp only [ContentMap.placeFrom, alike.size_eq]
      generalize slots[position]? = found, slots'[position]? = found' at here ⊢
      cases here with
      | none => exact induction _
      | some same =>
          cases same with
          | empty => exact alike.set new position
          | tombstone => exact induction _
          | occupied content content' values => exact induction _

theorem place {slot slot' : Slot V} (alike : SlotsAlike heap heap' related slots slots')
    (new : Slot.Alike heap heap' related slot slot') :
    SlotsAlike heap heap' related (place slots slot) (place slots' slot') := by
  cases new with
  | empty => exact alike
  | tombstone => exact alike
  | occupied content content' values =>
      simp only [ContentMap.place, alike.size_eq]
      exact alike.placeFrom (.occupied content content' values) _ _

theorem foldl_place {added added' : List (Slot V)}
    (added_alike : List.Forall₂ (Slot.Alike heap heap' related) added added')
    (alike : SlotsAlike heap heap' related slots slots') :
    SlotsAlike heap heap' related (added.foldl ContentMap.place slots)
      (added'.foldl ContentMap.place slots') := by
  induction added_alike generalizing slots slots' with
  | nil => exact alike
  | cons here rest induction => exact induction (alike.place here)

end SlotsAlike

/-! ## Searching -/

/-- A search that finds the keys of a content and no others. -/
structure Sought.Seeks (heap : StringHeap) (bytes : List UInt8) (sought : Sought) : Prop where
  hash_eq : sought.hash = hashBytes bytes
  isAt_eq : ∀ key content, heap.bytes? key = some content →
    sought.isAt heap key (hashBytes content) = (content == bytes)

theorem seeks_ofBytes (heap : StringHeap) (bytes : List UInt8) :
    (Sought.ofBytes bytes).Seeks heap bytes where
  hash_eq := rfl
  isAt_eq key content live := by
    rw [Bool.eq_iff_iff, isAt_ofBytes_iff live, beq_iff_eq]

theorem seeks_ofString {ref : StringRef} {string : HeapString} (hashed : heap.Hashed)
    (live : heap.get? ref = some string) :
    (Sought.ofString ref string).Seeks heap string.bytes where
  hash_eq := hashed ref string live
  isAt_eq key content content_eq := by
    have hash_eq : string.hash = hashBytes string.bytes := hashed ref string live
    rw [Bool.eq_iff_iff, beq_iff_eq]
    by_cases same : ref = key
    · subst same
      have bytes_eq : content = string.bytes := by
        simpa [StringHeap.bytes?, live] using content_eq.symm
      simp [Sought.isAt, Sought.ofString, bytes_eq]
    · rw [← isAt_ofBytes_iff content_eq]
      simp [Sought.isAt, Sought.ofString, Sought.ofBytes, hash_eq, same]

theorem probeFrom_eq_of_alike {slots slots' : Array (Slot V)} {sought sought' : Sought}
    {bytes : List UInt8} (alike : SlotsAlike heap heap' related slots slots')
    (seeks : sought.Seeks heap bytes) (seeks' : sought'.Seeks heap' bytes)
    (steps position : Nat) (reusable : Option Nat) :
    probeFrom heap sought slots steps position reusable =
      probeFrom heap' sought' slots' steps position reusable := by
  induction steps generalizing position reusable with
  | zero => rfl
  | succ steps induction =>
      have here := alike.slot position
      simp only [probeFrom, alike.size_eq]
      generalize slots[position]? = found, slots'[position]? = found' at here ⊢
      cases here with
      | none => rfl
      | some same =>
          cases same with
          | empty => rfl
          | tombstone => exact induction _ _
          | occupied content content' values =>
              simp only [seeks.isAt_eq _ _ content, seeks'.isAt_eq _ _ content', induction]

/-! ## Maps -/

/-- Maps that agree slot by slot. -/
structure Alike (heap heap' : StringHeap) (related : V → V → Prop) (map map' : ContentMap V) :
    Prop where
  slots : SlotsAlike heap heap' related map.slots map'.slots
  size_eq : map.size = map'.size
  tombstones_eq : map.tombstones = map'.tombstones

namespace Alike

variable {map map' : ContentMap V}

theorem empty : Alike heap heap' related ({} : ContentMap V) {} :=
  ⟨.nil, rfl, rfl⟩

theorem symm {related' : V → V → Prop} (alike : Alike heap heap' related map map')
    (flipped : ∀ value value', related value value' → related' value' value) :
    Alike heap' heap related' map' map := by
  refine ⟨?_, alike.size_eq.symm, alike.tombstones_eq.symm⟩
  exact List.Forall₂.flip (alike.slots.imp fun slot slot' same => same.symm flipped)

theorem of_heap {later : StringHeap} {related' : V → V → Prop}
    (alike : Alike heap heap' related map map')
    (kept : ∀ entry ∈ map.entries, ∀ bytes, heap.bytes? entry.1 = some bytes →
      later.bytes? entry.1 = some bytes)
    (weaker : ∀ entry ∈ map.entries, ∀ value', related entry.2 value' → related' entry.2 value') :
    Alike later heap' related' map map' := by
  refine ⟨forall₂_imp_of_mem alike.slots fun slot member slot' same => ?_, alike.size_eq,
    alike.tombstones_eq⟩
  have stored : ∀ entry ∈ slot.entry?, entry ∈ map.entries :=
    fun entry found => List.mem_filterMap.mpr ⟨slot, member, found⟩
  exact same.of_heap (fun entry found => kept entry (stored entry found))
    fun entry found => weaker entry (stored entry found)

theorem capacity_eq (alike : Alike heap heap' related map map') : map.capacity = map'.capacity :=
  alike.slots.size_eq

/-! ### Looking up -/

theorem probe_eq {sought sought' : Sought} {bytes : List UInt8}
    (alike : Alike heap heap' related map map') (seeks : sought.Seeks heap bytes)
    (seeks' : sought'.Seeks heap' bytes) : map.probe heap sought = map'.probe heap' sought' := by
  rw [probe, probe, seeks.hash_eq, seeks'.hash_eq, alike.capacity_eq]
  exact probeFrom_eq_of_alike alike.slots seeks seeks' _ _ _

theorem entryAt (alike : Alike heap heap' related map map') (position : Nat) :
    Option.Rel (fun entry entry' => heap.SameContent heap' entry.1 entry'.1 ∧
      related entry.2 entry'.2) (map.entryAt? position) (map'.entryAt? position) := by
  have here := alike.slots.slot position
  simp only [entryAt?]
  generalize map.slots[position]? = found, map'.slots[position]? = found' at here ⊢
  cases here with
  | none => exact .none
  | some same =>
      cases same with
      | empty => exact .none
      | tombstone => exact .none
      | occupied content content' values => exact .some ⟨⟨_, content, content'⟩, values⟩

theorem entry {sought sought' : Sought} {bytes : List UInt8}
    (alike : Alike heap heap' related map map') (seeks : sought.Seeks heap bytes)
    (seeks' : sought'.Seeks heap' bytes) :
    Option.Rel (fun entry entry' => heap.SameContent heap' entry.1 entry'.1 ∧
      related entry.2 entry'.2) (map.entry? heap sought) (map'.entry? heap' sought') := by
  simp only [position?, entry?, alike.probe_eq seeks seeks']
  cases map'.probe heap' sought' with
  | found position => exact alike.entryAt position
  | vacant position => exact .none

theorem getBytes (alike : Alike heap heap' related map map') (bytes : List UInt8) :
    Option.Rel related (map.getBytes? heap bytes) (map'.getBytes? heap' bytes) := by
  have here := alike.entry (seeks_ofBytes heap bytes) (seeks_ofBytes heap' bytes)
  simp only [getBytes?]
  generalize map.entry? heap _ = found, map'.entry? heap' _ = found' at here ⊢
  cases here with
  | none => exact .none
  | some same => exact .some same.2

theorem keyOfBytes (alike : Alike heap heap' related map map') (bytes : List UInt8) :
    Option.Rel (heap.SameContent heap') (map.keyOfBytes? heap bytes)
      (map'.keyOfBytes? heap' bytes) := by
  have here := alike.entry (seeks_ofBytes heap bytes) (seeks_ofBytes heap' bytes)
  simp only [keyOfBytes?]
  generalize map.entry? heap _ = found, map'.entry? heap' _ = found' at here ⊢
  cases here with
  | none => exact .none
  | some same => exact .some same.1

theorem get {key key' : StringRef} (alike : Alike heap heap' related map map')
    (hashed : heap.Hashed) (hashed' : heap'.Hashed) (same : heap.SameContent heap' key key') :
    Option.Rel related (map.get? heap key) (map'.get? heap' key') := by
  obtain ⟨bytes, content, content'⟩ := same
  obtain ⟨string, live, rfl⟩ := Option.map_eq_some_iff.mp content
  obtain ⟨string', live', bytes_eq⟩ := Option.map_eq_some_iff.mp content'
  have here := alike.entry (seeks_ofString hashed live) (bytes_eq ▸ seeks_ofString hashed' live')
  simp only [get?, live, live', Option.bind_some]
  generalize map.entry? heap _ = found, map'.entry? heap' _ = found' at here ⊢
  cases here with
  | none => exact .none
  | some same => exact .some same.2

/-! ### Storing -/

theorem resize (alike : Alike heap heap' related map map') (capacity : Nat) :
    Alike heap heap' related (map.resize capacity) (map'.resize capacity) := by
  refine ⟨?_, alike.size_eq, rfl⟩
  rw [ContentMap.resize, ContentMap.resize, ← Array.foldl_toList, ← Array.foldl_toList]
  exact SlotsAlike.foldl_place alike.slots (.replicate_empty capacity)

theorem prepared (alike : Alike heap heap' related map map') :
    Alike heap heap' related map.prepared map'.prepared := by
  have unused_eq : map.slots.isEmpty = map'.slots.isEmpty := by
    simp only [Array.isEmpty, alike.slots.size_eq]
  simp only [ContentMap.prepared, unused_eq]
  split
  · exact alike.resize _
  · exact alike

theorem grow (alike : Alike heap heap' related map map') :
    Alike heap heap' related map.grow map'.grow := by
  simp only [ContentMap.grow, alike.size_eq, alike.tombstones_eq, alike.capacity_eq]
  exact alike.resize _

theorem replaceAt {value value' : V} (alike : Alike heap heap' related map map') (position : Nat)
    (values : related value value') :
    Alike heap heap' related (map.replaceAt position value).2
      (map'.replaceAt position value').2 := by
  have here := alike.slots.slot position
  simp only [ContentMap.replaceAt]
  generalize map.slots[position]? = found, map'.slots[position]? = found' at here ⊢
  cases here with
  | none => exact alike
  | some same =>
      cases same with
      | empty => exact alike
      | tombstone => exact alike
      | occupied content content' old =>
          exact ⟨alike.slots.set (.occupied content content' values) position, alike.size_eq,
            alike.tombstones_eq⟩

theorem fill {key key' : StringRef} {bytes : List UInt8} {value value' : V}
    (alike : Alike heap heap' related map map') (position : Nat)
    (content : heap.bytes? key = some bytes) (content' : heap'.bytes? key' = some bytes)
    (values : related value value') :
    Alike heap heap' related (map.fill position key (hashBytes bytes) value)
      (map'.fill position key' (hashBytes bytes) value') := by
  refine ⟨alike.slots.set (.occupied content content' values) position,
    congrArg (· + 1) alike.size_eq, ?_⟩
  have here := alike.slots.slot position
  simp only [ContentMap.fill, alike.tombstones_eq]
  generalize map.slots[position]? = found, map'.slots[position]? = found' at here ⊢
  cases here with
  | none => rfl
  | some same => cases same <;> rfl

theorem insertAt {key key' : StringRef} {bytes : List UInt8} {value value' : V}
    (alike : Alike heap heap' related map map') (position : Nat)
    (content : heap.bytes? key = some bytes) (content' : heap'.bytes? key' = some bytes)
    (values : related value value') :
    Alike heap heap' related (map.insertAt position key (hashBytes bytes) value)
      (map'.insertAt position key' (hashBytes bytes) value') := by
  have filled := alike.fill position content content' values
  have crowded_eq : (map.fill position key (hashBytes bytes) value).isCrowded =
      (map'.fill position key' (hashBytes bytes) value').isCrowded := by
    simp only [isCrowded, filled.capacity_eq, filled.size_eq, filled.tombstones_eq]
  rw [insertAt_eq, insertAt_eq, crowded_eq]
  split
  · exact filled.grow
  · exact filled

/-- Storing under keys of one content leaves the maps alike. -/
theorem put {key key' : StringRef} {value value' : V} (alike : Alike heap heap' related map map')
    (hashed : heap.Hashed) (hashed' : heap'.Hashed) (same : heap.SameContent heap' key key')
    (values : related value value') :
    ResultsAgree (fun stored stored' => Alike heap heap' related stored.2 stored'.2)
      (map.put heap key value) (map'.put heap' key' value') := by
  obtain ⟨bytes, content, content'⟩ := same
  obtain ⟨string, live, rfl⟩ := Option.map_eq_some_iff.mp content
  obtain ⟨string', live', bytes_eq⟩ := Option.map_eq_some_iff.mp content'
  have probe_eq := alike.prepared.probe_eq (seeks_ofString hashed live)
    (bytes_eq ▸ seeks_ofString hashed' live')
  have hash_eq : string.hash = hashBytes string.bytes := hashed key string live
  have hash_eq' : string'.hash = hashBytes string.bytes := bytes_eq ▸ hashed' key' string' live'
  simp only [ContentMap.put, live, live', probe_eq, hash_eq, hash_eq']
  cases map'.prepared.probe heap' (Sought.ofString key' string') with
  | found position => exact .ok (alike.prepared.replaceAt position values)
  | vacant position => exact .ok (alike.prepared.insertAt position content content' values)

/-- The entries agree in order. -/
theorem entries (alike : Alike heap heap' related map map') :
    List.Forall₂ (fun entry entry' => heap.SameContent heap' entry.1 entry'.1 ∧
      related entry.2 entry'.2) map.entries map'.entries := by
  have slots := alike.slots
  simp only [ContentMap.entries]
  rw [SlotsAlike] at slots
  generalize map.slots.toList = list, map'.slots.toList = list' at slots ⊢
  induction slots with
  | nil => exact .nil
  | cons here rest induction =>
      cases here with
      | empty => exact induction
      | tombstone => exact induction
      | occupied content content' values =>
          exact .cons ⟨⟨_, content, content'⟩, values⟩ induction

end Alike

end ContentMap

end StackMachine
