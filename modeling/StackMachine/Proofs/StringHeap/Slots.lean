import StackMachine.Proofs.StringHeap

/-!
# The slots of strings

Strings that are live at the same time lie in different slots.  A slot is taken again only after its
string was freed, so that among the handles with one slot none but the newest can be live, and none
is live while the slot is vacant.
-/

namespace StackMachine

namespace StringHeap

/-- In each slot no handle but the newest is live, and none is while the slot is vacant. -/
structure Slotted (heap : StringHeap) : Prop where
  given_lt : ∀ ref : StringRef, ref.id < heap.strings.next → heap.slotOf ref < heap.slots.count
  vacant_lt : ∀ slot ∈ heap.slots.vacant, slot < heap.slots.count
  nodup : heap.slots.vacant.Nodup
  occupied : ∀ ref, heap.Live ref → heap.slotOf ref ∉ heap.slots.vacant
  newest : ∀ older newer : StringRef, newer.id < heap.strings.next →
    heap.slotOf older = heap.slotOf newer → older.id < newer.id → ¬ heap.Live older

variable {heap : StringHeap}

theorem Live.lt_next {ref : StringRef} (live : heap.Live ref) : ref.id < heap.strings.next :=
  live.elim fun _ => lt_next_of_bytes?

theorem live_store_iff {bytes : List UInt8} {ref : StringRef} :
    (heap.store bytes).Live ref ↔ ref = heap.nextRef ∨ heap.Live ref := by
  unfold Live
  rw [bytes?_store]
  split <;> simp [*]

theorem live_free_iff {freed ref : StringRef} :
    (heap.free freed).2.Live ref ↔ ref ≠ freed ∧ heap.Live ref := by
  unfold Live
  rw [bytes?_free]
  split <;> simp [*]

/-- A string that was there before the newest one is older. -/
theorem lt_next_of_lt_next_store {bytes : List UInt8} {ref : StringRef}
    (inside : ref.id < (heap.store bytes).strings.next) (other : ref ≠ heap.nextRef) :
    ref.id < heap.strings.next := by
  have next_eq : (heap.store bytes).strings.next = heap.strings.next + 1 :=
    HandleTable.next_append _ _
  have differ : ref.id ≠ heap.strings.next := fun same => other (StringRef.ext same)
  omega

theorem vacant_store (bytes : List UInt8) :
    (heap.store bytes).slots.vacant = heap.slots.vacant.tail :=
  Slots.vacant_take heap.slots

theorem slotted_empty : Slotted {} where
  given_lt _ inside := absurd inside (Nat.not_lt_zero _)
  vacant_lt _ member := absurd member List.not_mem_nil
  nodup := .nil
  occupied _ _ := List.not_mem_nil
  newest _ _ inside := absurd inside (Nat.not_lt_zero _)

namespace Slotted

/-- A new string lies in a slot of which no live string has the use. -/
theorem nextSlot_ne (slotted : heap.Slotted) {ref : StringRef} (live : heap.Live ref) :
    heap.slotOf ref ≠ heap.nextSlot := by
  have occupied := slotted.occupied ref live
  have inside := slotted.given_lt ref live.lt_next
  rw [nextSlot, Slots.next]
  cases vacant : heap.slots.vacant with
  | nil => exact Nat.ne_of_lt inside
  | cons slot rest =>
      rintro same
      rw [vacant, same] at occupied
      exact occupied List.mem_cons_self

/-- The slot of a new string is vacant no more. -/
theorem nextSlot_notMem (slotted : heap.Slotted) (bytes : List UInt8) :
    heap.nextSlot ∉ (heap.store bytes).slots.vacant := by
  have nodup := slotted.nodup
  rw [vacant_store, nextSlot, Slots.next]
  cases vacant : heap.slots.vacant with
  | nil => exact List.not_mem_nil
  | cons slot rest =>
      rw [vacant, List.nodup_cons] at nodup
      exact nodup.1

theorem store (slotted : heap.Slotted) (bytes : List UInt8) : (heap.store bytes).Slotted := by
  have count_le : heap.slots.count ≤ (heap.store bytes).slots.count := heap.slots.count_le_take
  refine
    { given_lt := fun ref inside => ?_
      vacant_lt := fun slot member => ?_
      nodup := ?_
      occupied := fun ref live => ?_
      newest := fun older newer inside same before live => ?_ }
  · rw [slotOf_store]
    split
    · exact Slots.next_lt_take slotted.vacant_lt
    · rename_i other
      have known := lt_next_of_lt_next_store inside other
      exact Nat.lt_of_lt_of_le (slotted.given_lt ref known) count_le
  · rw [vacant_store] at member
    exact Nat.lt_of_lt_of_le (slotted.vacant_lt slot (List.mem_of_mem_tail member)) count_le
  · rw [vacant_store]
    exact slotted.nodup.sublist (List.tail_sublist _)
  · rw [slotOf_store]
    split
    · exact slotted.nextSlot_notMem bytes
    · rename_i other
      have still := slotted.occupied ref ((live_store_iff.mp live).resolve_left other)
      rw [vacant_store]
      exact fun member => still (List.mem_of_mem_tail member)
  · have other : older ≠ heap.nextRef := by
      rintro rfl
      have differ : newer ≠ heap.nextRef := by
        rintro rfl
        exact absurd before (Nat.lt_irrefl _)
      exact Nat.lt_asymm before (lt_next_of_lt_next_store inside differ)
    have live := (live_store_iff.mp live).resolve_left other
    rw [slotOf_store, slotOf_store, if_neg other] at same
    split at same
    · exact slotted.nextSlot_ne live same
    · rename_i not_next
      have known := lt_next_of_lt_next_store inside not_next
      exact slotted.newest older newer known same before live

/-- Live strings are told apart by their slots. -/
theorem eq_of_slotOf_eq (slotted : heap.Slotted) {ref other : StringRef} (live : heap.Live ref)
    (live' : heap.Live other) (same : heap.slotOf ref = heap.slotOf other) : ref = other := by
  rcases Nat.lt_trichotomy ref.id other.id with older | equal | newer
  · exact absurd live (slotted.newest ref other live'.lt_next same older)
  · exact StringRef.ext equal
  · exact absurd live' (slotted.newest other ref live.lt_next same.symm newer)

theorem free (slotted : heap.Slotted) (freed : StringRef) : (heap.free freed).2.Slotted := by
  cases found : heap.get? freed with
  | none =>
      rw [StringHeap.free, found]
      exact slotted
  | some string =>
      have live : heap.Live freed := ⟨string.bytes, by rw [bytes?, found, Option.map_some]⟩
      have slots_eq : (heap.free freed).2.slots = heap.slots.vacate freed.id := by
        rw [StringHeap.free, found]
      have vacant_eq : (heap.free freed).2.slots.vacant =
          heap.slotOf freed :: heap.slots.vacant := by
        rw [slots_eq]
        rfl
      refine
        { given_lt := fun ref inside => ?_
          vacant_lt := fun slot member => ?_
          nodup := ?_
          occupied := fun ref other => ?_
          newest := fun older newer inside same before other => ?_ }
      · rw [next_free] at inside
        rw [slotOf_free, slots_eq]
        exact slotted.given_lt ref inside
      · rw [slots_eq]
        rw [vacant_eq] at member
        rcases List.mem_cons.mp member with rfl | before
        · exact slotted.given_lt freed live.lt_next
        · exact slotted.vacant_lt slot before
      · rw [vacant_eq]
        exact List.nodup_cons.mpr ⟨slotted.occupied freed live, slotted.nodup⟩
      · obtain ⟨different, still⟩ := live_free_iff.mp other
        rw [vacant_eq, slotOf_free, List.mem_cons, not_or]
        exact ⟨mt (slotted.eq_of_slotOf_eq still live) different, slotted.occupied ref still⟩
      · rw [next_free] at inside
        rw [slotOf_free, slotOf_free] at same
        exact slotted.newest older newer inside same before (live_free_iff.mp other).2

end Slotted

end StringHeap

end StackMachine
