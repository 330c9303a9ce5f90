import StackMachine.HandleTable

/-!
# Slots

The value of a handle lies in a slot. A slot whose value is gone is taken again before there is a
new one, the slot vacated last first, so that a slot has many handles in the course of time, the
newest with the greatest number. A table that is kept beside the values has one place for each slot.
The newest handle that was entered has the place: an older one loses it, and cannot get it back
before the newer one gives it up.
-/

namespace StackMachine

/-- The slots that were handed out with handles. -/
structure Slots where
  /-- The slot of each handle given out, by the number of the handle. -/
  given : Array Nat := #[]
  /-- The slots whose value is gone, the one vacated last first. -/
  vacant : List Nat := []
  /-- The number of slots. -/
  count : Nat := 0
deriving Repr

namespace Slots

/-- The slot of a handle that was given out. -/
def slotOf (slots : Slots) (number : Nat) : Nat :=
  slots.given.getD number 0

/-- The slot that the next handle gets. -/
def next (slots : Slots) : Nat :=
  slots.vacant.headD slots.count

/-- Gives out one more handle with its slot. -/
def take : Slots → Slots
  | ⟨given, [], count⟩ => ⟨given.push count, [], count + 1⟩
  | ⟨given, slot :: rest, count⟩ => ⟨given.push slot, rest, count⟩

/-- Makes the slot of a handle free to be taken again. -/
def vacate (slots : Slots) (number : Nat) : Slots :=
  { slots with vacant := slots.slotOf number :: slots.vacant }

@[simp]
theorem given_take (slots : Slots) : slots.take.given = slots.given.push slots.next := by
  rcases slots with ⟨given, _ | ⟨slot, rest⟩, count⟩ <;> rfl

@[simp]
theorem vacant_take (slots : Slots) : slots.take.vacant = slots.vacant.tail := by
  rcases slots with ⟨given, _ | ⟨slot, rest⟩, count⟩ <;> rfl

theorem count_le_take (slots : Slots) : slots.count ≤ slots.take.count := by
  rcases slots with ⟨given, _ | ⟨slot, rest⟩, count⟩
  · exact Nat.le_succ _
  · exact Nat.le_refl _

theorem next_lt_take {slots : Slots} (vacant : ∀ slot ∈ slots.vacant, slot < slots.count) :
    slots.next < slots.take.count := by
  rcases slots with ⟨given, _ | ⟨slot, rest⟩, count⟩
  · exact Nat.lt_succ_self _
  · exact vacant slot List.mem_cons_self

@[simp]
theorem given_vacate (slots : Slots) (number : Nat) :
    (slots.vacate number).given = slots.given :=
  rfl

end Slots

/-- Who has the place of a slot, and with which position. -/
structure Place where
  /-- The number of the handle. -/
  number : Nat
  /-- The position. -/
  position : Nat
deriving DecidableEq, Repr

/-- Positions of handles, with one place for each slot. -/
structure SlotIndex where
  /-- The slot of each handle that was entered at any time. -/
  slots : HandleTable Nat := {}
  /-- The place of each slot that has one. -/
  places : HandleTable Place := {}
  /-- A handle has no place but that of its slot. -/
  seated : ∀ slot place, places.get? slot = some place →
    slots.get? place.number = some slot := by simp
deriving Repr

namespace SlotIndex

/-- The position of a handle, unless it has lost its place. -/
def get? (index : SlotIndex) (number : Nat) : Option Nat :=
  (index.slots.get? number).bind fun slot =>
    (index.places.get? slot).bind fun place =>
      if place.number = number then some place.position else none

/-- Whether a handle has a position. -/
def contains (index : SlotIndex) (number : Nat) : Bool :=
  (index.get? number).isSome

/-- The index once it knows the slot of a handle. -/
def note (index : SlotIndex) (number slot : Nat) : SlotIndex :=
  if unknown : index.slots.get? number = none then { index with
    slots := index.slots.insert number slot
    seated := by
      intro other place there
      have known := index.seated other place there
      rw [HandleTable.get?_insert, if_neg, known]
      intro same
      rw [same, unknown] at known
      cases known }
  else index

/-- Gives a handle whose slot is known a position, unless a newer handle has the place. -/
def enter (index : SlotIndex) (number position : Nat) : SlotIndex :=
  match known : index.slots.get? number with
  | none => index
  | some slot =>
    if (index.places.get? slot).any fun place => number < place.number then index
    else { index with
      places := index.places.insert slot ⟨number, position⟩
      seated := by
        intro other place there
        rw [HandleTable.get?_insert] at there
        split at there
        · cases there
          rename_i same
          rw [same, known]
        · exact index.seated other place there }

/-- The index without a position for a handle. -/
def erase (index : SlotIndex) (number : Nat) : SlotIndex :=
  match index.get? number, index.slots.get? number with
  | some _, some slot => { index with
      places := index.places.erase slot
      seated := by
        intro other place there
        rw [HandleTable.get?_erase] at there
        split at there
        · cases there
        · exact index.seated other place there }
  | _, _ => index

/-- The index without any positions. -/
def clear (index : SlotIndex) : SlotIndex :=
  { index with places := {}, seated := by simp }

variable {index : SlotIndex} {number other slot position place : Nat}

theorem get?_eq_some_iff :
    index.get? number = some position ↔
      ∃ slot, index.slots.get? number = some slot ∧
        index.places.get? slot = some ⟨number, position⟩ := by
  simp only [get?, Option.bind_eq_some_iff, Option.ite_none_right_eq_some, Option.some.injEq]
  constructor
  · rintro ⟨slot, known, ⟨_, _⟩, there, rfl, rfl⟩
    exact ⟨slot, known, there⟩
  · rintro ⟨slot, known, there⟩
    exact ⟨slot, known, _, there, rfl, rfl⟩

/-- Two handles in one slot have no positions at the same time. -/
theorem eq_of_slots_eq (found : index.get? number = some position)
    (found' : index.get? other = some place)
    (same : index.slots.get? number = index.slots.get? other) : number = other := by
  obtain ⟨slot, known, there⟩ := get?_eq_some_iff.mp found
  obtain ⟨_, known', there'⟩ := get?_eq_some_iff.mp found'
  cases known.symm.trans (same.trans known')
  cases there.symm.trans there'
  rfl

@[simp]
theorem get?_clear (index : SlotIndex) (number : Nat) : index.clear.get? number = none := by
  simp [get?, clear]

@[simp]
theorem slots_clear (index : SlotIndex) : index.clear.slots = index.slots :=
  rfl

@[simp]
theorem slots_enter (index : SlotIndex) (number position : Nat) :
    (index.enter number position).slots = index.slots := by
  unfold enter
  split
  · rfl
  · split <;> rfl

@[simp]
theorem slots_erase (index : SlotIndex) (number : Nat) :
    (index.erase number).slots = index.slots := by
  unfold erase
  split <;> rfl

theorem get?_erase (index : SlotIndex) (number other : Nat) :
    (index.erase number).get? other = if other = number then none else index.get? other := by
  unfold erase
  split
  · rename_i slot found known
    obtain ⟨_, known', there⟩ := get?_eq_some_iff.mp found
    cases known.symm.trans known'
    simp only [get?, HandleTable.get?_erase]
    grind
  · rename_i missing
    split
    · rename_i same
      subst same
      refine Option.eq_none_iff_forall_ne_some.mpr fun position found => ?_
      obtain ⟨slot, known, _⟩ := get?_eq_some_iff.mp found
      exact missing _ _ found known
    · rfl

theorem slots_note (index : SlotIndex) (number slot other : Nat) :
    (index.note number slot).slots.get? other =
      if other = number then some ((index.slots.get? number).getD slot)
      else index.slots.get? other := by
  unfold note
  split
  · rename_i unknown
    rw [HandleTable.get?_insert, unknown, Option.getD_none]
  · split
    · rename_i known same
      obtain ⟨slot, known⟩ := Option.ne_none_iff_exists'.mp known
      rw [same, known, Option.getD_some]
    · rfl

theorem slots_note_self
    (agreed : ∀ noted, index.slots.get? number = some noted → noted = slot) :
    (index.note number slot).slots.get? number = some slot := by
  rw [slots_note, if_pos rfl]
  cases known : index.slots.get? number with
  | none => rfl
  | some noted => rw [Option.getD_some, agreed noted known]

theorem slots_note_of_known {noted : Nat} (known : index.slots.get? other = some noted)
    (number slot : Nat) : (index.note number slot).slots.get? other = index.slots.get? other := by
  rw [slots_note]
  split
  · rename_i same
    rw [← same, known, Option.getD_some]
  · rfl

/-- Knowing slots gives no handle a position. -/
@[simp]
theorem get?_note (index : SlotIndex) (number slot other : Nat) :
    (index.note number slot).get? other = index.get? other := by
  unfold note
  split
  · rename_i unknown
    simp only [get?, HandleTable.get?_insert]
    split
    · rename_i same
      rw [same, unknown, Option.bind_none, Option.bind_some]
      refine Option.eq_none_iff_forall_ne_some.mpr fun position found => ?_
      obtain ⟨place, there, holds⟩ := Option.bind_eq_some_iff.mp found
      have known := index.seated slot place there
      grind
    · rfl
  · rfl

/-- A handle that is entered takes the place of its slot, unless a newer one has it. -/
theorem get?_enter (known : index.slots.get? number = some slot) (position other : Nat) :
    (index.enter number position).get? other =
      if (index.places.get? slot).any (number < ·.number) then index.get? other
      else if other = number then some position
      else if index.slots.get? other = some slot then none
      else index.get? other := by
  unfold enter
  split
  · rename_i unknown
    cases known.symm.trans unknown
  · rename_i slot' known'
    cases known.symm.trans known'
    split
    · rfl
    · simp only [get?, HandleTable.get?_insert]
      by_cases same : other = number
      · simp [same, known]
      · cases index.slots.get? other <;> grind

/-- Entering a handle gives a position to no other. -/
theorem eq_or_get?_of_get?_enter (found : (index.enter number position).get? other = some place) :
    other = number ∧ place = position ∨ index.get? other = some place := by
  cases known : index.slots.get? number with
  | none =>
      unfold enter at found
      split at found
      · exact .inr found
      · rename_i slot known'
        cases known.symm.trans known'
  | some slot =>
      rw [get?_enter known] at found
      grind

/-- Only an older handle in the same slot loses its place when a handle is entered. -/
theorem get?_enter_of_spared (found : index.get? other = some place) (differ : other ≠ number)
    (spared : index.slots.get? other = index.slots.get? number → ¬ other < number) :
    (index.enter number position).get? other = some place := by
  cases known : index.slots.get? number with
  | none =>
      unfold enter
      split
      · exact found
      · rename_i slot known'
        cases known.symm.trans known'
  | some slot =>
      rw [get?_enter known, if_neg differ]
      split
      · exact found
      · rename_i vacant
        split
        · rename_i same
          obtain ⟨slot', known', there⟩ := get?_eq_some_iff.mp found
          cases known'.symm.trans same
          have older := spared (same.trans known.symm)
          simp only [there, Option.any_some, decide_eq_true_eq] at vacant
          omega
        · exact found

/-- A handle is entered when no newer one has the place. -/
theorem get?_enter_self (known : index.slots.get? number = some slot)
    (newest : ∀ other place, index.get? other = some place →
      index.slots.get? other = some slot → other ≤ number) (position : Nat) :
    (index.enter number position).get? number = some position := by
  rw [get?_enter known, if_neg, if_pos rfl]
  intro newer
  obtain ⟨place, there, later⟩ := (Option.any_eq_true _ _).mp newer
  have seated := index.seated slot place there
  have older := newest _ _ (get?_eq_some_iff.mpr ⟨slot, seated, there⟩) seated
  exact absurd older (Nat.not_le_of_lt (of_decide_eq_true later))

/-- A handle that has a position can be given another one. -/
theorem get?_enter_of_get? (found : index.get? number = some place) (position : Nat) :
    (index.enter number position).get? number = some position := by
  obtain ⟨slot, known, _⟩ := get?_eq_some_iff.mp found
  refine get?_enter_self known (fun other place' found' same => ?_) position
  exact Nat.le_of_eq (eq_of_slots_eq found' found (same.trans known.symm))

end SlotIndex

end StackMachine
