import StackMachine.ContentMap
import Mathlib.Data.Nat.ModEq

/-!
# Probing

A search walks around the table from the home of a hash.  `Leads` says what it finds when there is
an empty slot on the way: the first slot that holds the key, or, before the first empty slot, a
place to insert it.  Placing an entry in a new table walks the same path.
-/

namespace StackMachine

namespace ContentMap

variable {V : Type}

/-! ## Paths around the table -/

/-- The position a number of steps after a home. -/
def after (slots : Array (Slot V)) (home steps : Nat) : Nat :=
  (home + steps) % slots.size

/-- The slot a number of steps after a home. -/
def slotAfter (slots : Array (Slot V)) (home steps : Nat) : Option (Slot V) :=
  slots[after slots home steps]?

theorem after_succ (slots : Array (Slot V)) (home steps : Nat) :
    (after slots home steps + 1) % slots.size = after slots home (steps + 1) := by
  rw [after, after, Nat.mod_add_mod, Nat.add_assoc]

theorem after_mod_zero (slots : Array (Slot V)) (home : Nat) :
    after slots (home % slots.size) 0 = home % slots.size := by
  rw [after, Nat.add_zero, Nat.mod_mod]

/-- A path from any home goes through the whole table. -/
theorem exists_after_eq {slots : Array (Slot V)} {position : Nat} (home : Nat)
    (inside : position < slots.size) :
    ∃ steps < slots.size, after slots home steps = position := by
  have start : home % slots.size < slots.size := Nat.mod_lt _ (by omega)
  by_cases ahead : home % slots.size ≤ position
  · refine ⟨position - home % slots.size, by omega, ?_⟩
    rw [after, ← Nat.mod_add_mod, Nat.add_sub_cancel' ahead, Nat.mod_eq_of_lt inside]
  · refine ⟨position + slots.size - home % slots.size, by omega, ?_⟩
    rw [after, ← Nat.mod_add_mod, Nat.add_sub_cancel' (by omega), Nat.add_mod_right,
      Nat.mod_eq_of_lt inside]

/-- Tables with an empty slot. -/
def HasRoom (slots : Array (Slot V)) : Prop :=
  ∃ position : Nat, slots[position]? = some .empty

theorem HasRoom.exists_slotAfter {slots : Array (Slot V)} (room : HasRoom slots) (home : Nat) :
    ∃ steps < slots.size, slotAfter slots home steps = some .empty := by
  obtain ⟨position, vacant⟩ := room
  obtain ⟨inside, _⟩ := Array.getElem?_eq_some_iff.mp vacant
  obtain ⟨steps, below, position_eq⟩ := exists_after_eq home inside
  exact ⟨steps, below, by rw [slotAfter, position_eq, vacant]⟩

/-! ## Searching -/

/-- Slots that a search for a key goes past. -/
def Passed (heap : StringHeap) (sought : Sought) : Option (Slot V) → Prop
  | some .tombstone => True
  | some (.occupied key hash _) => sought.isAt heap key hash = false
  | _ => False

/-- The outcomes of a search from a home. -/
inductive Leads (heap : StringHeap) (sought : Sought) (slots : Array (Slot V)) (home : Nat) :
    Probe → Prop
  /-- The first slot on the path that is not passed holds the key. -/
  | found {steps : Nat} {key : StringRef} {hash : UInt32} {value : V} (below : steps < slots.size)
      (passed : ∀ earlier < steps, Passed heap sought (slotAfter slots home earlier))
      (occupied : slotAfter slots home steps = some (.occupied key hash value))
      (here : sought.isAt heap key hash = true) :
      Leads heap sought slots home (.found (after slots home steps))
  /-- The first slot on the path that is not passed is empty; it, or a tombstone before it, is
  chosen. -/
  | vacant {steps chosen : Nat} (below : steps < slots.size)
      (passed : ∀ earlier < steps, Passed heap sought (slotAfter slots home earlier))
      (ended : slotAfter slots home steps = some .empty) (within : chosen ≤ steps)
      (free : slotAfter slots home chosen = some .empty ∨
        slotAfter slots home chosen = some .tombstone) :
      Leads heap sought slots home (.vacant (after slots home chosen))

theorem leads_probeFrom {heap : StringHeap} {sought : Sought} {slots : Array (Slot V)} {home : Nat}
    (room : HasRoom slots) (steps taken : Nat) (reusable : Option Nat)
    (total : taken + steps = slots.size)
    (passed : ∀ earlier < taken, Passed heap sought (slotAfter slots home earlier))
    (reused : ∀ position ∈ reusable, ∃ chosen < taken,
      position = after slots home chosen ∧ slotAfter slots home chosen = some .tombstone) :
    Leads heap sought slots home
      (probeFrom heap sought slots steps (after slots home taken) reusable) := by
  induction steps generalizing taken reusable with
  | zero =>
      obtain ⟨empty, below, ended⟩ := room.exists_slotAfter home
      have impossible := passed empty (by omega)
      rw [ended] at impossible
      exact impossible.elim
  | succ steps induction =>
      -- Once the slot here is passed, the search goes on one step further.
      have continued (next : Option Nat)
          (here : Passed heap sought (slotAfter slots home taken))
          (known : ∀ position ∈ next, ∃ chosen < taken + 1,
            position = after slots home chosen ∧ slotAfter slots home chosen = some .tombstone) :
          Leads heap sought slots home (probeFrom heap sought slots steps
            ((after slots home taken + 1) % slots.size) next) := by
        rw [after_succ]
        refine induction (taken + 1) next (by omega) (fun earlier below => ?_) known
        rcases Nat.lt_succ_iff_lt_or_eq.mp below with before | rfl
        · exact passed earlier before
        · exact here
      have kept : ∀ position ∈ reusable, ∃ chosen < taken + 1,
          position = after slots home chosen ∧ slotAfter slots home chosen = some .tombstone := by
        intro position member
        obtain ⟨chosen, below, chosen_eq⟩ := reused position member
        exact ⟨chosen, by omega, chosen_eq⟩
      simp only [probeFrom]
      split
      · rename_i key hash value occupied
        split
        · rename_i here
          exact .found (by omega) passed occupied here
        · rename_i other
          exact continued reusable (by simpa [slotAfter, occupied, Passed] using other) kept
      · rename_i tombstone
        refine continued _ (by simp [slotAfter, tombstone, Passed]) fun position member => ?_
        cases reusable with
        | some earlier => exact kept position member
        | none =>
            cases member
            exact ⟨taken, Nat.lt_succ_self taken, rfl, tombstone⟩
      · rename_i not_occupied not_tombstone
        have inside : after slots home taken < slots.size := Nat.mod_lt _ (by omega)
        have ended : slotAfter slots home taken = some .empty := by
          cases slot : slots[after slots home taken]? with
          | none => exact absurd (Array.getElem?_eq_none_iff.mp slot) (by omega)
          | some slot' =>
              cases slot' with
              | empty => exact slot
              | tombstone => exact absurd slot not_tombstone
              | occupied key hash value => exact absurd slot (not_occupied key hash value)
        cases reusable with
        | none => exact .vacant (by omega) passed ended (Nat.le_refl taken) (.inl ended)
        | some position =>
            obtain ⟨chosen, below, rfl, tombstone⟩ := reused position rfl
            exact .vacant (by omega) passed ended (Nat.le_of_lt below) (.inr tombstone)

theorem leads_probe {map : ContentMap V} (room : HasRoom map.slots) (heap : StringHeap)
    (sought : Sought) :
    Leads heap sought map.slots (sought.hash.toNat % map.capacity) (map.probe heap sought) := by
  have led := @leads_probeFrom V heap sought map.slots (sought.hash.toNat % map.slots.size) room
    map.capacity 0 none (Nat.zero_add _) (fun _ below => absurd below (Nat.not_lt_zero _))
    (fun _ member => by cases member)
  rwa [after_mod_zero] at led

/-! ## Placing -/

/-- Where an entry is placed: in the first empty slot on the path. -/
theorem exists_placeFrom_eq {slots : Array (Slot V)} {home : Nat} (slot : Slot V)
    (room : HasRoom slots) (steps taken : Nat) (total : taken + steps = slots.size)
    (passed : ∀ earlier < taken, slotAfter slots home earlier ≠ some .empty) :
    ∃ chosen < slots.size, slotAfter slots home chosen = some .empty ∧
      (∀ earlier < chosen, slotAfter slots home earlier ≠ some .empty) ∧
      placeFrom slot steps (after slots home taken) slots =
        slots.setIfInBounds (after slots home chosen) slot := by
  induction steps generalizing taken with
  | zero =>
      obtain ⟨empty, below, ended⟩ := room.exists_slotAfter home
      exact absurd ended (passed empty (by omega))
  | succ steps induction =>
      simp only [placeFrom]
      split
      · rename_i ended
        exact ⟨taken, by omega, ended, passed, rfl⟩
      · rename_i occupied
        rw [after_succ]
        refine induction (taken + 1) (by omega) fun earlier below => ?_
        rcases Nat.lt_succ_iff_lt_or_eq.mp below with before | rfl
        · exact passed earlier before
        · exact occupied

theorem exists_place_eq {slots : Array (Slot V)} (key : StringRef) (hash : UInt32) (value : V)
    (room : HasRoom slots) :
    ∃ steps < slots.size, slotAfter slots (hash.toNat % slots.size) steps = some .empty ∧
      (∀ earlier < steps, slotAfter slots (hash.toNat % slots.size) earlier ≠ some .empty) ∧
      place slots (.occupied key hash value) =
        slots.setIfInBounds (after slots (hash.toNat % slots.size) steps)
          (.occupied key hash value) := by
  have placed := @exists_placeFrom_eq V slots (hash.toNat % slots.size) (.occupied key hash value)
    room slots.size 0 (Nat.zero_add _) (fun _ below => absurd below (Nat.not_lt_zero _))
  rwa [after_mod_zero] at placed

end ContentMap

end StackMachine
