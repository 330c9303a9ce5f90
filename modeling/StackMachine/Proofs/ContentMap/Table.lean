import StackMachine.Proofs.ContentMap.Probe
import Mathlib.Data.List.Perm.Basic

/-!
# The table of a map

Two invariants of the table do not depend on the heap.  `Chained` says that no empty slot stands
between an entry and the home of its hash.  `Balanced` says that the counters are exact, that the
capacity is a power of two and that entries and tombstones stay below seven tenths of it; so a table
that has slots has an empty one.  Rehashing keeps the entries and both invariants.
-/

namespace StackMachine

namespace Slot

variable {V : Type}

/-- Whether a slot holds an entry. -/
def isOccupied : Slot V → Bool
  | occupied _ _ _ => true
  | _ => false

/-- Whether a slot held an entry that was deleted. -/
def isTombstone : Slot V → Bool
  | tombstone => true
  | _ => false

/-- Whether a slot never held an entry. -/
def isEmpty : Slot V → Bool
  | empty => true
  | _ => false

end Slot

namespace ContentMap

variable {V : Type}

/-! ## Slots in order -/

/-- The occupied slots in order. -/
def occupants (slots : Array (Slot V)) : List (Slot V) :=
  slots.toList.filter Slot.isOccupied

/-- The number of tombstones in a table. -/
def tombstoneCount (slots : Array (Slot V)) : Nat :=
  slots.toList.countP Slot.isTombstone

theorem entries_eq_filterMap_occupants (map : ContentMap V) :
    map.entries = (occupants map.slots).filterMap Slot.entry? := by
  rw [entries, occupants, List.filterMap_filter]
  congr
  funext slot
  cases slot <;> rfl

theorem length_occupants (slots : Array (Slot V)) :
    (occupants slots).length = slots.toList.countP Slot.isOccupied :=
  List.countP_eq_length_filter.symm

/-- Writing a slot replaces one element of the table. -/
theorem exists_split {slots : Array (Slot V)} {position : Nat} {old : Slot V}
    (here : slots[position]? = some old) :
    ∃ front back, slots.toList = front ++ old :: back ∧
      ∀ new, (slots.setIfInBounds position new).toList = front ++ new :: back := by
  obtain ⟨inside, rfl⟩ := Array.getElem?_eq_some_iff.mp here
  have inside' : position < slots.toList.length := inside
  refine ⟨slots.toList.take position, slots.toList.drop (position + 1), ?_, fun new => ?_⟩
  · have whole := List.take_append_drop position slots.toList
    rw [List.drop_eq_getElem_cons inside'] at whole
    exact whole.symm
  · rw [Array.toList_setIfInBounds, List.set_eq_take_append_cons_drop, if_pos inside']

theorem counts_add_eq_length (slots : List (Slot V)) :
    slots.countP Slot.isOccupied + slots.countP Slot.isTombstone + slots.countP Slot.isEmpty =
      slots.length := by
  induction slots with
  | nil => rfl
  | cons slot rest induction =>
      simp only [List.countP_cons, List.length_cons]
      cases slot <;> simp [Slot.isOccupied, Slot.isTombstone, Slot.isEmpty] <;> omega

/-- Slots that are neither occupied nor tombstones leave room. -/
theorem hasRoom_of_lt {slots : Array (Slot V)}
    (fits : (occupants slots).length + tombstoneCount slots < slots.size) : HasRoom slots := by
  have total := counts_add_eq_length slots.toList
  have positive : 0 < slots.toList.countP Slot.isEmpty := by
    rw [length_occupants, tombstoneCount, ← Array.length_toList] at fits
    omega
  obtain ⟨slot, member, vacant⟩ := List.countP_pos_iff.mp positive
  obtain ⟨position, here⟩ := List.getElem?_of_mem member
  cases slot with
  | empty => exact ⟨position, by simpa using here⟩
  | tombstone => simp [Slot.isEmpty] at vacant
  | occupied key hash value => simp [Slot.isEmpty] at vacant

/-! ## Chains -/

/-- No empty slot stands between the home of a hash and a position. -/
def Reached (slots : Array (Slot V)) (hash : UInt32) (position : Nat) : Prop :=
  ∃ steps < slots.size, after slots (hash.toNat % slots.size) steps = position ∧
    ∀ earlier < steps, slotAfter slots (hash.toNat % slots.size) earlier ≠ some .empty

/-- Every entry is reached from its home. -/
def Chained (slots : Array (Slot V)) : Prop :=
  ∀ (position : Nat) (key : StringRef) (hash : UInt32) (value : V),
    slots[position]? = some (.occupied key hash value) → Reached slots hash position

@[simp]
theorem after_setIfInBounds (slots : Array (Slot V)) (position : Nat) (slot : Slot V)
    (home steps : Nat) :
    after (slots.setIfInBounds position slot) home steps = after slots home steps := by
  simp [after]

/-- Filling a slot breaks no path. -/
theorem Reached.set {slots : Array (Slot V)} {hash : UInt32} {position target : Nat}
    {slot : Slot V} (reached : Reached slots hash position) (filled : slot ≠ .empty) :
    Reached (slots.setIfInBounds target slot) hash position := by
  obtain ⟨steps, below, position_eq, unbroken⟩ := reached
  refine ⟨steps, by simpa using below, by simpa using position_eq, fun earlier before => ?_⟩
  have kept := unbroken earlier before
  simp only [slotAfter, after_setIfInBounds, Array.size_setIfInBounds] at kept ⊢
  rw [Array.getElem?_setIfInBounds]
  split
  · split
    · simpa using filled
    · simp
  · exact kept

theorem Chained.set {slots : Array (Slot V)} {target : Nat} {slot : Slot V}
    (chained : Chained slots) (filled : slot ≠ .empty)
    (reached : ∀ key hash value, slot = .occupied key hash value → Reached slots hash target) :
    Chained (slots.setIfInBounds target slot) := by
  intro position key hash value here
  rw [Array.getElem?_setIfInBounds] at here
  split at here
  · rename_i same
    subst same
    split at here
    · exact (reached key hash value (by simpa using here)).set filled
    · cases here
  · exact (chained position key hash value here).set filled

/-! ## Rehashing -/

/-- What placing entries in a table keeps and adds. -/
structure Rehashed (slots : Array (Slot V)) (added : List (Slot V)) (result : Array (Slot V)) :
    Prop where
  size_eq : result.size = slots.size
  tombstones_eq : tombstoneCount result = tombstoneCount slots
  chained : Chained slots → Chained result
  occupants_perm : (occupants result).Perm (added.filter Slot.isOccupied ++ occupants slots)

theorem rehashed_set {slots : Array (Slot V)} {position : Nat} {key : StringRef} {hash : UInt32}
    {value : V} (vacant : slots[position]? = some .empty) (reached : Reached slots hash position) :
    Rehashed slots [.occupied key hash value]
      (slots.setIfInBounds position (.occupied key hash value)) := by
  obtain ⟨front, back, before, written⟩ := exists_split vacant
  refine ⟨Array.size_setIfInBounds, ?_, fun chained => ?_, ?_⟩
  · simp only [tombstoneCount, before, written, List.countP_append, List.countP_cons,
      Slot.isTombstone, Bool.false_eq_true, if_false]
  · refine chained.set (by simp) fun key' hash' value' equal => ?_
    cases equal
    exact reached
  · simp only [occupants, before, written, List.filter_append, List.filter_cons, Slot.isOccupied,
      if_true, List.filter_nil, Bool.false_eq_true, if_false]
    exact List.perm_middle

theorem rehashed_place {slots : Array (Slot V)} (slot : Slot V) (room : HasRoom slots) :
    Rehashed slots [slot] (place slots slot) := by
  cases slot with
  | occupied key hash value =>
      obtain ⟨chosen, below, vacant, passed, placed⟩ := exists_place_eq key hash value room
      rw [placed]
      exact rehashed_set vacant ⟨chosen, below, rfl, passed⟩
  | empty => exact ⟨rfl, rfl, id, List.Perm.refl _⟩
  | tombstone => exact ⟨rfl, rfl, id, List.Perm.refl _⟩

theorem Rehashed.trans {first second third : Array (Slot V)} {early late : List (Slot V)}
    (before : Rehashed first early second) (later : Rehashed second late third) :
    Rehashed first (early ++ late) third := by
  refine ⟨later.size_eq.trans before.size_eq, later.tombstones_eq.trans before.tombstones_eq,
    fun chained => later.chained (before.chained chained), later.occupants_perm.trans ?_⟩
  rw [List.filter_append, List.append_assoc]
  exact (before.occupants_perm.append_left _).trans (List.perm_append_comm_assoc ..)

/-- Placing one of the entries leaves room for the others. -/
theorem fits_place {slots : Array (Slot V)} {slot : Slot V} {rest : List (Slot V)}
    (fits : (slot :: rest).countP Slot.isOccupied + (occupants slots).length +
      tombstoneCount slots < slots.size) :
    rest.countP Slot.isOccupied + (occupants (place slots slot)).length +
      tombstoneCount (place slots slot) < (place slots slot).size := by
  have step := rehashed_place slot (hasRoom_of_lt (by omega : _ < slots.size))
  have length := step.occupants_perm.length_eq
  rw [List.length_append, ← List.countP_eq_length_filter, List.countP_singleton] at length
  rw [List.countP_cons] at fits
  rw [step.size_eq, step.tombstones_eq, length]
  omega

theorem rehashed_foldl_place (added : List (Slot V)) (slots : Array (Slot V))
    (fits : added.countP Slot.isOccupied + (occupants slots).length + tombstoneCount slots <
      slots.size) :
    Rehashed slots added (added.foldl place slots) := by
  induction added generalizing slots with
  | nil => exact ⟨rfl, rfl, id, List.Perm.refl _⟩
  | cons slot rest induction =>
      have room : HasRoom slots := hasRoom_of_lt (by omega)
      exact (rehashed_place slot room).trans (induction (place slots slot) (fits_place fits))

theorem chained_replicate_empty (capacity : Nat) :
    Chained (Array.replicate capacity (Slot.empty : Slot V)) := by
  intro position key hash value here
  rw [Array.getElem?_replicate] at here
  split at here <;> cases here

theorem occupants_replicate_empty (capacity : Nat) :
    occupants (Array.replicate capacity (Slot.empty : Slot V)) = [] := by
  simp [occupants, Slot.isOccupied]

theorem tombstoneCount_replicate_empty (capacity : Nat) :
    tombstoneCount (Array.replicate capacity (Slot.empty : Slot V)) = 0 := by
  simp [tombstoneCount, Slot.isTombstone]

/-- A table with more slots than entries takes them all. -/
theorem rehashed_resize {map : ContentMap V} {capacity : Nat}
    (fits : (occupants map.slots).length < capacity) :
    Rehashed (Array.replicate capacity .empty) map.slots.toList (map.resize capacity).slots := by
  rw [resize, ← Array.foldl_toList]
  apply rehashed_foldl_place
  rw [occupants_replicate_empty, tombstoneCount_replicate_empty, Array.size_replicate,
    ← length_occupants]
  simpa using fits

theorem occupants_resize_perm {map : ContentMap V} {capacity : Nat}
    (fits : (occupants map.slots).length < capacity) :
    (occupants (map.resize capacity).slots).Perm (occupants map.slots) := by
  have permuted := (rehashed_resize fits).occupants_perm
  rwa [occupants_replicate_empty, List.append_nil] at permuted

theorem chained_resize {map : ContentMap V} {capacity : Nat}
    (fits : (occupants map.slots).length < capacity) : Chained (map.resize capacity).slots :=
  (rehashed_resize fits).chained (chained_replicate_empty capacity)

theorem capacity_resize {map : ContentMap V} {capacity : Nat}
    (fits : (occupants map.slots).length < capacity) : (map.resize capacity).capacity = capacity :=
  (rehashed_resize fits).size_eq.trans Array.size_replicate

/-! ## Counters -/

/-- The counters of a map are exact. -/
structure Exact (map : ContentMap V) : Prop where
  size_eq : map.size = (occupants map.slots).length
  tombstones_eq : map.tombstones = tombstoneCount map.slots

/-- The counters are exact and the table is of a proper size and not crowded. -/
structure Balanced (map : ContentMap V) : Prop extends Exact map where
  capacity_eq : map.capacity = 0 ∨ ∃ exponent, map.capacity = leastCapacity * 2 ^ exponent
  uncrowded : 0 < map.capacity → (map.size + map.tombstones) * 10 < map.capacity * 7

theorem balanced_empty : Balanced ({} : ContentMap V) :=
  ⟨⟨rfl, rfl⟩, .inl rfl, fun positive => absurd positive (Nat.lt_irrefl 0)⟩

theorem Balanced.hasRoom {map : ContentMap V} (balanced : Balanced map)
    (positive : 0 < map.capacity) : HasRoom map.slots := by
  have load := balanced.uncrowded positive
  rw [balanced.size_eq, balanced.tombstones_eq] at load
  apply hasRoom_of_lt
  have size_eq : map.capacity = map.slots.size := rfl
  omega

theorem Exact.resize {map : ContentMap V} {capacity : Nat} (exact : Exact map)
    (fits : map.size < capacity) : Exact (map.resize capacity) := by
  rw [exact.size_eq] at fits
  constructor
  · rw [(occupants_resize_perm fits).length_eq]
    exact exact.size_eq
  · rw [(rehashed_resize fits).tombstones_eq, tombstoneCount_replicate_empty]
    rfl

theorem Exact.balanced_resize {map : ContentMap V} {capacity : Nat} (exact : Exact map)
    (power : ∃ exponent, capacity = leastCapacity * 2 ^ exponent)
    (fits : map.size * 10 < capacity * 7) : Balanced (map.resize capacity) := by
  have capacity_eq : (map.resize capacity).capacity = capacity :=
    capacity_resize (by rw [← exact.size_eq]; omega)
  refine ⟨exact.resize (by omega), .inr (by rw [capacity_eq]; exact power), fun _ => ?_⟩
  rw [capacity_eq]
  simpa [ContentMap.resize] using fits

/-- A table that was not crowded before its last insertion is rehashed to one that is not. -/
theorem Exact.balanced_grow {map : ContentMap V} (exact : Exact map)
    (power : ∃ exponent, map.capacity = leastCapacity * 2 ^ exponent)
    (load : (map.size + map.tombstones) * 10 < map.capacity * 7 + 10) : Balanced map.grow := by
  obtain ⟨exponent, capacity_eq⟩ := power
  have least : 8 ≤ map.capacity := by
    rw [capacity_eq]
    exact Nat.le_mul_of_pos_right 8 (Nat.two_pow_pos exponent)
  unfold grow
  split
  · exact exact.balanced_resize ⟨exponent, capacity_eq⟩ (by omega)
  · refine exact.balanced_resize ⟨exponent + 1, ?_⟩ (by omega)
    rw [capacity_eq, Nat.pow_succ, Nat.mul_assoc]

theorem Balanced.least_le_capacity {map : ContentMap V} (balanced : Balanced map)
    (positive : 0 < map.capacity) : leastCapacity ≤ map.capacity := by
  rcases balanced.capacity_eq with none | ⟨exponent, capacity_eq⟩
  · omega
  · rw [capacity_eq]
    exact Nat.le_mul_of_pos_right leastCapacity (Nat.two_pow_pos exponent)

theorem occupants_of_isEmpty {map : ContentMap V} (unused : map.slots.isEmpty = true) :
    occupants map.slots = [] := by
  rw [occupants, Array.isEmpty_iff.mp unused]
  rfl

theorem length_occupants_lt_of_isEmpty {map : ContentMap V} (unused : map.slots.isEmpty = true) :
    (occupants map.slots).length < leastCapacity := by
  rw [occupants_of_isEmpty unused, List.length_nil]
  decide

theorem Balanced.prepared {map : ContentMap V} (balanced : Balanced map) :
    Balanced map.prepared := by
  unfold ContentMap.prepared
  split
  · rename_i unused
    have none : map.size = 0 := by
      rw [balanced.size_eq, occupants_of_isEmpty unused, List.length_nil]
    exact balanced.toExact.balanced_resize ⟨0, rfl⟩ (by rw [none]; decide)
  · exact balanced

theorem capacity_prepared_pos (map : ContentMap V) : 0 < map.prepared.capacity := by
  unfold ContentMap.prepared
  split
  · rename_i unused
    rw [capacity_resize (length_occupants_lt_of_isEmpty unused)]
    decide
  · rename_i used
    simpa [capacity, Array.size_pos_iff] using used

/-! ## Writing a slot -/

/-- Positions that an entry may be written to. -/
def Vacant (slots : Array (Slot V)) (position : Nat) : Prop :=
  slots[position]? = some .empty ∨ slots[position]? = some .tombstone

theorem Vacant.capacity_pos {map : ContentMap V} {position : Nat}
    (vacant : Vacant map.slots position) : 0 < map.capacity := by
  rcases vacant with here | here <;> exact Nat.zero_lt_of_lt (Array.getElem?_eq_some_iff.mp here).1

/-- The map with an entry at a vacant position, crowded or not. -/
def fill (map : ContentMap V) (position : Nat) (key : StringRef) (hash : UInt32) (value : V) :
    ContentMap V where
  slots := map.slots.setIfInBounds position (.occupied key hash value)
  size := map.size + 1
  tombstones := map.tombstones - match map.slots[position]? with
    | some .tombstone => 1
    | _ => 0

theorem insertAt_eq (map : ContentMap V) (position : Nat) (key : StringRef) (hash : UInt32)
    (value : V) :
    map.insertAt position key hash value =
      if (map.fill position key hash value).isCrowded then (map.fill position key hash value).grow
      else map.fill position key hash value :=
  rfl

theorem occupants_fill_perm {map : ContentMap V} {position : Nat} (key : StringRef)
    (hash : UInt32) (value : V) (vacant : Vacant map.slots position) :
    (occupants (map.fill position key hash value).slots).Perm
      (.occupied key hash value :: occupants map.slots) := by
  rcases vacant with here | here <;> obtain ⟨front, back, before, written⟩ := exists_split here
  all_goals
    simp only [fill, occupants, before, written, List.filter_append, List.filter_cons,
      Slot.isOccupied, Bool.false_eq_true, if_false, if_true]
    exact List.perm_middle

theorem Exact.fill {map : ContentMap V} {position : Nat} (exact : Exact map) (key : StringRef)
    (hash : UInt32) (value : V) (vacant : Vacant map.slots position) :
    Exact (map.fill position key hash value) := by
  constructor
  · rw [(occupants_fill_perm key hash value vacant).length_eq, List.length_cons, ← exact.size_eq]
    rfl
  · have tombstones_eq := exact.tombstones_eq
    rcases vacant with here | here <;> obtain ⟨front, back, before, written⟩ := exists_split here
    all_goals
      simp only [ContentMap.fill, tombstoneCount, before, written, here, tombstones_eq,
        List.countP_append, List.countP_cons, Slot.isTombstone, Bool.false_eq_true, if_false,
        if_true]
      omega

theorem tombstones_fill_le (map : ContentMap V) (position : Nat) (key : StringRef) (hash : UInt32)
    (value : V) : (map.fill position key hash value).tombstones ≤ map.tombstones :=
  Nat.sub_le _ _

theorem capacity_fill (map : ContentMap V) (position : Nat) (key : StringRef) (hash : UInt32)
    (value : V) : (map.fill position key hash value).capacity = map.capacity :=
  Array.size_setIfInBounds

theorem Balanced.insertAt {map : ContentMap V} {position : Nat} (balanced : Balanced map)
    (key : StringRef) (hash : UInt32) (value : V) (vacant : Vacant map.slots position) :
    Balanced (map.insertAt position key hash value) := by
  have inside := vacant.capacity_pos
  have exact := balanced.toExact.fill key hash value vacant
  have capacity_eq := capacity_fill map position key hash value
  have power := balanced.capacity_eq.resolve_left (by omega)
  rw [insertAt_eq]
  split
  · refine exact.balanced_grow (by rwa [capacity_eq]) ?_
    have load := balanced.uncrowded inside
    have fewer := tombstones_fill_le map position key hash value
    have size_eq : (map.fill position key hash value).size = map.size + 1 := rfl
    omega
  · rename_i roomy
    refine ⟨exact, .inr (by rwa [capacity_eq]), fun _ => ?_⟩
    simpa [isCrowded] using roomy

/-- Growing rehashes into a table that is no smaller. -/
theorem exists_grow_eq_resize (map : ContentMap V) :
    ∃ capacity, map.capacity ≤ capacity ∧ map.grow = map.resize capacity := by
  unfold grow
  split
  · exact ⟨map.capacity, Nat.le_refl _, rfl⟩
  · exact ⟨map.capacity * 2, by omega, rfl⟩

theorem Balanced.length_occupants_fill_lt {map : ContentMap V} {position : Nat}
    (balanced : Balanced map) (key : StringRef) (hash : UInt32) (value : V)
    (vacant : Vacant map.slots position) :
    (occupants (map.fill position key hash value).slots).length < map.capacity := by
  have load := balanced.uncrowded vacant.capacity_pos
  have least := balanced.least_le_capacity vacant.capacity_pos
  rw [(occupants_fill_perm key hash value vacant).length_eq, List.length_cons, ← balanced.size_eq]
  rw [leastCapacity] at least
  omega

theorem Balanced.occupants_insertAt_perm {map : ContentMap V} {position : Nat}
    (balanced : Balanced map) (key : StringRef) (hash : UInt32) (value : V)
    (vacant : Vacant map.slots position) :
    (occupants (map.insertAt position key hash value).slots).Perm
      (.occupied key hash value :: occupants map.slots) := by
  have few := balanced.length_occupants_fill_lt key hash value vacant
  have filled := occupants_fill_perm key hash value vacant
  rw [insertAt_eq]
  split
  · obtain ⟨capacity, larger, grown⟩ := exists_grow_eq_resize (map.fill position key hash value)
    rw [capacity_fill] at larger
    rw [grown]
    exact (occupants_resize_perm (by omega)).trans filled
  · exact filled

theorem Balanced.chained_insertAt {map : ContentMap V} {position : Nat} (balanced : Balanced map)
    (chained : Chained map.slots) (key : StringRef) (hash : UInt32) (value : V)
    (vacant : Vacant map.slots position) (reached : Reached map.slots hash position) :
    Chained (map.insertAt position key hash value).slots := by
  have few := balanced.length_occupants_fill_lt key hash value vacant
  rw [insertAt_eq]
  split
  · obtain ⟨capacity, larger, grown⟩ := exists_grow_eq_resize (map.fill position key hash value)
    rw [capacity_fill] at larger
    rw [grown]
    exact chained_resize (by omega)
  · refine chained.set (by simp) fun key' hash' value' equal => ?_
    cases equal
    exact reached

/-! ## Replacing and removing entries -/

theorem replaceAt_eq {map : ContentMap V} {position : Nat} {key : StringRef} {hash : UInt32}
    {old : V} (here : map.slots[position]? = some (.occupied key hash old)) (value : V) :
    map.replaceAt position value =
      (some old,
        { map with slots := map.slots.setIfInBounds position (.occupied key hash value) }) := by
  simp only [replaceAt, here]

theorem takeAt_eq {map : ContentMap V} {position : Nat} {key : StringRef} {hash : UInt32}
    {old : V} (here : map.slots[position]? = some (.occupied key hash old)) :
    map.takeAt position =
      (some old,
        { slots := map.slots.setIfInBounds position .tombstone
          size := map.size - 1
          tombstones := map.tombstones + 1 }) := by
  simp only [takeAt, here]

theorem capacity_replaceAt {map : ContentMap V} {position : Nat} {key : StringRef} {hash : UInt32}
    {old : V} (here : map.slots[position]? = some (.occupied key hash old)) (value : V) :
    (map.replaceAt position value).2.capacity = map.capacity := by
  simp [replaceAt_eq here, capacity]

theorem capacity_takeAt {map : ContentMap V} {position : Nat} {key : StringRef} {hash : UInt32}
    {old : V} (here : map.slots[position]? = some (.occupied key hash old)) :
    (map.takeAt position).2.capacity = map.capacity := by
  simp [takeAt_eq here, capacity]

theorem capacity_clear (map : ContentMap V) : map.clear.capacity = map.capacity :=
  Array.size_replicate

/-- The entries around an occupied position, and what writing there makes of them. -/
theorem exists_entries_split {map : ContentMap V} {position : Nat} {key : StringRef}
    {hash : UInt32} {old : V} (here : map.slots[position]? = some (.occupied key hash old)) :
    ∃ front back, map.entries = front ++ (key, old) :: back ∧
      (∀ value, (map.replaceAt position value).2.entries = front ++ (key, value) :: back) ∧
      (map.takeAt position).2.entries = front ++ back := by
  obtain ⟨front, back, before, written⟩ := exists_split here
  refine ⟨front.filterMap Slot.entry?, back.filterMap Slot.entry?, ?_, fun value => ?_, ?_⟩
  · simp only [entries, before, List.filterMap_append, List.filterMap_cons, Slot.entry?]
  · simp only [replaceAt_eq here, entries, written, List.filterMap_append, List.filterMap_cons,
      Slot.entry?]
  · simp only [takeAt_eq here, entries, written, List.filterMap_append, List.filterMap_cons,
      Slot.entry?]

theorem Balanced.replaceAt {map : ContentMap V} {position : Nat} {key : StringRef} {hash : UInt32}
    {old : V} (balanced : Balanced map)
    (here : map.slots[position]? = some (.occupied key hash old)) (value : V) :
    Balanced (map.replaceAt position value).2 := by
  obtain ⟨front, back, before, written⟩ := exists_split here
  have size_eq := balanced.size_eq
  have tombstones_eq := balanced.tombstones_eq
  refine ⟨⟨?_, ?_⟩, by rw [capacity_replaceAt here]; exact balanced.capacity_eq, ?_⟩
  · simp only [replaceAt_eq here, size_eq, occupants, before, written, List.filter_append,
      List.filter_cons, Slot.isOccupied, if_true, List.length_append, List.length_cons]
  · simp only [replaceAt_eq here, tombstones_eq, tombstoneCount, before, written,
      List.countP_append, List.countP_cons, Slot.isTombstone, Bool.false_eq_true, if_false]
  · rw [capacity_replaceAt here]
    simpa only [replaceAt_eq here] using balanced.uncrowded

theorem Balanced.takeAt {map : ContentMap V} {position : Nat} {key : StringRef} {hash : UInt32}
    {old : V} (balanced : Balanced map)
    (here : map.slots[position]? = some (.occupied key hash old)) :
    Balanced (map.takeAt position).2 := by
  obtain ⟨front, back, before, written⟩ := exists_split here
  have size_eq := balanced.size_eq
  have tombstones_eq := balanced.tombstones_eq
  have uncrowded := balanced.uncrowded
  simp only [occupants, tombstoneCount, before, List.filter_append, List.filter_cons,
    Slot.isOccupied, if_true, List.length_append, List.length_cons, List.countP_append,
    List.countP_cons, Slot.isTombstone, Bool.false_eq_true, if_false] at size_eq tombstones_eq
  refine ⟨⟨?_, ?_⟩, by rw [capacity_takeAt here]; exact balanced.capacity_eq, ?_⟩
  · simp only [takeAt_eq here, occupants, written, List.filter_append, List.filter_cons,
      Slot.isOccupied, Bool.false_eq_true, if_false, List.length_append]
    omega
  · simp only [takeAt_eq here, tombstoneCount, written, List.countP_append, List.countP_cons,
      Slot.isTombstone, if_true]
    omega
  · rw [capacity_takeAt here]
    simp only [takeAt_eq here]
    omega

theorem Balanced.clear {map : ContentMap V} (balanced : Balanced map) : Balanced map.clear := by
  refine ⟨⟨?_, ?_⟩, by rw [capacity_clear]; exact balanced.capacity_eq, fun positive => ?_⟩
  · rw [ContentMap.clear, occupants_replicate_empty]
    rfl
  · rw [ContentMap.clear, tombstoneCount_replicate_empty]
  · have none : map.clear.size + map.clear.tombstones = 0 := rfl
    omega

end ContentMap

end StackMachine
