import StackMachine.Proofs.ContentMap.Refinement

/-!
# The load of a table

Requests may free stored keys, and the table does not care: its invariants speak of slots alone.
`Alters` says what one request can do to a table.  From it follow that the table is balanced after
any requests, so that every search ends, and that its capacity is bounded by the largest number of
entries it has held.
-/

namespace StackMachine

namespace ContentMap

variable {V : Type}

/-! ## What a request does to the table -/

/-- The tables that one request can make of a table. -/
inductive Alters (map : ContentMap V) : ContentMap V → Prop
  | kept : Alters map map
  | replaced {position : Nat} {key : StringRef} {hash : UInt32} {old : V}
      (here : map.prepared.slots[position]? = some (.occupied key hash old)) (value : V) :
      Alters map (map.prepared.replaceAt position value).2
  | inserted {position : Nat} (vacant : Vacant map.prepared.slots position) (key : StringRef)
      (hash : UInt32) (value : V) : Alters map (map.prepared.insertAt position key hash value)
  | removed {position : Nat} {key : StringRef} {hash : UInt32} {old : V}
      (here : map.slots[position]? = some (.occupied key hash old)) :
      Alters map (map.takeAt position).2
  | cleared : Alters map map.clear

theorem Balanced.hasRoom_prepared {map : ContentMap V} (balanced : Balanced map) :
    HasRoom map.prepared.slots :=
  balanced.prepared.hasRoom (capacity_prepared_pos map)

theorem alters_put {heap : StringHeap} {map result : ContentMap V} {key : StringRef} {value : V}
    {previous : Option V} (balanced : Balanced map)
    (done : map.put heap key value = .ok (previous, result)) : Alters map result := by
  unfold put at done
  split at done
  · cases done
  · rename_i string live
    dsimp only at done
    split at done
    · rename_i position found
      obtain ⟨stored, hash, old, here, _⟩ := occupied_of_probe_eq_found balanced.prepared found
      have result_eq := congrArg Prod.snd (Except.ok.inj done)
      dsimp only at result_eq
      rw [← result_eq]
      exact .replaced here value
    · rename_i position vacant
      cases done
      exact .inserted (vacant_of_probe_eq_vacant balanced.hasRoom_prepared vacant).1 key
        string.hash value

theorem alters_take {map : ContentMap V} (balanced : Balanced map) (heap : StringHeap)
    (sought : Sought) : Alters map (map.take heap sought).2 := by
  unfold take position?
  cases outcome : map.probe heap sought with
  | vacant position => exact .kept
  | found position =>
      obtain ⟨stored, hash, old, here, _⟩ := occupied_of_probe_eq_found balanced outcome
      exact .removed here

theorem alters_delete {map : ContentMap V} (balanced : Balanced map) (heap : StringHeap)
    (key : StringRef) : Alters map (map.delete heap key).2 := by
  unfold delete
  split
  · exact alters_take balanced heap _
  · exact .kept

theorem alters_perform {session : Session V} (balanced : Balanced session.map)
    (request : Request V) : Alters session.map (session.perform request).2.map := by
  cases request with
  | put key value =>
      simp only [Session.perform]
      split
      · rename_i previous result done
        exact alters_put balanced done
      · exact .kept
  | delete key => exact alters_delete balanced session.heap key
  | deleteBytes bytes => exact alters_take balanced session.heap _
  | clear => exact .cleared
  | allocate bytes => exact .kept
  | release ref => exact .kept
  | get key => exact .kept
  | getBytes bytes => exact .kept
  | contains key => exact .kept
  | keyOfBytes bytes => exact .kept

theorem Balanced.alters {map result : ContentMap V} (balanced : Balanced map)
    (altered : Alters map result) : Balanced result := by
  cases altered with
  | kept => exact balanced
  | replaced here value => exact balanced.prepared.replaceAt here value
  | inserted vacant key hash value => exact balanced.prepared.insertAt key hash value vacant
  | removed here => exact balanced.takeAt here
  | cleared => exact balanced.clear

/-- One request keeps the table balanced, whatever keys are freed. -/
theorem balanced_perform {session : Session V} (balanced : Balanced session.map)
    (request : Request V) : Balanced (session.perform request).2.map :=
  balanced.alters (alters_perform balanced request)

theorem balanced_run {session : Session V} (balanced : Balanced session.map)
    (requests : List (Request V)) : Balanced (session.run requests).2.map := by
  induction requests generalizing session with
  | nil => exact balanced
  | cons request rest induction => exact induction (balanced_perform balanced request)

/-! ## Searches that run out of steps -/

/-- A search that gives an answer of its own when its steps run out. -/
def searchFrom (exhausted : Option Nat → Probe) (heap : StringHeap) (sought : Sought)
    (slots : Array (Slot V)) : (steps position : Nat) → (reusable : Option Nat) → Probe
  | 0, _, reusable => exhausted reusable
  | steps + 1, position, reusable =>
    let following := (position + 1) % slots.size
    match slots[position]? with
    | some (.occupied key hash _) =>
      if sought.isAt heap key hash then .found position
      else searchFrom exhausted heap sought slots steps following reusable
    | some .tombstone =>
      searchFrom exhausted heap sought slots steps following (reusable.or (some position))
    | _ => .vacant (reusable.getD position)

/-- A search of the table that gives an answer of its own when its steps run out. -/
def search (exhausted : Option Nat → Probe) (map : ContentMap V) (heap : StringHeap)
    (sought : Sought) : Probe :=
  searchFrom exhausted heap sought map.slots map.capacity (sought.hash.toNat % map.capacity) none

theorem probeFrom_eq_searchFrom (heap : StringHeap) (sought : Sought) (slots : Array (Slot V))
    (steps position : Nat) (reusable : Option Nat) :
    probeFrom heap sought slots steps position reusable =
      searchFrom (fun reusable => .vacant (reusable.getD 0)) heap sought slots steps position
        reusable := by
  induction steps generalizing position reusable with
  | zero => rfl
  | succ steps induction =>
      rw [probeFrom, searchFrom]
      rcases slots[position]? with _ | ⟨_ | _ | ⟨key, hash, value⟩⟩
      · rfl
      · rfl
      · exact induction _ _
      · dsimp only
        rw [induction]

/-- With an empty slot ahead, the answer kept for the end of the steps does not matter. -/
theorem searchFrom_congr {slots : Array (Slot V)} {home empty : Nat} (heap : StringHeap)
    (sought : Sought) (first second : Option Nat → Probe)
    (ended : slotAfter slots home empty = some .empty) (steps taken : Nat) (reusable : Option Nat)
    (ahead : taken ≤ empty) (below : empty < taken + steps) :
    searchFrom first heap sought slots steps (after slots home taken) reusable =
      searchFrom second heap sought slots steps (after slots home taken) reusable := by
  induction steps generalizing taken reusable with
  | zero => omega
  | succ steps induction =>
      -- A slot that the search goes past is not the empty one, which is then still ahead.
      have continued (here : slotAfter slots home taken ≠ some .empty) (next : Option Nat) :
          searchFrom first heap sought slots steps
            ((after slots home taken + 1) % slots.size) next =
            searchFrom second heap sought slots steps ((after slots home taken + 1) % slots.size)
              next := by
        have different : taken ≠ empty := by
          rintro rfl
          exact here ended
        rw [after_succ]
        exact induction (taken + 1) next (by omega) (by omega)
      simp only [searchFrom]
      split
      · rename_i occupied
        rw [continued (by simp [slotAfter, occupied])]
      · rename_i tombstone
        exact continued (by simp [slotAfter, tombstone]) _
      · rfl

theorem probe_eq_search {map : ContentMap V} (room : HasRoom map.slots)
    (exhausted : Option Nat → Probe) (heap : StringHeap) (sought : Sought) :
    map.probe heap sought = map.search exhausted heap sought := by
  obtain ⟨empty, below, ended⟩ := room.exists_slotAfter (sought.hash.toNat % map.capacity)
  have same := searchFrom_congr heap sought (fun reusable => .vacant (reusable.getD 0)) exhausted
    ended map.capacity 0 none (Nat.zero_le empty) (by rwa [Nat.zero_add])
  rw [capacity, after_mod_zero] at same
  rw [probe, probeFrom_eq_searchFrom]
  exact same

/-- A search of the table ends at the key or at an empty slot in fewer steps than there are slots,
and never for want of steps. -/
structure Ends (map : ContentMap V) (heap : StringHeap) (sought : Sought) : Prop where
  leads : Leads heap sought map.slots (sought.hash.toNat % map.capacity) (map.probe heap sought)
  unexhausted : ∀ exhausted, map.search exhausted heap sought = map.probe heap sought

theorem ends_of_hasRoom {map : ContentMap V} (room : HasRoom map.slots) (heap : StringHeap)
    (sought : Sought) : map.Ends heap sought :=
  ⟨leads_probe room heap sought, fun exhausted => (probe_eq_search room exhausted heap sought).symm⟩

/-! ## Searches for an empty slot -/

/-- An entry put into a table goes to the first empty slot on the path from its home. -/
def Settles (slots : Array (Slot V)) : Slot V → Prop
  | .occupied key hash value =>
      ∃ steps < slots.size, slotAfter slots (hash.toNat % slots.size) steps = some .empty ∧
        (∀ earlier < steps, slotAfter slots (hash.toNat % slots.size) earlier ≠ some .empty) ∧
        place slots (.occupied key hash value) =
          slots.setIfInBounds (after slots (hash.toNat % slots.size) steps)
            (.occupied key hash value)
  | _ => True

/-- The entries among slots that are put into a table one after another all find an empty slot. -/
def AllSettle (slots : Array (Slot V)) : List (Slot V) → Prop
  | [] => True
  | slot :: rest => Settles slots slot ∧ AllSettle (place slots slot) rest

theorem settles_of_hasRoom {slots : Array (Slot V)} (slot : Slot V) (room : HasRoom slots) :
    Settles slots slot := by
  cases slot with
  | occupied key hash value => exact exists_place_eq key hash value room
  | empty => trivial
  | tombstone => trivial

theorem allSettle_of_fits (added : List (Slot V)) (slots : Array (Slot V))
    (fits : added.countP Slot.isOccupied + (occupants slots).length + tombstoneCount slots <
      slots.size) : AllSettle slots added := by
  induction added generalizing slots with
  | nil => trivial
  | cons slot rest induction =>
      have room : HasRoom slots := hasRoom_of_lt (by omega)
      exact ⟨settles_of_hasRoom slot room, induction (place slots slot) (fits_place fits)⟩

/-- A table with more slots than entries settles them all. -/
theorem allSettle_resize {map : ContentMap V} {capacity : Nat}
    (fits : (occupants map.slots).length < capacity) :
    AllSettle (Array.replicate capacity .empty) map.slots.toList := by
  apply allSettle_of_fits
  rw [occupants_replicate_empty, tombstoneCount_replicate_empty, Array.size_replicate,
    ← length_occupants]
  simpa using fits

/-- The rehashing that a request does: the map whose entries are put into a new table, and the
capacity of that table. -/
inductive Rehashes (session : Session V) : Request V → ContentMap V → Nat → Prop
  /-- The first entry needs a table. -/
  | first {key : StringRef} {string : HeapString} (value : V)
      (live : session.heap.get? key = some string)
      (unused : session.map.slots.isEmpty = true) :
      Rehashes session (.put key value) session.map leastCapacity
  /-- A new entry has crowded the table. -/
  | crowded {key : StringRef} {string : HeapString} {position : Nat} {filled : ContentMap V}
      (value : V) (live : session.heap.get? key = some string)
      (vacant : session.map.prepared.probe session.heap (.ofString key string) = .vacant position)
      (entered : filled = session.map.prepared.fill position key string.hash value)
      (full : filled.isCrowded = true) :
      Rehashes session (.put key value) filled
        (if filled.size < filled.tombstones then filled.capacity else filled.capacity * 2)

theorem Rehashes.fits {session : Session V} {request : Request V} {source : ContentMap V}
    {capacity : Nat} (rehashes : Rehashes session request source capacity)
    (balanced : Balanced session.map) : (occupants source.slots).length < capacity := by
  cases rehashes with
  | first value live unused => exact length_occupants_lt_of_isEmpty unused
  | crowded value live vacant entered full =>
      rename_i key string position
      subst entered
      have free := (vacant_of_probe_eq_vacant balanced.hasRoom_prepared vacant).1
      have few := balanced.prepared.length_occupants_fill_lt key string.hash value free
      rw [capacity_fill]
      split <;> omega

/-- The state of a table after any requests. -/
structure WellLoaded (session : Session V) : Prop where
  capacity_eq : session.map.capacity = 0 ∨
    leastCapacity ≤ session.map.capacity ∧ ∃ exponent, session.map.capacity = 2 ^ exponent
  size_eq : session.map.size = session.map.slots.toList.countP Slot.isOccupied
  tombstones_eq : session.map.tombstones = session.map.slots.toList.countP Slot.isTombstone
  load : 0 < session.map.capacity →
    (session.map.size + session.map.tombstones) * 10 < session.map.capacity * 7
  /-- A search of a table with slots ends. -/
  ends : 0 < session.map.capacity → ∀ heap sought, session.map.Ends heap sought
  /-- So does the search for the place of a new entry. -/
  ends_prepared : ∀ heap sought, session.map.prepared.Ends heap sought
  /-- Every search for an empty slot in a new table ends. -/
  settles : ∀ request source capacity, Rehashes session request source capacity →
    AllSettle (Array.replicate capacity .empty) source.slots.toList

theorem Balanced.wellLoaded {session : Session V} (balanced : Balanced session.map) :
    WellLoaded session where
  capacity_eq := by
    refine balanced.capacity_eq.imp_right fun ⟨exponent, capacity_eq⟩ => ?_
    rw [capacity_eq]
    exact ⟨Nat.le_mul_of_pos_right leastCapacity (Nat.two_pow_pos exponent), 3 + exponent,
      (Nat.pow_add 2 3 exponent).symm⟩
  size_eq := balanced.size_eq.trans (length_occupants session.map.slots)
  tombstones_eq := balanced.tombstones_eq
  load := balanced.uncrowded
  ends positive := ends_of_hasRoom (balanced.hasRoom positive)
  ends_prepared := ends_of_hasRoom balanced.hasRoom_prepared
  settles _ _ _ rehashes := allSettle_resize (rehashes.fits balanced)

/-- After any requests, whatever keys are freed, the counters are exact, the capacity is proper and
the load below seven tenths; so every search ends. -/
theorem wellLoaded_run (requests : List (Request V)) :
    WellLoaded (({} : Session V).run requests).2 :=
  (balanced_run balanced_empty requests).wellLoaded

/-! ## Churn -/

/-- The largest number of entries that a map holds in the course of a run. -/
def Session.peak (session : Session V) : List (Request V) → Nat
  | [] => session.map.size
  | request :: rest => max session.map.size ((session.perform request).2.peak rest)

theorem Session.size_le_peak (session : Session V) (requests : List (Request V)) :
    session.map.size ≤ session.peak requests := by
  cases requests with
  | nil => exact Nat.le_refl _
  | cons request rest => exact Nat.le_max_left _ _

theorem capacity_prepared_le (map : ContentMap V) :
    map.prepared.capacity ≤ max leastCapacity map.capacity := by
  unfold ContentMap.prepared
  split
  · rename_i unused
    rw [capacity_resize (length_occupants_lt_of_isEmpty unused)]
    exact Nat.le_max_left _ _
  · exact Nat.le_max_right _ _

/-- A table doubles only when its entries alone fill seven twentieths of it. -/
theorem Balanced.capacity_insertAt_le {map : ContentMap V} {position : Nat}
    (balanced : Balanced map) (key : StringRef) (hash : UInt32) (value : V)
    (vacant : Vacant map.slots position) :
    7 * (map.insertAt position key hash value).capacity ≤
      max (7 * map.capacity) (40 * (map.insertAt position key hash value).size) := by
  have few := balanced.length_occupants_fill_lt key hash value vacant
  have capacity_eq := capacity_fill map position key hash value
  rw [insertAt_eq]
  split
  · rename_i full
    simp only [isCrowded, decide_eq_true_eq] at full
    unfold grow
    split
    · rw [capacity_resize (by omega)]
      omega
    · rw [capacity_resize (by omega)]
      simp only [resize]
      omega
  · omega

/-- One request raises the capacity no further than the entries it leaves warrant. -/
theorem Alters.capacity_le {map result : ContentMap V} (altered : Alters map result)
    (balanced : Balanced map) :
    7 * result.capacity ≤ max (7 * map.capacity) (max 56 (40 * result.size)) := by
  have prepared := capacity_prepared_le map
  rw [leastCapacity] at prepared
  cases altered with
  | kept => omega
  | replaced here value =>
      rw [capacity_replaceAt here]
      omega
  | inserted vacant key hash value =>
      have grown := balanced.prepared.capacity_insertAt_le key hash value vacant
      omega
  | removed here =>
      rw [capacity_takeAt here]
      omega
  | cleared =>
      rw [capacity_clear]
      omega

theorem capacity_run_le {session : Session V} (balanced : Balanced session.map)
    (requests : List (Request V)) :
    7 * (session.run requests).2.map.capacity ≤
      max (7 * session.map.capacity) (max 56 (40 * session.peak requests)) := by
  induction requests generalizing session with
  | nil => exact Nat.le_max_left _ _
  | cons request rest induction =>
      have step := (alters_perform balanced request).capacity_le balanced
      have later := induction (balanced_perform balanced request)
      have held := (session.perform request).2.size_le_peak rest
      simp only [Session.run, Session.peak]
      omega

/-- However many entries come and go, the capacity is bounded by the largest number of entries held
at one time. -/
theorem capacity_run_le_peak (requests : List (Request V)) :
    7 * (({} : Session V).run requests).2.map.capacity ≤
      max 56 (40 * ({} : Session V).peak requests) := by
  have bounded := @capacity_run_le V {} balanced_empty requests
  have none : ({} : Session V).map.capacity = 0 := rfl
  omega

end ContentMap

end StackMachine
