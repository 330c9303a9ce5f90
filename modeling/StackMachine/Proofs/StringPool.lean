import Mathlib.Data.Set.Card
import StackMachine.Proofs.StringHeap

/-!
# Interning

The entries of a pool do not keep strings alive: whatever was allocated, freed, interned and dropped
before, an entry refers to a string of its content or to no string at all, and an entry of the
second kind counts for nothing.
-/

namespace StackMachine

namespace StringPool

/-! ## Lookups -/

theorem lookup?_eq_some_iff {pool : StringPool} {heap : StringHeap} {bytes : List UInt8}
    {ref : StringRef} :
    pool.lookup? heap bytes = some ref ↔
      pool.entries.lookup bytes = some ref ∧ heap.bytes? ref = some bytes := by
  unfold lookup?
  cases pool.entries.lookup bytes with
  | none => simp
  | some found =>
      simp only [Option.ite_none_right_eq_some, Option.some.injEq]
      constructor
      · rintro ⟨content, rfl⟩
        exact ⟨rfl, content⟩
      · rintro ⟨rfl, content⟩
        exact ⟨content, rfl⟩

theorem lookup_filter_of_ne {entries : List (List UInt8 × StringRef)} {bytes other : List UInt8}
    (differs : other ≠ bytes) :
    (entries.filter fun entry => entry.1 != bytes).lookup other = entries.lookup other := by
  induction entries with
  | nil => rfl
  | cons entry rest induction =>
      obtain ⟨content, ref⟩ := entry
      by_cases same : content = bytes
      · have passed : (other == content) = false := by simp [same, differs]
        rw [List.filter_cons_of_neg (by simp [same]), induction, List.lookup_cons, passed]
      · rw [List.filter_cons_of_pos (by simpa using same), List.lookup_cons, List.lookup_cons,
          induction]

theorem lookup?_insert (pool : StringPool) (heap : StringHeap) (bytes other : List UInt8)
    {ref : StringRef} (content : heap.bytes? ref = some bytes) :
    (pool.insert bytes ref).lookup? heap other =
      if other = bytes then some ref else pool.lookup? heap other := by
  split
  · rename_i same
    rw [same, lookup?_eq_some_iff, insert, List.lookup_cons_self]
    exact ⟨rfl, content⟩
  · rename_i differs
    have passed : (other == bytes) = false := by simp [differs]
    simp only [lookup?, insert, List.lookup_cons, passed, lookup_filter_of_ne differs]

/-- Interning finds the string that stands for the content, or allocates one and puts it. -/
theorem intern_lookup_cases {pool : StringPool} {heap : StringHeap} {bytes : List UInt8}
    {interned : Interned} (done : pool.intern heap bytes = .ok interned) :
    (∃ ref, pool.lookup? heap bytes = some ref ∧ interned = ⟨ref, false, heap, pool⟩) ∨
      pool.lookup? heap bytes = none ∧ bytes.length ≤ StringHeap.maxLength ∧
        interned = ⟨heap.nextRef, true, heap.store bytes, pool.insert bytes heap.nextRef⟩ := by
  unfold intern at done
  split at done
  · rename_i ref found
    cases done
    exact .inl ⟨ref, found, rfl⟩
  · rename_i unknown
    split at done
    · cases done
    · rename_i ref after allocated
      cases done
      obtain ⟨short, rfl, rfl⟩ := StringHeap.alloc_eq_ok_iff.mp allocated
      exact .inr ⟨unknown, short, rfl⟩

/-- Interning makes a string stand for its content, and leaves the other contents alone. -/
theorem lookup?_of_intern {pool : StringPool} {heap : StringHeap} {bytes : List UInt8}
    {interned : Interned} (done : pool.intern heap bytes = .ok interned) :
    interned.pool.lookup? interned.heap bytes = some interned.ref ∧
      ∀ other ref, pool.lookup? heap other = some ref →
        interned.pool.lookup? interned.heap other = some ref := by
  rcases intern_lookup_cases done with ⟨ref, known, rfl⟩ | ⟨unknown, -, rfl⟩
  · exact ⟨known, fun _ _ => id⟩
  · have stored : (heap.store bytes).bytes? heap.nextRef = some bytes := by
      rw [StringHeap.bytes?_store, if_pos rfl]
    refine ⟨by rw [lookup?_insert _ _ _ _ stored, if_pos rfl], fun other ref known => ?_⟩
    have differs : other ≠ bytes := by
      rintro rfl
      cases unknown.symm.trans known
    obtain ⟨listed, content⟩ := lookup?_eq_some_iff.mp known
    rw [lookup?_insert _ _ _ _ stored, if_neg differs, lookup?_eq_some_iff]
    exact ⟨listed, heap.preserves_store bytes ref other content⟩

/-! ## Faithful pools -/

/-- A pool has one entry for each of its contents, with a handle that was given out and that refers
to a string of the content or to none. -/
structure Faithful (pool : StringPool) (heap : StringHeap) : Prop where
  nodup : (pool.entries.map Prod.fst).Nodup
  given : ∀ entry ∈ pool.entries, entry.2.id < heap.strings.next
  content : ∀ entry ∈ pool.entries, ∀ bytes, heap.bytes? entry.2 = some bytes → bytes = entry.1

variable {pool : StringPool} {heap : StringHeap}

theorem faithful_empty (heap : StringHeap) : Faithful {} heap where
  nodup := List.nodup_nil
  given _ member := by cases member
  content _ member := by cases member

theorem mem_of_lookup {entries : List (List UInt8 × StringRef)} {bytes : List UInt8}
    {ref : StringRef} (listed : entries.lookup bytes = some ref) : (bytes, ref) ∈ entries := by
  obtain ⟨before, after, rfl, -⟩ := List.lookup_eq_some_iff.mp listed
  simp

theorem lookup_of_mem {entries : List (List UInt8 × StringRef)} {bytes : List UInt8}
    {ref : StringRef} (nodup : (entries.map Prod.fst).Nodup) (member : (bytes, ref) ∈ entries) :
    entries.lookup bytes = some ref := by
  obtain ⟨before, after, rfl⟩ := List.append_of_mem member
  refine List.lookup_eq_some_iff.mpr ⟨before, after, rfl, fun entry early => ?_⟩
  rw [List.map_append, List.map_cons, List.nodup_append] at nodup
  have differs := nodup.2.2 entry.1 (List.mem_map_of_mem early) bytes List.mem_cons_self
  simpa using differs.symm

theorem Faithful.lookup?_eq_some_iff_mem (faithful : Faithful pool heap) {bytes : List UInt8}
    {ref : StringRef} :
    pool.lookup? heap bytes = some ref ↔
      (bytes, ref) ∈ pool.entries ∧ heap.contains ref = true := by
  rw [lookup?_eq_some_iff, ← StringHeap.live_iff_contains]
  constructor
  · rintro ⟨listed, content⟩
    exact ⟨mem_of_lookup listed, bytes, content⟩
  · rintro ⟨member, content, live⟩
    obtain rfl := faithful.content _ member content live
    exact ⟨lookup_of_mem faithful.nodup member, live⟩

/-- The handles of the entries were given out already. -/
theorem Faithful.bytes?_store (faithful : Faithful pool heap) (bytes : List UInt8)
    {entry : List UInt8 × StringRef} (member : entry ∈ pool.entries) :
    (heap.store bytes).bytes? entry.2 = heap.bytes? entry.2 := by
  rw [StringHeap.bytes?_store, if_neg]
  intro next
  have given := faithful.given entry member
  rw [next] at given
  exact Nat.lt_irrefl _ given

theorem Faithful.lookup?_store (faithful : Faithful pool heap) (bytes other : List UInt8) :
    pool.lookup? (heap.store bytes) other = pool.lookup? heap other := by
  unfold lookup?
  cases listed : pool.entries.lookup other with
  | none => rfl
  | some ref => simp only [faithful.bytes?_store bytes (mem_of_lookup listed)]

theorem Faithful.store (faithful : Faithful pool heap) (bytes : List UInt8) :
    Faithful pool (heap.store bytes) where
  nodup := faithful.nodup
  given entry member := by
    rw [StringHeap.store, HandleTable.next_append]
    exact Nat.lt_succ_of_lt (faithful.given entry member)
  content entry member content live := by
    rw [faithful.bytes?_store bytes member] at live
    exact faithful.content entry member content live

theorem Faithful.free (faithful : Faithful pool heap) (freed : StringRef) :
    Faithful pool (heap.free freed).2 where
  nodup := faithful.nodup
  given entry member := by
    rw [StringHeap.next_free]
    exact faithful.given entry member
  content entry member content live := by
    rw [StringHeap.bytes?_free] at live
    split at live
    · cases live
    · exact faithful.content entry member content live

theorem Faithful.insert (faithful : Faithful pool heap) (bytes : List UInt8) :
    Faithful (pool.insert bytes heap.nextRef) (heap.store bytes) where
  nodup := by
    refine List.nodup_cons.mpr ⟨fun member => ?_, ?_⟩
    · obtain ⟨entry, kept, same⟩ := List.mem_map.mp member
      simpa [same] using (List.mem_filter.mp kept).2
    · exact faithful.nodup.sublist (List.filter_sublist.map Prod.fst)
  given entry member := by
    rcases List.mem_cons.mp member with rfl | kept
    · simp [StringHeap.store, StringHeap.nextRef]
    · exact (faithful.store bytes).given entry (List.mem_filter.mp kept).1
  content entry member content live := by
    rcases List.mem_cons.mp member with rfl | kept
    · rw [StringHeap.bytes?_store, if_pos rfl] at live
      exact (Option.some_inj.mp live).symm
    · exact (faithful.store bytes).content entry (List.mem_filter.mp kept).1 content live

/-! ## Purging -/

theorem Faithful.filter (faithful : Faithful pool heap) (keep : List UInt8 × StringRef → Bool) :
    Faithful ⟨pool.entries.filter keep⟩ heap where
  nodup := faithful.nodup.sublist (List.filter_sublist.map Prod.fst)
  given entry member := faithful.given entry (List.mem_filter.mp member).1
  content entry member := faithful.content entry (List.mem_filter.mp member).1

theorem Faithful.purge (faithful : Faithful pool heap) : Faithful (pool.purge heap).2 heap :=
  faithful.filter _

theorem Faithful.lookup?_purge (faithful : Faithful pool heap) (bytes : List UInt8) :
    (pool.purge heap).2.lookup? heap bytes = pool.lookup? heap bytes := by
  ext ref
  rw [faithful.purge.lookup?_eq_some_iff_mem, faithful.lookup?_eq_some_iff_mem, StringPool.purge,
    List.mem_filter, and_assoc, and_self]

theorem purge_fst_eq_countP (pool : StringPool) (heap : StringHeap) :
    (pool.purge heap).1 = pool.entries.countP fun entry => !heap.contains entry.2 := by
  have total := pool.entries.length_eq_countP_add_countP fun entry => heap.contains entry.2
  simp only [StringPool.purge, ← List.countP_eq_length_filter]
  simp only [Bool.not_eq_true, Bool.decide_eq_false] at total
  omega

/-- After a purge each entry stands for a content that is found. -/
theorem Faithful.encard_purge (faithful : Faithful pool heap) :
    {bytes | ((pool.purge heap).2.lookup? heap bytes).isSome = true}.encard =
      (pool.purge heap).2.size := by
  have contents : {bytes | ((pool.purge heap).2.lookup? heap bytes).isSome = true} =
      ((pool.purge heap).2.entries.map Prod.fst).toFinset := by
    ext bytes
    rw [Finset.mem_coe, List.mem_toFinset, List.mem_map]
    constructor
    · intro found
      obtain ⟨ref, found⟩ := Option.isSome_iff_exists.mp found
      exact ⟨_, (faithful.purge.lookup?_eq_some_iff_mem.mp found).1, rfl⟩
    · rintro ⟨entry, member, rfl⟩
      have live := (List.mem_filter.mp member).2
      exact Option.isSome_of_eq_some (faithful.purge.lookup?_eq_some_iff_mem.mpr ⟨member, live⟩)
  rw [contents, Set.encard_coe_eq_coe_finsetCard,
    List.toFinset_card_of_nodup faithful.purge.nodup, List.length_map, StringPool.size]

/-! ## Histories -/

/-- What is done to a pool or to the heap it works on. -/
inductive Operation where
  | intern (bytes : List UInt8)
  | lookup (bytes : List UInt8)
  | purge
  | clear
  | alloc (bytes : List UInt8)
  | concat (left right : StringRef)
  | free (ref : StringRef)
deriving DecidableEq, Repr

/-- What an operation answers. -/
inductive Reply where
  | interned (ref : StringRef) (fresh : Bool)
  | found (ref? : Option StringRef)
  | purged (count : Nat)
  | cleared
  | allocated (ref : StringRef)
  | freed (live : Bool)
  | refused (reason : StorageError)

/-- The handle that a reply gives out. -/
def Reply.ref? : Reply → Option StringRef
  | .interned ref _ => some ref
  | .found ref? => ref?
  | .allocated ref => some ref
  | _ => none

/-- A pool and the heap it works on. -/
structure State where
  /-- The heap. -/
  heap : StringHeap := {}
  /-- The pool. -/
  pool : StringPool := {}

namespace State

/-- The handle that stands for a content. -/
def lookup? (state : State) (bytes : List UInt8) : Option StringRef :=
  state.pool.lookup? state.heap bytes

/-- The reply to an allocation and the state after it. -/
def allocating (state : State) :
    Except StorageError (StringRef × StringHeap) → Reply × State
  | .ok (ref, heap) => (.allocated ref, { state with heap })
  | .error reason => (.refused reason, state)

/-- The reply to an operation and the state after it. -/
def perform (state : State) : Operation → Reply × State
  | .intern bytes =>
    match state.pool.intern state.heap bytes with
    | .ok interned => (.interned interned.ref interned.fresh, ⟨interned.heap, interned.pool⟩)
    | .error reason => (.refused reason, state)
  | .lookup bytes => (.found (state.lookup? bytes), state)
  | .purge =>
    let (count, pool) := state.pool.purge state.heap
    (.purged count, { state with pool })
  | .clear => (.cleared, { state with pool := state.pool.clear })
  | .alloc bytes => state.allocating (state.heap.alloc bytes)
  | .concat left right => state.allocating (state.heap.concat left right)
  | .free ref =>
    let (live, heap) := state.heap.free ref
    (.freed live, { state with heap })

/-- The state after operations. -/
def run (state : State) (operations : List Operation) : State :=
  operations.foldl (fun state operation => (state.perform operation).2) state

/-- What an operation can do: it leaves everything alone and gives out at most a handle to a string
that is there, it stores a string and puts it in the pool or does not, it frees a string, or it
drops entries of the pool. -/
inductive Step (state : State) : Reply → State → Prop
  | kept {reply : Reply} (live : ∀ ref, reply.ref? = some ref → state.heap.Live ref) :
      Step state reply state
  | interned {bytes : List UInt8} (short : bytes.length ≤ StringHeap.maxLength) :
      Step state (.interned state.heap.nextRef true)
        ⟨state.heap.store bytes, state.pool.insert bytes state.heap.nextRef⟩
  | allocated {bytes : List UInt8} (short : bytes.length ≤ StringHeap.maxLength) :
      Step state (.allocated state.heap.nextRef) { state with heap := state.heap.store bytes }
  | freed (ref : StringRef) :
      Step state (.freed (state.heap.free ref).1) { state with heap := (state.heap.free ref).2 }
  | dropped {reply : Reply} (keep : List UInt8 × StringRef → Bool) (none : reply.ref? = none) :
      Step state reply { state with pool := ⟨state.pool.entries.filter keep⟩ }

variable {state after : State} {reply : Reply}

theorem live_of_lookup? {bytes : List UInt8} {ref : StringRef}
    (found : state.lookup? bytes = some ref) : state.heap.bytes? ref = some bytes :=
  (lookup?_eq_some_iff.mp found).2

theorem step_allocating (state : State) {result : Except StorageError (StringRef × StringHeap)}
    (allocates : ∀ ref heap, result = .ok (ref, heap) →
      ∃ bytes, state.heap.alloc bytes = .ok (ref, heap)) :
    Step state (state.allocating result).1 (state.allocating result).2 := by
  cases result with
  | error reason => exact .kept fun ref given => by cases given
  | ok pair =>
      obtain ⟨bytes, allocated⟩ := allocates pair.1 pair.2 rfl
      obtain ⟨short, ref_eq, heap_eq⟩ := StringHeap.alloc_eq_ok_iff.mp allocated
      simp only [allocating, ref_eq, heap_eq]
      exact .allocated short

theorem step_perform (state : State) (operation : Operation) :
    Step state (state.perform operation).1 (state.perform operation).2 := by
  cases operation with
  | intern bytes =>
      rw [perform]
      cases done : state.pool.intern state.heap bytes with
      | error reason => exact .kept fun ref given => by cases given
      | ok interned =>
          rcases intern_lookup_cases done with ⟨ref, found, rfl⟩ | ⟨-, short, rfl⟩
          · refine .kept fun ref given => ?_
            cases given
            exact ⟨bytes, live_of_lookup? found⟩
          · exact .interned short
  | lookup bytes => exact .kept fun ref found => ⟨bytes, live_of_lookup? found⟩
  | purge => exact .dropped _ rfl
  | clear =>
      have cleared : state.pool.clear = ⟨state.pool.entries.filter fun _ => false⟩ := by
        rw [List.filter_false]
        rfl
      rw [perform, cleared]
      exact .dropped _ rfl
  | alloc bytes => exact step_allocating state fun ref heap allocated => ⟨bytes, allocated⟩
  | concat left right =>
      refine step_allocating state fun ref heap allocated => ?_
      rw [StringHeap.concat] at allocated
      cases joined : state.heap.joined left right with
      | error reason =>
          rw [joined] at allocated
          cases allocated
      | ok bytes =>
          rw [joined] at allocated
          exact ⟨bytes, allocated⟩
  | free ref => exact .freed ref

/-- A pool is faithful to its heap, whose strings are as strings should be. -/
structure Sound (state : State) : Prop where
  tame : state.heap.Tame
  faithful : state.pool.Faithful state.heap

theorem sound_empty : Sound {} where
  tame := StringHeap.tame_empty
  faithful := faithful_empty {}

theorem Step.sound (step : Step state reply after) (sound : state.Sound) : after.Sound := by
  cases step with
  | kept live => exact sound
  | interned short => exact ⟨sound.tame.store short, sound.faithful.insert _⟩
  | allocated short => exact ⟨sound.tame.store short, sound.faithful.store _⟩
  | freed ref => exact ⟨sound.tame.free ref, sound.faithful.free ref⟩
  | dropped keep none => exact ⟨sound.tame, sound.faithful.filter keep⟩

theorem Step.evolves (step : Step state reply after) :
    ∃ log, state.heap.Evolves log after.heap := by
  cases step with
  | kept live => exact ⟨_, .refl⟩
  | interned short => exact ⟨_, .store _ .refl⟩
  | allocated short => exact ⟨_, .store _ .refl⟩
  | freed ref => exact ⟨_, .free ref .refl⟩
  | dropped keep none => exact ⟨_, .refl⟩

/-- A handle that is given out refers to a string. -/
theorem Step.live {ref : StringRef} (step : Step state reply after)
    (given : reply.ref? = some ref) : after.heap.Live ref := by
  cases step with
  | kept live => exact live ref given
  | interned short =>
      cases given
      exact StringHeap.live_nextRef_store _ _
  | allocated short =>
      cases given
      exact StringHeap.live_nextRef_store _ _
  | freed freed => cases given
  | dropped keep none => cases none.symm.trans given

theorem Sound.run (sound : state.Sound) (operations : List Operation) :
    (state.run operations).Sound := by
  induction operations generalizing state with
  | nil => exact sound
  | cons operation rest induction => exact induction ((state.step_perform operation).sound sound)

theorem evolves_run (state : State) (operations : List Operation) :
    ∃ log, state.heap.Evolves log (state.run operations).heap := by
  induction operations generalizing state with
  | nil => exact ⟨_, .refl⟩
  | cons operation rest induction =>
      obtain ⟨early, before⟩ := (state.step_perform operation).evolves
      obtain ⟨late, later⟩ := induction (state.perform operation).2
      exact ⟨_, before.trans later⟩

end State

/-! ## The laws of interning -/

/-- What interning a content does. -/
structure Interning (before : State) (bytes : List UInt8) (ref : StringRef) (fresh : Bool)
    (after : State) : Prop where
  content : after.heap.bytes? ref = some bytes
  fresh_iff : fresh = true ↔ before.lookup? bytes = none
  size : after.heap.size = before.heap.size + fresh.toNat
  found : after.lookup? bytes = some ref
  others : ∀ other, other ≠ bytes → after.lookup? other = before.lookup? other
  kept : fresh = false → after = before

/-- What purging a pool does. -/
structure Purging (before : State) (count : Nat) (after : State) : Prop where
  heap : after.heap = before.heap
  lookups : ∀ bytes, after.lookup? bytes = before.lookup? bytes
  count : count = before.pool.entries.countP fun entry => !before.heap.contains entry.2
  size : {bytes | (after.lookup? bytes).isSome = true}.encard = after.pool.size

/-- The laws of a pool with weak entries: what interning and purging do, that a handle found for a
content refers to a string of it, so that no handle is found for two contents, and that the handle
of a freed string is not given out again, whatever is done later. -/
structure Lawful (state : State) : Prop where
  interns (bytes : List UInt8) (short : bytes.length ≤ StringHeap.maxLength) :
    ∃ ref fresh after, state.perform (.intern bytes) = (.interned ref fresh, after) ∧
      Interning state bytes ref fresh after
  refuses (bytes : List UInt8) (long : StringHeap.maxLength < bytes.length) :
    state.perform (.intern bytes) = (.refused (.tooLong bytes.length), state)
  content (bytes : List UInt8) (ref : StringRef) (found : state.lookup? bytes = some ref) :
    state.heap.bytes? ref = some bytes
  injective (bytes other : List UInt8) (ref : StringRef) (found : state.lookup? bytes = some ref)
    (shared : state.lookup? other = some ref) : bytes = other
  purges : ∃ count after, state.perform .purge = (.purged count, after) ∧ Purging state count after
  gone (ref : StringRef) (freed : (state.perform (.free ref)).1 = .freed true)
    (later : List Operation) (operation : Operation) :
    (((state.perform (.free ref)).2.run later).perform operation).1.ref? ≠ some ref

namespace State

variable {state : State}

theorem Sound.interning (sound : state.Sound) {bytes : List UInt8}
    (short : bytes.length ≤ StringHeap.maxLength) :
    ∃ ref fresh after, state.perform (.intern bytes) = (.interned ref fresh, after) ∧
      Interning state bytes ref fresh after := by
  obtain ⟨interned, done⟩ := exists_intern_eq_ok state.pool state.heap short
  refine ⟨interned.ref, interned.fresh, ⟨interned.heap, interned.pool⟩, by rw [perform, done], ?_⟩
  rcases intern_lookup_cases done with ⟨ref, found, rfl⟩ | ⟨unknown, -, rfl⟩
  · exact {
      content := live_of_lookup? found
      fresh_iff := by simp [State.lookup?, found]
      size := rfl
      found := found
      others := fun _ _ => rfl
      kept := fun _ => rfl }
  · have stored : (state.heap.store bytes).bytes? state.heap.nextRef = some bytes := by
      rw [StringHeap.bytes?_store, if_pos rfl]
    have lookups (other : List UInt8) := lookup?_insert state.pool _ _ other stored
    exact {
      content := stored
      fresh_iff := by simp [State.lookup?, unknown]
      size := state.heap.size_store bytes
      found := by rw [State.lookup?, lookups, if_pos rfl]
      others := fun other differs => by
        rw [State.lookup?, lookups, if_neg differs, sound.faithful.lookup?_store]
        rfl
      kept := fun stale => by cases stale }

theorem Sound.purging (sound : state.Sound) :
    Purging state (state.pool.purge state.heap).1
      { state with pool := (state.pool.purge state.heap).2 } where
  heap := rfl
  lookups := sound.faithful.lookup?_purge
  count := purge_fst_eq_countP state.pool state.heap
  size := sound.faithful.encard_purge

/-- A handle that was given out and refers to no string is never given out again. -/
theorem ref?_perform_run_ne {ref : StringRef} (given : ref.id < state.heap.strings.next)
    (dead : ¬ state.heap.Live ref) (later : List Operation) (operation : Operation) :
    ((state.run later).perform operation).1.ref? ≠ some ref := by
  intro again
  obtain ⟨bytes, live⟩ := ((state.run later).step_perform operation).live again
  obtain ⟨log, evolves⟩ := state.evolves_run (later ++ [operation])
  rw [run, List.foldl_append, ← run] at evolves
  exact dead ⟨bytes, evolves.bytes?_of_lt live given⟩

theorem Sound.lawful (sound : state.Sound) : Lawful state where
  interns bytes short := sound.interning short
  refuses bytes long := by rw [perform, intern_of_long sound.tame long]
  content bytes ref := live_of_lookup?
  injective bytes other ref found shared :=
    Option.some_inj.mp ((live_of_lookup? found).symm.trans (live_of_lookup? shared))
  purges := ⟨_, _, rfl, sound.purging⟩
  gone ref freed := by
    have contained : state.heap.contains ref = true := by
      rw [← StringHeap.fst_free]
      exact Reply.freed.inj freed
    obtain ⟨bytes, live⟩ := StringHeap.live_iff_contains.mpr contained
    refine ref?_perform_run_ne ?_ ?_
    · exact (StringHeap.next_free state.heap ref).symm ▸ StringHeap.lt_next_of_bytes? live
    · rintro ⟨content, again⟩
      rw [perform, StringHeap.bytes?_free, if_pos rfl] at again
      cases again

end State

end StringPool

end StackMachine
