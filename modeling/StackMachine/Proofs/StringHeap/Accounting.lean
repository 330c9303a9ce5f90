import Mathlib.Algebra.BigOperators.Group.Finset.Basic
import Mathlib.Data.List.Dedup
import StackMachine.Proofs.StringHeap

/-!
# The figures of the string heap

Allocations, concatenations and frees follow one another in any order, with handles of freed strings
and handles never given out among their operands.  After any of them the figures of the heap are
those of its live strings, a live string is what it was when it was allocated, and a handle is given
out at most once and freed at most once: as often as it was given out, less one while its string is
live.
-/

namespace StackMachine

/-- As many numbers have a value as there are distinct ones among those that have one. -/
theorem HandleTable.size_eq_length {α : Type} {table : HandleTable α} {numbers : List Nat}
    (nodup : numbers.Nodup) (mem_iff : ∀ number, table.contains number = true ↔ number ∈ numbers) :
    table.size = numbers.length := by
  have cells_eq : table.cells.toList = (List.range table.cells.size).map table.get? := by
    refine List.ext_getElem (by simp) fun number inside _ => ?_
    simp at inside
    simp [get?, inside]
  have permuted : ((List.range table.cells.size).filter table.contains).Perm numbers := by
    refine (List.perm_ext_iff_of_nodup (List.nodup_range.filter _) nodup).mpr fun number => ?_
    rw [List.mem_filter, List.mem_range, mem_iff]
    refine and_iff_right_of_imp fun member => ?_
    by_contra outside
    have stored := (mem_iff number).mpr member
    simp [contains, get?, Array.getElem?_eq_none (Nat.not_lt.mp outside)] at stored
  rw [← permuted.length_eq, size, ← Array.countP_toList, cells_eq, List.countP_map,
    List.countP_eq_length_filter]
  rfl

/-- There are as many strings as there are distinct ones in a list of the live ones. -/
theorem StringHeap.size_eq_length_dedup {heap : StringHeap} {refs : List StringRef}
    (live_iff : ∀ ref, heap.Live ref ↔ ref ∈ refs) : heap.size = refs.dedup.length := by
  have injective : Function.Injective StringRef.id := fun left right => by
    cases left
    cases right
    simp
  rw [← List.length_map StringRef.id]
  refine HandleTable.size_eq_length ((List.nodup_dedup refs).map injective) fun number => ?_
  have live := live_iff ⟨number⟩
  rw [live_iff_contains] at live
  refine live.trans ?_
  rw [← List.mem_dedup, ← List.mem_map_of_injective injective]

namespace StringHeap

/-! ## Operations -/

/-- What is done to a heap. -/
inductive Operation where
  | alloc (bytes : List UInt8)
  | concat (left right : StringRef)
  | free (ref : StringRef)
deriving DecidableEq, Repr

/-- What an operation answers. -/
inductive Reply where
  | allocated (ref : StringRef)
  | freed (live : Bool)
  | refused (reason : StorageError)
deriving DecidableEq, Repr

/-- Whether an operation has failed: nothing was allocated or freed. -/
def Reply.fails : Reply → Bool
  | .allocated _ => false
  | .freed live => !live
  | .refused _ => true

/-- The reply to an allocation and the heap after it. -/
def allocating (heap : StringHeap) :
    Except StorageError (StringRef × StringHeap) → Reply × StringHeap
  | .ok (ref, after) => (.allocated ref, after)
  | .error reason => (.refused reason, heap)

/-- The reply to an operation and the heap after it. -/
def perform (heap : StringHeap) : Operation → Reply × StringHeap
  | .alloc bytes => heap.allocating (heap.alloc bytes)
  | .concat left right => heap.allocating (heap.concat left right)
  | .free ref =>
    let (live, after) := heap.free ref
    (.freed live, after)

/-- The heap after operations. -/
def run (heap : StringHeap) (operations : List Operation) : StringHeap :=
  operations.foldl (fun heap operation => (heap.perform operation).2) heap

/-- The operations with the replies to them. -/
def trace (heap : StringHeap) : List Operation → List (Operation × Reply)
  | [] => []
  | operation :: rest =>
    (operation, (heap.perform operation).1) :: (heap.perform operation).2.trace rest

/-! ## What an operation can do -/

/-- The content that an operation is to allocate a string of. -/
def content? (heap : StringHeap) : Operation → Option (List UInt8)
  | .alloc bytes => some bytes
  | .concat left right => do
    let front ← heap.bytes? left
    let back ← heap.bytes? right
    return front ++ back
  | .free _ => none

variable {heap after : StringHeap} {operation : Operation} {reply : Reply}

theorem content?_concat_eq_some_iff {left right : StringRef} {bytes : List UInt8} :
    heap.content? (.concat left right) = some bytes ↔
      ∃ front back, heap.bytes? left = some front ∧ heap.bytes? right = some back ∧
        bytes = front ++ back := by
  cases front : heap.bytes? left <;> cases back : heap.bytes? right <;>
    simp [content?, front, back, eq_comm]

theorem concat_of_content? {left right : StringRef} {bytes : List UInt8}
    (asked : heap.content? (.concat left right) = some bytes) :
    heap.concat left right = heap.alloc bytes := by
  obtain ⟨front, back, front_eq, back_eq, rfl⟩ := content?_concat_eq_some_iff.mp asked
  rw [concat, joined, front_eq, back_eq]
  rfl

theorem concat_of_stale {left right : StringRef}
    (stale : heap.content? (.concat left right) = none) :
    heap.concat left right = .error .staleString := by
  have joined_eq : heap.joined left right = .error .staleString := by
    cases joined : heap.joined left right with
    | error reason =>
        rw [StringHeap.joined] at joined
        split at joined <;> cases joined
        rfl
    | ok bytes =>
        rw [content?_concat_eq_some_iff.mpr (exists_of_joined joined)] at stale
        cases stale
  rw [concat, joined_eq]
  rfl

theorem alloc_of_long {bytes : List UInt8} (long : maxLength < bytes.length) :
    heap.alloc bytes = .error (.tooLong bytes.length) := by
  rw [alloc, checkLength, if_pos long]
  rfl

/-- What an operation can do: it stores a string under a handle never given out, it frees a live
string, or it leaves the heap alone. -/
inductive Step (heap : StringHeap) : Operation → Reply → StringHeap → Prop
  | stored {operation : Operation} {bytes : List UInt8}
      (asked : heap.content? operation = some bytes) (short : bytes.length ≤ maxLength) :
      Step heap operation (.allocated heap.nextRef) (heap.store bytes)
  | tooLong {operation : Operation} {bytes : List UInt8}
      (asked : heap.content? operation = some bytes) (long : maxLength < bytes.length) :
      Step heap operation (.refused (.tooLong bytes.length)) heap
  | stale {left right : StringRef} (gone : heap.content? (.concat left right) = none) :
      Step heap (.concat left right) (.refused .staleString) heap
  | freed {ref : StringRef} {bytes : List UInt8} (live : heap.bytes? ref = some bytes) :
      Step heap (.free ref) (.freed true) (heap.free ref).2
  | absent {ref : StringRef} (gone : heap.bytes? ref = none) :
      Step heap (.free ref) (.freed false) heap

theorem step_allocating {bytes : List UInt8} (asked : heap.content? operation = some bytes) :
    Step heap operation (heap.allocating (heap.alloc bytes)).1
      (heap.allocating (heap.alloc bytes)).2 := by
  rcases Nat.lt_or_ge maxLength bytes.length with long | short
  · rw [alloc_of_long long]
    exact .tooLong asked long
  · rw [alloc_eq_ok_iff.mpr ⟨short, rfl, rfl⟩]
    exact .stored asked short

theorem step_perform (heap : StringHeap) (operation : Operation) :
    Step heap operation (heap.perform operation).1 (heap.perform operation).2 := by
  cases operation with
  | alloc bytes => exact step_allocating rfl
  | concat left right =>
      rw [perform]
      cases asked : heap.content? (.concat left right) with
      | none =>
          rw [concat_of_stale asked]
          exact .stale asked
      | some bytes =>
          rw [concat_of_content? asked]
          exact step_allocating asked
  | free ref =>
      rw [perform, StringHeap.free]
      cases found : heap.get? ref with
      | none => exact .absent (by rw [bytes?, found, Option.map_none])
      | some string =>
          have live : heap.bytes? ref = some string.bytes := by
            rw [bytes?, found, Option.map_some]
          have freed := Step.freed live
          rw [StringHeap.free, found] at freed
          exact freed

/-! ## One step -/

theorem Step.next_le (step : Step heap operation reply after) :
    heap.strings.next ≤ after.strings.next := by
  cases step with
  | stored asked short =>
      rw [store, HandleTable.next_append]
      exact Nat.le_succ _
  | freed live => rw [next_free]
  | tooLong | stale | absent => exact Nat.le_refl _

theorem Step.eq_nextRef {ref : StringRef} (step : Step heap operation (.allocated ref) after) :
    ref = heap.nextRef ∧ after.strings.next = heap.strings.next + 1 := by
  cases step with
  | stored asked short => exact ⟨rfl, HandleTable.next_append _ _⟩

/-- A handle that was given out means the same string after an operation, unless that frees it. -/
theorem Step.bytes?_eq {ref : StringRef} (step : Step heap operation reply after)
    (given : ref.id < heap.strings.next) :
    after.bytes? ref = if operation = .free ref then none else heap.bytes? ref := by
  cases step with
  | stored asked short =>
      have kept : operation ≠ .free ref := by
        rintro rfl
        cases asked
      have old : ref ≠ heap.nextRef := by
        rintro rfl
        exact Nat.lt_irrefl _ given
      rw [if_neg kept, bytes?_store, if_neg old]
  | tooLong asked long =>
      have kept : operation ≠ .free ref := by
        rintro rfl
        cases asked
      rw [if_neg kept]
  | stale gone => rw [if_neg nofun]
  | freed live =>
      rw [bytes?_free]
      simp only [Operation.free.injEq, eq_comm]
  | absent gone =>
      split
      · rename_i same
        cases same
        exact gone
      · rfl

/-- An operation that fails changes nothing. -/
theorem Step.eq_of_fails (step : Step heap operation reply after) (fails : reply.fails = true) :
    after = heap := by
  cases step with
  | stored | freed => cases fails
  | tooLong | stale | absent => rfl

theorem Step.tame (step : Step heap operation reply after) (tame : heap.Tame) : after.Tame := by
  cases step with
  | stored asked short => exact tame.store short
  | freed live => exact tame.free _
  | tooLong | stale | absent => exact tame

theorem bytes?_nextRef (heap : StringHeap) : heap.bytes? heap.nextRef = none := by
  rw [bytes?, get?_nextRef, Option.map_none]

theorem contains_eq_isSome (heap : StringHeap) (ref : StringRef) :
    heap.contains ref = (heap.bytes? ref).isSome := by
  rw [contains, bytes?, Option.isSome_map]

/-- A handle is given out when its string becomes live, and freed when it ceases to be. -/
theorem Step.balance (step : Step heap operation reply after) (ref : StringRef) :
    (if reply = .allocated ref then 1 else 0) + (heap.contains ref).toNat =
      (if operation = .free ref ∧ reply = .freed true then 1 else 0) +
        (after.contains ref).toNat := by
  cases step with
  | stored asked short =>
      by_cases new : ref = heap.nextRef
      · simp [new, contains_eq_isSome, bytes?_store, bytes?_nextRef]
      · simp [new, Ne.symm new, contains_eq_isSome, bytes?_store]
  | freed live =>
      rename_i freed bytes
      by_cases same : freed = ref
      · subst same
        simp [contains_eq_isSome, bytes?_free, live]
      · simp [same, Ne.symm same, contains_eq_isSome, bytes?_free]
  | tooLong | stale | absent => simp

/-! ## Accounts -/

/-- The figures of a heap are those of a set of handles, which are the live ones. -/
structure Accounts (heap : StringHeap) (live : Finset StringRef) : Prop where
  mem_iff (ref : StringRef) : ref ∈ live ↔ heap.Live ref
  allocated : heap.allocatedBytes = ∑ ref ∈ live, ((heap.bytes? ref).getD []).length

theorem accounts_empty : Accounts {} ∅ where
  mem_iff ref := by simp [Live, bytes?, get?]
  allocated := rfl

theorem Accounts.store {live : Finset StringRef} (accounts : Accounts heap live)
    (bytes : List UInt8) : Accounts (heap.store bytes) (insert heap.nextRef live) where
  mem_iff ref := by
    rw [Finset.mem_insert, accounts.mem_iff, Live, Live, bytes?_store]
    by_cases new : ref = heap.nextRef <;> simp [new]
  allocated := by
    have fresh : heap.nextRef ∉ live := by
      rw [accounts.mem_iff, Live, bytes?_nextRef]
      nofun
    have others : ∑ ref ∈ live, (((heap.store bytes).bytes? ref).getD []).length =
        ∑ ref ∈ live, ((heap.bytes? ref).getD []).length := by
      refine Finset.sum_congr rfl fun ref member => ?_
      rw [bytes?_store, if_neg (ne_of_mem_of_not_mem member fresh)]
    rw [Finset.sum_insert fresh, others, ← accounts.allocated, bytes?_store, if_pos rfl,
      Option.getD_some, Nat.add_comm]
    rfl

/-- Freeing a string gives back what it has taken. -/
theorem Accounts.allocated_eq_add {live : Finset StringRef} (accounts : Accounts heap live)
    {ref : StringRef} {bytes : List UInt8} (content : heap.bytes? ref = some bytes) :
    heap.allocatedBytes =
      bytes.length + ∑ other ∈ live.erase ref, ((heap.bytes? other).getD []).length := by
  have member : ref ∈ live := (accounts.mem_iff ref).mpr ⟨bytes, content⟩
  rw [accounts.allocated, ← Finset.add_sum_erase live _ member, content, Option.getD_some]

theorem Accounts.free {live : Finset StringRef} (accounts : Accounts heap live)
    {freed : StringRef} {bytes : List UInt8} (content : heap.bytes? freed = some bytes) :
    Accounts (heap.free freed).2 (live.erase freed) where
  mem_iff ref := by
    rw [Finset.mem_erase, accounts.mem_iff, Live, Live, bytes?_free]
    by_cases same : ref = freed <;> simp [same]
  allocated := by
    have others : ∑ ref ∈ live.erase freed, (((heap.free freed).2.bytes? ref).getD []).length =
        ∑ ref ∈ live.erase freed, ((heap.bytes? ref).getD []).length := by
      refine Finset.sum_congr rfl fun ref member => ?_
      rw [bytes?_free, if_neg (Finset.ne_of_mem_erase member)]
    rw [others, allocatedBytes_free, content, Option.getD_some, accounts.allocated_eq_add content,
      Nat.add_sub_cancel_left]

theorem Step.exists_accounts {live : Finset StringRef} (step : Step heap operation reply after)
    (accounts : Accounts heap live) : ∃ live, Accounts after live := by
  cases step with
  | stored asked short => exact ⟨_, accounts.store _⟩
  | freed content => exact ⟨_, accounts.free content⟩
  | tooLong | stale | absent => exact ⟨live, accounts⟩

theorem Accounts.size_eq {live : Finset StringRef} (accounts : Accounts heap live) :
    heap.size = live.card := by
  have live_iff (ref : StringRef) : heap.Live ref ↔ ref ∈ live.toList := by
    rw [Finset.mem_toList, accounts.mem_iff]
  rw [size_eq_length_dedup live_iff, live.nodup_toList.dedup, Finset.length_toList]

/-! ## Runs -/

theorem exists_accounts_run {live : Finset StringRef} (accounts : Accounts heap live)
    (operations : List Operation) : ∃ live, Accounts (heap.run operations) live := by
  induction operations generalizing heap live with
  | nil => exact ⟨live, accounts⟩
  | cons operation rest induction =>
      obtain ⟨next, accounts⟩ := (heap.step_perform operation).exists_accounts accounts
      exact induction accounts

theorem Tame.run (tame : heap.Tame) (operations : List Operation) :
    (heap.run operations).Tame := by
  induction operations generalizing heap with
  | nil => exact tame
  | cons operation rest induction => exact induction ((heap.step_perform operation).tame tame)

/-- A handle that was given out means the same string until it is freed, and none after that. -/
theorem bytes?_run {ref : StringRef} (given : ref.id < heap.strings.next)
    (operations : List Operation) :
    (heap.run operations).bytes? ref =
      if .free ref ∈ operations then none else heap.bytes? ref := by
  induction operations generalizing heap with
  | nil => rfl
  | cons operation rest induction =>
      -- The handle counts as given out ever after, so that no later string gets it.
      have step := heap.step_perform operation
      have later := induction (Nat.lt_of_lt_of_le given step.next_le)
      rw [step.bytes?_eq given] at later
      refine later.trans ?_
      by_cases freed : operation = .free ref <;>
        simp [freed, eq_comm (a := Operation.free ref)]

/-! ## Tallies -/

/-- How often a handle was given out. -/
def timesGiven (ref : StringRef) (steps : List (Operation × Reply)) : Nat :=
  steps.countP fun step => step.2 = .allocated ref

/-- How often a handle was freed, the answer being that its string was live. -/
def timesFreed (ref : StringRef) (steps : List (Operation × Reply)) : Nat :=
  steps.count (.free ref, .freed true)

theorem timesGiven_cons (ref : StringRef) (operation : Operation) (reply : Reply)
    (rest : List (Operation × Reply)) :
    timesGiven ref ((operation, reply) :: rest) =
      timesGiven ref rest + if reply = .allocated ref then 1 else 0 := by
  simp [timesGiven, List.countP_cons]

theorem timesFreed_cons (ref : StringRef) (operation : Operation) (reply : Reply)
    (rest : List (Operation × Reply)) :
    timesFreed ref ((operation, reply) :: rest) =
      timesFreed ref rest + if operation = .free ref ∧ reply = .freed true then 1 else 0 := by
  simp [timesFreed, List.count_cons]

/-- Each time a handle is given out but the last it has been freed, and the last time as well unless
its string is live. -/
theorem balance_run (heap : StringHeap) (operations : List Operation) (ref : StringRef) :
    timesGiven ref (heap.trace operations) + (heap.contains ref).toNat =
      timesFreed ref (heap.trace operations) + ((heap.run operations).contains ref).toNat := by
  induction operations generalizing heap with
  | nil => rfl
  | cons operation rest induction =>
      have now := (heap.step_perform operation).balance ref
      have later := induction (heap.perform operation).2
      rw [trace, timesGiven_cons, timesFreed_cons]
      change _ = _ + (((heap.perform operation).2.run rest).contains ref).toNat
      omega

/-- Handles that were given out already are not given out again, and others at most once. -/
theorem timesGiven_trace_le (heap : StringHeap) (operations : List Operation) (ref : StringRef) :
    timesGiven ref (heap.trace operations) ≤ if ref.id < heap.strings.next then 0 else 1 := by
  induction operations generalizing heap with
  | nil => exact Nat.zero_le _
  | cons operation rest induction =>
      have later := induction (heap.perform operation).2
      have step := heap.step_perform operation
      have next_le := step.next_le
      rw [trace, timesGiven_cons]
      by_cases new : (heap.perform operation).1 = .allocated ref
      · rw [new] at step
        obtain ⟨rfl, next_eq⟩ := step.eq_nextRef
        have given : heap.nextRef.id < (heap.perform operation).2.strings.next := by
          rw [next_eq]
          exact Nat.lt_succ_self _
        have first : ¬ heap.nextRef.id < heap.strings.next := Nat.lt_irrefl _
        rw [if_pos given] at later
        rw [if_pos new, if_neg first]
        omega
      · rw [if_neg new]
        split at later <;> split <;> omega

/-! ## The laws of the heap -/

/-- What allocating a content does: its string is new, lasts until it is freed, and is freed
once. -/
structure Adds (heap : StringHeap) (bytes : List UInt8) (ref : StringRef) (after : StringHeap) :
    Prop where
  fresh : heap.bytes? ref = none
  content : after.bytes? ref = some bytes
  others (other : StringRef) (distinct : other ≠ ref) : after.get? other = heap.get? other
  size : after.size = heap.size + 1
  allocated : after.allocatedBytes = heap.allocatedBytes + bytes.length
  lasts (later : List Operation) :
    (after.run later).bytes? ref = if .free ref ∈ later then none else some bytes
  freed (later : List Operation) :
    ((after.run later).free ref).1 = decide (.free ref ∉ later)

theorem adds_store (heap : StringHeap) (bytes : List UInt8) :
    Adds heap bytes heap.nextRef (heap.store bytes) := by
  have content : (heap.store bytes).bytes? heap.nextRef = some bytes := by
    rw [bytes?_store, if_pos rfl]
  have lasts (later : List Operation) := bytes?_run (lt_next_of_bytes? content) later
  rw [content] at lasts
  exact {
    fresh := heap.bytes?_nextRef
    content := content
    others := fun other distinct => by rw [get?_store, if_neg distinct]
    size := heap.size_store bytes
    allocated := rfl
    lasts := lasts
    freed := fun later => by
      rw [fst_free, contains_eq_isSome, lasts]
      split <;> simp [*] }

/-- What holds of a heap whatever was done to it. -/
structure Lawful (heap : StringHeap) : Prop where
  /-- The figures are those of the live strings, -/
  accounts : ∃ live : Finset StringRef, (∀ ref, ref ∈ live ↔ heap.contains ref = true) ∧
    heap.size = live.card ∧
    heap.allocatedBytes = ∑ ref ∈ live, ((heap.bytes? ref).getD []).length
  /-- so that there is as much to give back as a string takes. -/
  covers (ref : StringRef) (bytes : List UInt8) (content : heap.bytes? ref = some bytes) :
    bytes.length ≤ heap.allocatedBytes ∧
      (heap.free ref).2.allocatedBytes = heap.allocatedBytes - bytes.length
  /-- Strings are kept with their hashes, which are not zero. -/
  hashed (ref : StringRef) (string : HeapString) (live : heap.get? ref = some string) :
    string.hash = hashBytes string.bytes ∧ string.hash ≠ 0
  /-- A content is allocated exactly when it is not too long. -/
  alloc_iff (bytes : List UInt8) :
    (∃ ref after, heap.alloc bytes = .ok (ref, after)) ↔ bytes.length ≤ 2 ^ 32 - 1
  alloc_adds (bytes : List UInt8) (ref : StringRef) (after : StringHeap)
    (allocated : heap.alloc bytes = .ok (ref, after)) : Adds heap bytes ref after
  /-- Two strings are joined exactly when both are live and together not too long. -/
  concat_iff (left right : StringRef) :
    (∃ ref after, heap.concat left right = .ok (ref, after)) ↔
      ∃ front back, heap.bytes? left = some front ∧ heap.bytes? right = some back ∧
        front.length + back.length ≤ 2 ^ 32 - 1
  concat_adds (left right ref : StringRef) (after : StringHeap)
    (joined : heap.concat left right = .ok (ref, after)) :
    ∃ front back, heap.bytes? left = some front ∧ heap.bytes? right = some back ∧
      Adds heap (front ++ back) ref after
  /-- A live string can be freed, and nothing else. -/
  free_iff (ref : StringRef) : (heap.free ref).1 = true ↔ heap.contains ref = true
  free_removes (ref other : StringRef) :
    (heap.free ref).2.get? other = if other = ref then none else heap.get? other
  /-- A failing operation changes nothing. -/
  unchanged (operation : Operation) (failed : (heap.perform operation).1.fails = true) :
    (heap.perform operation).2 = heap

theorem maxLength_eq : maxLength = 2 ^ 32 - 1 := by
  decide

theorem exists_alloc_iff (heap : StringHeap) (bytes : List UInt8) :
    (∃ ref after, heap.alloc bytes = .ok (ref, after)) ↔ bytes.length ≤ 2 ^ 32 - 1 := by
  rw [← maxLength_eq]
  constructor
  · rintro ⟨ref, after, allocated⟩
    exact (alloc_eq_ok_iff.mp allocated).1
  · intro short
    exact ⟨_, _, alloc_eq_ok_iff.mpr ⟨short, rfl, rfl⟩⟩

/-- Joining two strings is allocating the content of the one followed by that of the other. -/
theorem concat_eq_ok_iff {left right ref : StringRef} :
    heap.concat left right = .ok (ref, after) ↔
      ∃ front back, heap.bytes? left = some front ∧ heap.bytes? right = some back ∧
        heap.alloc (front ++ back) = .ok (ref, after) := by
  cases asked : heap.content? (.concat left right) with
  | none =>
      rw [concat_of_stale asked]
      refine iff_of_false nofun ?_
      rintro ⟨front, back, front_eq, back_eq, -⟩
      cases asked.symm.trans (content?_concat_eq_some_iff.mpr ⟨front, back, front_eq, back_eq, rfl⟩)
  | some bytes =>
      obtain ⟨front, back, front_eq, back_eq, rfl⟩ := content?_concat_eq_some_iff.mp asked
      rw [concat_of_content? asked]
      simp [front_eq, back_eq]

theorem lawful_of_accounts {live : Finset StringRef} (tame : heap.Tame)
    (accounts : Accounts heap live) : Lawful heap where
  accounts := by
    refine ⟨live, fun ref => ?_, accounts.size_eq, accounts.allocated⟩
    rw [accounts.mem_iff, live_iff_contains]
  covers ref bytes content := by
    rw [allocatedBytes_free, content, accounts.allocated_eq_add content]
    exact ⟨Nat.le_add_right _ _, rfl⟩
  hashed ref string live := by
    have hash_eq := tame.hashed ref string live
    exact ⟨hash_eq, hash_eq ▸ hashBytes_ne_zero string.bytes⟩
  alloc_iff := heap.exists_alloc_iff
  alloc_adds bytes ref after allocated := by
    obtain ⟨-, rfl, rfl⟩ := alloc_eq_ok_iff.mp allocated
    exact heap.adds_store bytes
  concat_iff left right := by
    simp only [concat_eq_ok_iff, ← List.length_append, ← heap.exists_alloc_iff]
    constructor
    · rintro ⟨ref, after, front, back, front_eq, back_eq, joined⟩
      exact ⟨front, back, front_eq, back_eq, ref, after, joined⟩
    · rintro ⟨front, back, front_eq, back_eq, ref, after, joined⟩
      exact ⟨ref, after, front, back, front_eq, back_eq, joined⟩
  concat_adds left right ref after joined := by
    obtain ⟨front, back, front_eq, back_eq, allocated⟩ := concat_eq_ok_iff.mp joined
    obtain ⟨-, rfl, rfl⟩ := alloc_eq_ok_iff.mp allocated
    exact ⟨front, back, front_eq, back_eq, heap.adds_store _⟩
  free_iff ref := by rw [fst_free]
  free_removes := heap.get?_free
  unchanged operation := (heap.step_perform operation).eq_of_fails

/-- Whatever was done to a heap, its laws hold, and every handle was given out at most once, and
freed as often as it was given out unless its string is live. -/
theorem run_accounts_for_strings (operations : List Operation) :
    Lawful (run {} operations) ∧ ∀ ref,
      timesGiven ref (trace {} operations) ≤ 1 ∧
        timesGiven ref (trace {} operations) =
          timesFreed ref (trace {} operations) + ((run {} operations).contains ref).toNat := by
  obtain ⟨live, accounts⟩ := exists_accounts_run accounts_empty operations
  refine ⟨lawful_of_accounts (tame_empty.run operations) accounts, fun ref => ⟨?_, ?_⟩⟩
  · exact Nat.le_trans (timesGiven_trace_le {} operations ref) (by split <;> decide)
  · rw [← balance_run, contains_eq_isSome]
    simp [bytes?, get?]

end StringHeap

end StackMachine
