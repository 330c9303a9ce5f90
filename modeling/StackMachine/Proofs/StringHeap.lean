import StackMachine.StringPool

/-!
# Strings of the heap

Storing a string changes what its new handle refers to and nothing else, and freeing one takes away
its handle and nothing else.  The hash kept with a string is that of its content.  Interning a
content finds a live string of it or stores a new one.
-/

namespace StackMachine

namespace StringHeap

theorem get?_store (heap : StringHeap) (bytes : List UInt8) (ref : StringRef) :
    (heap.store bytes).get? ref =
      if ref = heap.nextRef then some (hashed bytes) else heap.get? ref := by
  have same : ref = heap.nextRef ↔ ref.id = heap.strings.next := by
    cases ref
    simp [nextRef]
  rw [get?, store, HandleTable.get?_append]
  simp only [same, get?]

theorem get?_free (heap : StringHeap) (freed ref : StringRef) :
    (heap.free freed).2.get? ref = if ref = freed then none else heap.get? ref := by
  have same : ref = freed ↔ ref.id = freed.id := by
    cases ref
    cases freed
    simp
  unfold free
  split
  · rw [get?, HandleTable.get?_erase]
    simp only [same, get?]
  · rename_i dead
    split
    · rename_i equal
      rw [equal]
      exact dead
    · rfl

theorem bytes?_store (heap : StringHeap) (bytes : List UInt8) (ref : StringRef) :
    (heap.store bytes).bytes? ref =
      if ref = heap.nextRef then some bytes else heap.bytes? ref := by
  rw [bytes?, get?_store]
  split <;> rfl

theorem bytes?_free (heap : StringHeap) (freed ref : StringRef) :
    (heap.free freed).2.bytes? ref = if ref = freed then none else heap.bytes? ref := by
  rw [bytes?, get?_free]
  split <;> rfl

@[simp]
theorem get?_nextRef (heap : StringHeap) : heap.get? heap.nextRef = none :=
  heap.strings.get?_next

theorem ne_nextRef_of_bytes? {heap : StringHeap} {ref : StringRef} {bytes : List UInt8}
    (live : heap.bytes? ref = some bytes) : ref ≠ heap.nextRef := by
  rintro rfl
  simp [bytes?] at live

theorem lt_next_of_bytes? {heap : StringHeap} {ref : StringRef} {bytes : List UInt8}
    (live : heap.bytes? ref = some bytes) : ref.id < heap.strings.next := by
  refine Nat.lt_of_not_le fun beyond => ?_
  have absent : heap.strings.cells[ref.id]? = none := Array.getElem?_eq_none beyond
  simp [bytes?, get?, HandleTable.get?, absent] at live

theorem fst_free (heap : StringHeap) (ref : StringRef) :
    (heap.free ref).1 = heap.contains ref := by
  unfold free contains
  cases heap.get? ref <;> rfl

theorem size_store (heap : StringHeap) (bytes : List UInt8) :
    (heap.store bytes).size = heap.size + 1 := by
  simp [size, store, HandleTable.size, HandleTable.append]

theorem allocatedBytes_free (heap : StringHeap) (ref : StringRef) :
    (heap.free ref).2.allocatedBytes =
      heap.allocatedBytes - ((heap.bytes? ref).getD []).length := by
  unfold free bytes?
  cases heap.get? ref <;> rfl

/-- What allocation does when it succeeds. -/
theorem alloc_eq_ok_iff {heap after : StringHeap} {bytes : List UInt8} {ref : StringRef} :
    heap.alloc bytes = .ok (ref, after) ↔
      bytes.length ≤ maxLength ∧ ref = heap.nextRef ∧ after = heap.store bytes := by
  unfold alloc checkLength
  split
  · rename_i long
    simp [bind, Except.bind]
    omega
  · rename_i short
    simp only [bind, Except.bind, pure, Except.pure, Except.ok.injEq, Prod.mk.injEq]
    constructor
    · rintro ⟨rfl, rfl⟩
      exact ⟨by omega, rfl, rfl⟩
    · rintro ⟨_, rfl, rfl⟩
      exact ⟨rfl, rfl⟩

theorem exists_of_joined {heap : StringHeap} {left right : StringRef} {bytes : List UInt8}
    (joined : heap.joined left right = .ok bytes) :
    ∃ front back, heap.bytes? left = some front ∧ heap.bytes? right = some back ∧
      bytes = front ++ back := by
  rw [StringHeap.joined] at joined
  split at joined
  · rename_i front back front_eq back_eq
    cases joined
    exact ⟨front, back, front_eq, back_eq, rfl⟩
  · cases joined

/-- Every string is kept with the hash of its content. -/
def Hashed (heap : StringHeap) : Prop :=
  ∀ ref string, heap.get? ref = some string → string.hash = hashBytes string.bytes

theorem hashed_empty : Hashed {} := by
  intro ref string live
  simp [get?] at live

theorem Hashed.store {heap : StringHeap} (exact : Hashed heap) (bytes : List UInt8) :
    Hashed (heap.store bytes) := by
  intro ref string live
  rw [get?_store] at live
  split at live
  · cases live
    rfl
  · exact exact ref string live

theorem Hashed.free {heap : StringHeap} (exact : Hashed heap) (freed : StringRef) :
    Hashed (heap.free freed).2 := by
  intro ref string live
  rw [get?_free] at live
  split at live
  · cases live
  · exact exact ref string live

/-! ## Liveness -/

/-- A handle refers to a string. -/
def Live (heap : StringHeap) (ref : StringRef) : Prop :=
  ∃ bytes, heap.bytes? ref = some bytes

theorem live_iff_contains {heap : StringHeap} {ref : StringRef} :
    heap.Live ref ↔ heap.contains ref = true := by
  unfold Live contains bytes?
  cases heap.get? ref <;> simp

/-- Live strings stay live, with their contents. -/
def Preserves (before after : StringHeap) : Prop :=
  ∀ ref bytes, before.bytes? ref = some bytes → after.bytes? ref = some bytes

theorem Preserves.refl (heap : StringHeap) : heap.Preserves heap :=
  fun _ _ => id

theorem Preserves.trans {first second third : StringHeap} (before : first.Preserves second)
    (later : second.Preserves third) : first.Preserves third :=
  fun ref bytes live => later ref bytes (before ref bytes live)

theorem Live.preserved {before after : StringHeap} {ref : StringRef} (live : before.Live ref)
    (preserved : before.Preserves after) : after.Live ref := by
  obtain ⟨bytes, content⟩ := live
  exact ⟨bytes, preserved ref bytes content⟩

theorem preserves_store (heap : StringHeap) (bytes : List UInt8) :
    heap.Preserves (heap.store bytes) := by
  intro ref content live
  rw [bytes?_store, if_neg (ne_nextRef_of_bytes? live), live]

theorem live_nextRef_store (heap : StringHeap) (bytes : List UInt8) :
    (heap.store bytes).Live heap.nextRef :=
  ⟨bytes, by rw [bytes?_store, if_pos rfl]⟩

/-- Handles of two heaps to strings of one content. -/
def SameContent (heap heap' : StringHeap) (ref ref' : StringRef) : Prop :=
  ∃ bytes, heap.bytes? ref = some bytes ∧ heap'.bytes? ref' = some bytes

theorem SameContent.symm {heap heap' : StringHeap} {ref ref' : StringRef}
    (same : SameContent heap heap' ref ref') : SameContent heap' heap ref' ref := by
  obtain ⟨bytes, content, content'⟩ := same
  exact ⟨bytes, content', content⟩

theorem SameContent.preserved {heap heap' later later' : StringHeap} {ref ref' : StringRef}
    (same : heap.SameContent heap' ref ref') (preserved : heap.Preserves later)
    (preserved' : heap'.Preserves later') : later.SameContent later' ref ref' := by
  obtain ⟨bytes, content, content'⟩ := same
  exact ⟨bytes, preserved ref bytes content, preserved' ref' bytes content'⟩

/-! ## Histories -/

/-- A heap comes out of another by allocating given contents in order and freeing strings in
between. -/
inductive Evolves (first : StringHeap) : List (List UInt8) → StringHeap → Prop
  | refl : Evolves first [] first
  | store {heap : StringHeap} {log : List (List UInt8)} (bytes : List UInt8) :
      Evolves first log heap → Evolves first (log ++ [bytes]) (heap.store bytes)
  | free {heap : StringHeap} {log : List (List UInt8)} (ref : StringRef) :
      Evolves first log heap → Evolves first log (heap.free ref).2

theorem Evolves.trans {first second third : StringHeap} {early late : List (List UInt8)}
    (before : Evolves first early second) (later : Evolves second late third) :
    Evolves first (early ++ late) third := by
  induction later with
  | refl =>
      rw [List.append_nil]
      exact before
  | store bytes evolves induction =>
      rw [← List.append_assoc]
      exact induction.store bytes
  | free ref evolves induction => exact induction.free ref

theorem Evolves.hashed {first heap : StringHeap} {log : List (List UInt8)}
    (evolves : Evolves first log heap) (hashed : first.Hashed) : heap.Hashed := by
  induction evolves with
  | refl => exact hashed
  | store bytes evolves induction => exact induction.store bytes
  | free ref evolves induction => exact induction.free ref

theorem next_free (heap : StringHeap) (ref : StringRef) :
    (heap.free ref).2.strings.next = heap.strings.next := by
  unfold free
  split
  · exact HandleTable.next_erase _ _
  · rfl

theorem slotOf_store (heap : StringHeap) (bytes : List UInt8) (ref : StringRef) :
    (heap.store bytes).slotOf ref =
      if ref = heap.nextRef then heap.nextSlot else heap.slotOf ref := by
  have new : ref = heap.nextRef ↔ ref.id = heap.slots.given.size := by
    cases ref
    simp [nextRef, heap.given]
  simp only [slotOf, store, Slots.slotOf, Slots.given_take, Array.getD_eq_getD_getElem?,
    Array.getElem?_push, new, nextSlot]
  split <;> simp [*]

@[simp]
theorem slotOf_nextRef_store (heap : StringHeap) (bytes : List UInt8) :
    (heap.store bytes).slotOf heap.nextRef = heap.nextSlot := by
  rw [slotOf_store, if_pos rfl]

@[simp]
theorem slotOf_free (heap : StringHeap) (freed ref : StringRef) :
    (heap.free freed).2.slotOf ref = heap.slotOf ref := by
  unfold free
  split <;> rfl

/-- The handles given out are counted by the strings allocated. -/
theorem Evolves.next_eq {first heap : StringHeap} {log : List (List UInt8)}
    (evolves : Evolves first log heap) :
    heap.strings.next = first.strings.next + log.length := by
  induction evolves with
  | refl => rfl
  | store bytes evolves induction =>
      rw [StringHeap.store, HandleTable.next_append, induction, List.length_append]
      rfl
  | free ref evolves induction => rw [next_free, induction]

/-- A live string has the content it was allocated with. -/
theorem Evolves.content_eq {log : List (List UInt8)} {heap : StringHeap} {ref : StringRef}
    {bytes : List UInt8} (evolves : Evolves {} log heap) (live : heap.bytes? ref = some bytes) :
    log[ref.id]? = some bytes := by
  induction evolves with
  | refl => simp [bytes?, get?] at live
  | store bytes' evolves induction =>
      rw [bytes?_store] at live
      split at live
      · rename_i new
        cases live
        rw [new, nextRef, evolves.next_eq]
        simp [HandleTable.next]
      · have old := induction live
        obtain ⟨inside, _⟩ := List.getElem?_eq_some_iff.mp old
        rw [List.getElem?_append_left inside, old]
  | free freed evolves induction =>
      rw [bytes?_free] at live
      split at live
      · cases live
      · exact induction live

/-- A live string was live with the same content ever since it was allocated. -/
theorem Evolves.bytes?_of_lt {first heap : StringHeap} {log : List (List UInt8)}
    {ref : StringRef} {bytes : List UInt8} (evolves : Evolves first log heap)
    (live : heap.bytes? ref = some bytes) (known : ref.id < first.strings.next) :
    first.bytes? ref = some bytes := by
  induction evolves with
  | refl => exact live
  | store bytes' evolves induction =>
      rw [bytes?_store] at live
      split at live
      · rename_i new
        have given_out := evolves.next_eq
        simp only [new, nextRef] at known
        omega
      · exact induction live
  | free freed evolves induction =>
      rw [bytes?_free] at live
      split at live
      · cases live
      · exact induction live

/-- Strings are kept with their hashes, and none is longer than allowed. -/
structure Tame (heap : StringHeap) : Prop where
  hashed : heap.Hashed
  bounded : ∀ ref bytes, heap.bytes? ref = some bytes → bytes.length ≤ maxLength

theorem tame_empty : Tame {} where
  hashed := hashed_empty
  bounded ref bytes live := by simp [bytes?, get?] at live

theorem Tame.store {heap : StringHeap} (tame : heap.Tame) {bytes : List UInt8}
    (short : bytes.length ≤ maxLength) : (heap.store bytes).Tame where
  hashed := tame.hashed.store bytes
  bounded ref content live := by
    rw [bytes?_store] at live
    split at live
    · cases live
      exact short
    · exact tame.bounded ref content live

theorem Tame.free {heap : StringHeap} (tame : heap.Tame) (freed : StringRef) :
    (heap.free freed).2.Tame where
  hashed := tame.hashed.free freed
  bounded ref content live := by
    rw [bytes?_free] at live
    split at live
    · cases live
    · exact tame.bounded ref content live

theorem Tame.of_evolves {heap heap' : StringHeap} (tame : heap.Tame) {log : List (List UInt8)}
    (evolves : heap.Evolves log heap') (short : ∀ bytes ∈ log, bytes.length ≤ maxLength) :
    heap'.Tame := by
  induction evolves with
  | refl => exact tame
  | store bytes evolves induction =>
      refine (induction fun content member => short content (List.mem_append_left _ member)).store
        ?_
      exact short bytes (List.mem_append_right _ List.mem_cons_self)
  | free ref evolves induction => exact (induction short).free ref

end StringHeap

/-! ## Interning -/

namespace StringPool

/-- Interning finds a live string of the content, or allocates one. -/
theorem intern_cases {pool : StringPool} {heap : StringHeap} {bytes : List UInt8}
    {interned : Interned} (done : pool.intern heap bytes = .ok interned) :
    (∃ ref, heap.bytes? ref = some bytes ∧ interned = ⟨ref, false, heap, pool⟩) ∨
      bytes.length ≤ StringHeap.maxLength ∧
        interned = ⟨heap.nextRef, true, heap.store bytes, pool.insert bytes heap.nextRef⟩ := by
  unfold intern at done
  split at done
  · rename_i ref found
    cases done
    unfold lookup? at found
    split at found
    · split at found
      · rename_i known
        cases found
        exact .inl ⟨ref, known, rfl⟩
      · cases found
    · cases found
  · split at done
    · cases done
    · rename_i ref after allocated
      cases done
      obtain ⟨short, rfl, rfl⟩ := StringHeap.alloc_eq_ok_iff.mp allocated
      exact .inr ⟨short, rfl⟩

/-- Interning fails only for contents that are too long. -/
theorem exists_intern_eq_ok (pool : StringPool) (heap : StringHeap) {bytes : List UInt8}
    (fits : bytes.length ≤ StringHeap.maxLength) :
    ∃ interned, pool.intern heap bytes = .ok interned := by
  have allocated : heap.alloc bytes = .ok (heap.nextRef, heap.store bytes) :=
    StringHeap.alloc_eq_ok_iff.mpr ⟨fits, rfl, rfl⟩
  rw [intern, allocated]
  cases pool.lookup? heap bytes with
  | some ref => exact ⟨_, rfl⟩
  | none => exact ⟨_, rfl⟩

theorem intern_of_long {pool : StringPool} {heap : StringHeap} {bytes : List UInt8}
    (tame : heap.Tame) (long : StringHeap.maxLength < bytes.length) :
    pool.intern heap bytes = .error (.tooLong bytes.length) := by
  have unknown : pool.lookup? heap bytes = none := by
    unfold lookup?
    split
    · split
      · rename_i ref _ live
        exact absurd (tame.bounded ref bytes live) (by omega)
      · rfl
    · rfl
  simp only [intern, unknown, StringHeap.alloc, StringHeap.checkLength, if_pos long]
  rfl

end StringPool

end StackMachine
