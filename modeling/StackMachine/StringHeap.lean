import StackMachine.Slots
import StackMachine.StorageError

/-!
# The string heap

Strings are byte strings referred to by handles. Allocation never shares: equal contents get
distinct handles, and the handle of a freed string is never given out again, though its slot is.
-/

namespace StackMachine

/-- A handle to a string. -/
@[ext]
structure StringRef where
  /-- The number of strings allocated before. -/
  id : Nat
deriving DecidableEq, Repr

/-- A string with its hash. -/
structure HeapString where
  /-- The content. -/
  bytes : List UInt8
  /-- The hash of the content. -/
  hash : UInt32
deriving DecidableEq, Repr

/-- One step of the hash: the byte is mixed in before the multiplication. -/
def mixByte (hash : UInt32) (byte : UInt8) : UInt32 :=
  (hash ^^^ byte.toUInt32) * 0x01000193

/-- The 32-bit FNV-1a hash, with zero replaced by one. -/
def hashBytes (bytes : List UInt8) : UInt32 :=
  let hash := bytes.foldl mixByte 0x811c9dc5
  if hash = 0 then 1 else hash

theorem hashBytes_ne_zero (bytes : List UInt8) : hashBytes bytes ≠ 0 := by
  simp only [hashBytes]
  split <;> simp_all

/-- No slot was handed out as long as no handle was given out. -/
theorem size_given_empty : ({} : Slots).given.size = ({} : HandleTable HeapString).next :=
  rfl

/-- The strings allocated. -/
structure StringHeap where
  /-- The live strings by the number of their handle. -/
  strings : HandleTable HeapString := {}
  /-- The total length of the live strings. -/
  allocatedBytes : Nat := 0
  /-- The slots that strings lie in. -/
  slots : Slots := {}
  /-- Every handle that was given out has a slot. -/
  given : slots.given.size = strings.next := by exact size_given_empty
deriving Repr

namespace StringHeap

/-- The length that no string exceeds. -/
def maxLength : Nat := UInt32.size - 1

/-- The live string of a handle. -/
def get? (heap : StringHeap) (ref : StringRef) : Option HeapString :=
  heap.strings.get? ref.id

/-- The content of a live string. -/
def bytes? (heap : StringHeap) (ref : StringRef) : Option (List UInt8) :=
  (heap.get? ref).map HeapString.bytes

/-- Whether a handle refers to a live string. -/
def contains (heap : StringHeap) (ref : StringRef) : Bool :=
  (heap.get? ref).isSome

/-- The number of live strings. -/
def size (heap : StringHeap) : Nat :=
  heap.strings.size

/-- A string with its hash computed. -/
def hashed (bytes : List UInt8) : HeapString :=
  ⟨bytes, hashBytes bytes⟩

/-- Fails for a content too long for a string. -/
def checkLength (bytes : List UInt8) : Except StorageError Unit :=
  if maxLength < bytes.length then .error (.tooLong bytes.length) else .ok ()

/-- The handle that the next string gets, which no string had before. -/
def nextRef (heap : StringHeap) : StringRef :=
  ⟨heap.strings.next⟩

/-- The slot of a handle. -/
def slotOf (heap : StringHeap) (ref : StringRef) : Nat :=
  heap.slots.slotOf ref.id

/-- The slot that the next string gets. -/
def nextSlot (heap : StringHeap) : Nat :=
  heap.slots.next

/-- The heap with a string of a given content under the next handle. -/
def store (heap : StringHeap) (bytes : List UInt8) : StringHeap where
  strings := heap.strings.append (hashed bytes)
  allocatedBytes := heap.allocatedBytes + bytes.length
  slots := heap.slots.take
  given := by
    rw [Slots.given_take, Array.size_push, heap.given, HandleTable.next_append]

/-- Allocates a string under a handle never used before. -/
def alloc (heap : StringHeap) (bytes : List UInt8) :
    Except StorageError (StringRef × StringHeap) := do
  checkLength bytes
  return (heap.nextRef, heap.store bytes)

/-- The content of one live string followed by that of another. -/
def joined (heap : StringHeap) (left right : StringRef) : Except StorageError (List UInt8) :=
  match heap.bytes? left, heap.bytes? right with
  | some front, some back => .ok (front ++ back)
  | _, _ => .error .staleString

/-- Allocates the content of one live string followed by that of another. -/
def concat (heap : StringHeap) (left right : StringRef) :
    Except StorageError (StringRef × StringHeap) := do
  let bytes ← heap.joined left right
  heap.alloc bytes

/-- Frees a string, and says whether it was live. -/
def free (heap : StringHeap) (ref : StringRef) : Bool × StringHeap :=
  match heap.get? ref with
  | some string =>
    (true, {
      strings := heap.strings.erase ref.id
      allocatedBytes := heap.allocatedBytes - string.bytes.length
      slots := heap.slots.vacate ref.id
      given := by rw [Slots.given_vacate, heap.given, HandleTable.next_erase] })
  | none => (false, heap)

end StringHeap

end StackMachine
