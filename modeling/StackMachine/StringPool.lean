import StackMachine.StringHeap

/-!
# The string pool

A pool remembers one handle for each content, without keeping the string alive. An entry whose
string was freed counts for nothing and is replaced when its content is interned again.
-/

namespace StackMachine

/-- Contents with the handles that stand for them. -/
structure StringPool where
  /-- One entry for each content. -/
  entries : List (List UInt8 × StringRef) := []
deriving Repr

namespace StringPool

/-- The live handle that stands for a content. -/
def lookup? (pool : StringPool) (heap : StringHeap) (bytes : List UInt8) : Option StringRef :=
  match pool.entries.lookup bytes with
  | some ref => if heap.bytes? ref = some bytes then some ref else none
  | none => none

/-- The pool with a handle put for a content. -/
def insert (pool : StringPool) (bytes : List UInt8) (ref : StringRef) : StringPool :=
  ⟨(bytes, ref) :: pool.entries.filter fun entry => entry.1 != bytes⟩

/-- The handle that stands for a content, and whether it was allocated for that. -/
structure Interned where
  /-- The handle. -/
  ref : StringRef
  /-- Whether a string was allocated. -/
  fresh : Bool
  /-- The heap afterwards. -/
  heap : StringHeap
  /-- The pool afterwards. -/
  pool : StringPool

/-- Finds or allocates the string that stands for a content. -/
def intern (pool : StringPool) (heap : StringHeap) (bytes : List UInt8) :
    Except StorageError Interned :=
  match pool.lookup? heap bytes with
  | some ref => .ok ⟨ref, false, heap, pool⟩
  | none =>
    match heap.alloc bytes with
    | .error reason => .error reason
    | .ok (ref, heap) => .ok ⟨ref, true, heap, pool.insert bytes ref⟩

/-- The number of entries. -/
def size (pool : StringPool) : Nat :=
  pool.entries.length

/-- Drops the entries whose strings were freed, and counts them. -/
def purge (pool : StringPool) (heap : StringHeap) : Nat × StringPool :=
  let kept := pool.entries.filter fun entry => heap.contains entry.2
  (pool.entries.length - kept.length, ⟨kept⟩)

/-- Drops all entries. -/
def clear (pool : StringPool) : StringPool :=
  { pool with entries := [] }

end StringPool

end StackMachine
