import StackMachine.StringHeap

/-!
# Maps keyed by string content

A map stores values under string handles and finds them by content: two keys are the same when
they are one handle or when their hashes and contents agree. The first key stored for a content
keeps its place.

The map is a table of slots probed in order from the hash of the key, modulo the number of slots.
A deleted entry leaves a tombstone, which a probe passes and an insertion may reuse. Entries and
tombstones together stay below seven tenths of the slots, so that a probe meets an empty slot.
-/

namespace StackMachine

/-- One place of the table. -/
inductive Slot (V : Type) where
  | empty
  /-- A deleted entry. -/
  | tombstone
  | occupied (key : StringRef) (hash : UInt32) (value : V)
deriving Repr

/-- The entry in a slot. -/
def Slot.entry? {V : Type} : Slot V → Option (StringRef × V)
  | occupied key _ value => some (key, value)
  | _ => none

/-- A table of entries keyed by content. -/
structure ContentMap (V : Type) where
  /-- The places of the table. -/
  slots : Array (Slot V) := #[]
  /-- The number of entries. -/
  size : Nat := 0
  /-- The number of tombstones. -/
  tombstones : Nat := 0
deriving Repr

namespace ContentMap

variable {V : Type}

/-- The number of slots of the smallest table that holds an entry. -/
def leastCapacity : Nat := 8

/-- The number of slots. -/
def capacity (map : ContentMap V) : Nat :=
  map.slots.size

/-! ## Probing -/

/-- The key looked for. -/
structure Sought where
  /-- The hash of its content. -/
  hash : UInt32
  /-- Its content. -/
  bytes : List UInt8
  /-- Its handle, when it is looked for by handle. -/
  identity : Option StringRef

/-- Whether a stored key is the one looked for. -/
def Sought.isAt (sought : Sought) (heap : StringHeap) (key : StringRef) (hash : UInt32) : Bool :=
  sought.identity == some key || (hash == sought.hash && heap.bytes? key == some sought.bytes)

/-- The key of a given content. -/
def Sought.ofBytes (bytes : List UInt8) : Sought :=
  ⟨hashBytes bytes, bytes, none⟩

/-- The key of a live string. -/
def Sought.ofString (ref : StringRef) (string : HeapString) : Sought :=
  ⟨string.hash, string.bytes, some ref⟩

/-- Where a key is, or where it would be inserted. -/
inductive Probe where
  | found (position : Nat)
  /-- The first tombstone passed, or else the empty slot that ended the search. -/
  | vacant (position : Nat)
deriving DecidableEq, Repr

/-- Searches a number of slots from a position on, a reusable position being known. -/
def probeFrom (heap : StringHeap) (sought : Sought) (slots : Array (Slot V)) :
    (steps position : Nat) → (reusable : Option Nat) → Probe
  | 0, _, reusable => .vacant (reusable.getD 0)
  | steps + 1, position, reusable =>
    let following := (position + 1) % slots.size
    match slots[position]? with
    | some (.occupied key hash _) =>
      if sought.isAt heap key hash then .found position
      else probeFrom heap sought slots steps following reusable
    | some .tombstone =>
      probeFrom heap sought slots steps following (reusable.or (some position))
    | _ => .vacant (reusable.getD position)

/-- Searches the table for a key. -/
def probe (map : ContentMap V) (heap : StringHeap) (sought : Sought) : Probe :=
  probeFrom heap sought map.slots map.capacity (sought.hash.toNat % map.capacity) none

/-- The position of a key that is present. -/
def position? (map : ContentMap V) (heap : StringHeap) (sought : Sought) : Option Nat :=
  match map.probe heap sought with
  | .found position => some position
  | .vacant _ => none

/-! ## Looking up -/

/-- The entry at a position. -/
def entryAt? (map : ContentMap V) (position : Nat) : Option (StringRef × V) :=
  (map.slots[position]?).bind Slot.entry?

/-- The entry of a key. -/
def entry? (map : ContentMap V) (heap : StringHeap) (sought : Sought) : Option (StringRef × V) :=
  (map.position? heap sought).bind map.entryAt?

/-- The value under the content of a live string. -/
def get? (map : ContentMap V) (heap : StringHeap) (ref : StringRef) : Option V :=
  (heap.get? ref).bind fun string => (map.entry? heap (.ofString ref string)).map Prod.snd

/-- The value under a content. -/
def getBytes? (map : ContentMap V) (heap : StringHeap) (bytes : List UInt8) : Option V :=
  (map.entry? heap (.ofBytes bytes)).map Prod.snd

/-- The key stored for a content. -/
def keyOfBytes? (map : ContentMap V) (heap : StringHeap) (bytes : List UInt8) :
    Option StringRef :=
  (map.entry? heap (.ofBytes bytes)).map Prod.fst

/-- Whether a value is stored under the content of a live string. -/
def contains (map : ContentMap V) (heap : StringHeap) (ref : StringRef) : Bool :=
  (map.get? heap ref).isSome

/-- The entries in the order of the slots. -/
def entries (map : ContentMap V) : List (StringRef × V) :=
  map.slots.toList.filterMap Slot.entry?

/-- The keys in the order of the slots. -/
def keys (map : ContentMap V) : List StringRef :=
  map.entries.map Prod.fst

/-! ## Changing -/

/-- Puts a slot into the first empty place among a number of them from a position on. -/
def placeFrom (slot : Slot V) : (steps position : Nat) → Array (Slot V) → Array (Slot V)
  | 0, _, slots => slots
  | steps + 1, position, slots =>
    match slots[position]? with
    | some .empty => slots.setIfInBounds position slot
    | _ => placeFrom slot steps ((position + 1) % slots.size) slots

/-- Puts an entry into a table; other slots are dropped. -/
def place (slots : Array (Slot V)) (slot : Slot V) : Array (Slot V) :=
  match slot with
  | .occupied _ hash _ => placeFrom slot slots.size (hash.toNat % slots.size) slots
  | _ => slots

/-- The map with its entries in a table of a given capacity, without tombstones. -/
def resize (map : ContentMap V) (capacity : Nat) : ContentMap V where
  slots := map.slots.foldl place (Array.replicate capacity .empty)
  size := map.size
  tombstones := 0

/-- The map in a table of the same size when tombstones outnumber entries, and of twice the size
otherwise. -/
def grow (map : ContentMap V) : ContentMap V :=
  map.resize (if map.size < map.tombstones then map.capacity else map.capacity * 2)

/-- Whether entries and tombstones fill seven tenths of the table. -/
def isCrowded (map : ContentMap V) : Bool :=
  map.capacity * 7 ≤ (map.size + map.tombstones) * 10

/-- The map with a table that can take an entry. -/
def prepared (map : ContentMap V) : ContentMap V :=
  if map.slots.isEmpty then map.resize leastCapacity else map

/-- Replaces the value at a position, keeping its key, and gives the old value. -/
def replaceAt (map : ContentMap V) (position : Nat) (value : V) : Option V × ContentMap V :=
  match map.slots[position]? with
  | some (.occupied key hash old) =>
    (some old, { map with slots := map.slots.setIfInBounds position (.occupied key hash value) })
  | _ => (none, map)

/-- Inserts an entry at a vacant position and makes room again when the table is crowded. -/
def insertAt (map : ContentMap V) (position : Nat) (key : StringRef) (hash : UInt32) (value : V) :
    ContentMap V :=
  let reused :=
    match map.slots[position]? with
    | some .tombstone => 1
    | _ => 0
  let filled : ContentMap V := {
    slots := map.slots.setIfInBounds position (.occupied key hash value)
    size := map.size + 1
    tombstones := map.tombstones - reused }
  if filled.isCrowded then filled.grow else filled

/-- Stores a value under a live string and gives the value it replaces. -/
def put (map : ContentMap V) (heap : StringHeap) (key : StringRef) (value : V) :
    Except StorageError (Option V × ContentMap V) :=
  match heap.get? key with
  | none => .error .staleString
  | some string =>
    let map := map.prepared
    match map.probe heap (.ofString key string) with
    | .found position => .ok (map.replaceAt position value)
    | .vacant position => .ok (none, map.insertAt position key string.hash value)

/-- Removes the entry at a position, leaving a tombstone. -/
def takeAt (map : ContentMap V) (position : Nat) : Option V × ContentMap V :=
  match map.slots[position]? with
  | some (.occupied _ _ value) =>
    (some value, {
      slots := map.slots.setIfInBounds position .tombstone
      size := map.size - 1
      tombstones := map.tombstones + 1 })
  | _ => (none, map)

/-- Removes the entry of a key. -/
def take (map : ContentMap V) (heap : StringHeap) (sought : Sought) : Option V × ContentMap V :=
  match map.position? heap sought with
  | some position => map.takeAt position
  | none => (none, map)

/-- Removes the entry under the content of a live string and gives its value. -/
def delete (map : ContentMap V) (heap : StringHeap) (key : StringRef) :
    Option V × ContentMap V :=
  match heap.get? key with
  | some string => map.take heap (.ofString key string)
  | none => (none, map)

/-- Removes the entry under a content and gives its value. -/
def deleteBytes (map : ContentMap V) (heap : StringHeap) (bytes : List UInt8) :
    Option V × ContentMap V :=
  map.take heap (.ofBytes bytes)

/-- Removes every entry and keeps the capacity. -/
def clear (map : ContentMap V) : ContentMap V where
  slots := Array.replicate map.capacity .empty
  size := 0
  tombstones := 0

end ContentMap

end StackMachine
