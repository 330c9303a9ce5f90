import StackMachine.StringHeap

/-!
# The collector

The collector keeps an entry for every string it was told about. An owned string is the
collector's to free, a borrowed one is not. A collection frees the owned strings that no root refers
to, and drops their entries and those of strings that are gone. Freeing happens only in the mode
`own`; in the mode `observe` a collection counts and frees nothing.
-/

namespace StackMachine

/-- Whether a collection may free strings. -/
inductive CollectionMode where
  | observe
  | own
deriving DecidableEq, Repr

/-- How the collector is set up. -/
structure CollectorConfig where
  /-- Whether a collection may free strings. -/
  mode : CollectionMode := .observe
  /-- The number of new strings after which a collection is wanted. -/
  threshold : Option Nat := none
deriving DecidableEq, Repr

/-- A string the collector knows about. -/
structure Tracked where
  /-- The string. -/
  ref : StringRef
  /-- Whether it is the collector's to free. -/
  owned : Bool
deriving DecidableEq, Repr

/-- The figures of a collection. -/
structure CollectionStats where
  /-- The number of entries before. -/
  tracked : Nat := 0
  /-- The number of entries reached from the roots. -/
  marked : Nat := 0
  /-- The number of strings freed. -/
  freed : Nat := 0
  /-- The number of entries after. -/
  retained : Nat := 0
  /-- The number of collections so far. -/
  collections : Nat := 0
deriving DecidableEq, Repr

/-- The entries, with an index from handles to their positions. -/
structure Collector where
  /-- The entries, in the order they were made except where one was forgotten. -/
  entries : Array Tracked := #[]
  /-- The position of the entry of each string, as far as its slot is not taken by a newer one. -/
  index : SlotIndex := {}
  /-- The mode and the threshold. -/
  config : CollectorConfig := {}
  /-- The number of entries made since the last collection. -/
  pending : Nat := 0
  /-- The figures of the last collection. -/
  last : CollectionStats := {}
  /-- The number of strings freed by all collections. -/
  totalFreed : Nat := 0
deriving Repr

namespace Collector

/-- A collector without entries. -/
def ofConfig (config : CollectorConfig) : Collector :=
  { config }

/-- The collector in another mode. Entries keep their ownership. -/
def setMode (collector : Collector) (mode : CollectionMode) : Collector :=
  { collector with config.mode := mode }

/-- The collector with another threshold. -/
def setThreshold (collector : Collector) (threshold : Option Nat) : Collector :=
  { collector with config.threshold := threshold }

/-- Makes an entry for a string in a slot, unless the index has one for it already. -/
def insert (collector : Collector) (tracked : Tracked) (slot : Nat) : Bool × Collector :=
  if collector.index.contains tracked.ref.id then (false, collector)
  else
    let position := collector.entries.size
    (true, { collector with
      entries := collector.entries.push tracked
      index := (collector.index.note tracked.ref.id slot).enter tracked.ref.id position
      pending := collector.pending + 1 })

/-- Tracks a new string, owned in the mode `own`, and says whether it was unknown. -/
def track (collector : Collector) (ref : StringRef) (slot : Nat) : Bool × Collector :=
  collector.insert ⟨ref, collector.config.mode == .own⟩ slot

/-- Tracks a string that something else is responsible for. -/
def trackBorrowed (collector : Collector) (ref : StringRef) (slot : Nat) : Bool × Collector :=
  collector.insert ⟨ref, false⟩ slot

/-- The position and the entry of a string. -/
def find? (collector : Collector) (ref : StringRef) : Option (Nat × Tracked) :=
  (collector.index.get? ref.id).bind fun position =>
    (collector.entries[position]?).map fun entry => (position, entry)

/-- Makes a borrowed string owned, in the mode `own` only, and says whether that happened. -/
def adopt (collector : Collector) (ref : StringRef) : Bool × Collector :=
  match collector.config.mode, collector.find? ref with
  | .own, some (position, entry) =>
    if entry.owned then (false, collector)
    else
      (true, { collector with entries := collector.entries.setIfInBounds position ⟨ref, true⟩ })
  | _, _ => (false, collector)

/-- Entries without the one at a position, which the last one takes. -/
def removeAt (entries : Array Tracked) (position : Nat) : Array Tracked :=
  match entries.back? with
  | some last => (entries.setIfInBounds position last).pop
  | none => entries

/-- Drops the entry of a string without freeing the string. -/
def forget (collector : Collector) (ref : StringRef) : Option Tracked × Collector :=
  match collector.find? ref with
  | none => (none, collector)
  | some (position, entry) =>
    let entries := removeAt collector.entries position
    let index := collector.index.erase ref.id
    let index :=
      match entries[position]? with
      | some moved => index.enter moved.ref.id position
      | none => index
    (some entry, { collector with entries, index })

/-- What the collector knows about a string. -/
def get? (collector : Collector) (ref : StringRef) : Option Tracked :=
  (collector.find? ref).map Prod.snd

/-- The number of entries. -/
def size (collector : Collector) : Nat :=
  collector.entries.size

/-- The number of owned strings. -/
def ownedCount (collector : Collector) : Nat :=
  collector.entries.countP Tracked.owned

/-- Whether the threshold asks for a collection. -/
def wantsCollection (collector : Collector) : Bool :=
  match collector.config.threshold with
  | some threshold => threshold ≤ collector.pending
  | none => false

/-- The figures of the last collection, with the entries of now and the strings freed so far. -/
def stats (collector : Collector) : CollectionStats :=
  { collector.last with tracked := collector.size, freed := collector.totalFreed }

/-! ## Collecting -/

/-- The strings that roots refer to. -/
def reachedFrom (roots : List StringRef) : HandleTable Unit :=
  roots.foldl (fun reached root => reached.insert root.id ()) {}

/-- The positions that an index leads to from roots. -/
def markedFrom (index : SlotIndex) (roots : List StringRef) : HandleTable Unit :=
  roots.foldl (fun marked root => (index.get? root.id).elim marked (marked.insert · ())) {}

/-- Whether a collection is to free a string: it is owned and not reached, and the mode allows
it. -/
def isReleased (mode : CollectionMode) (reached : HandleTable Unit) (entry : Tracked) : Bool :=
  mode == .own && entry.owned && !reached.contains entry.ref.id

/-- Whether a collection keeps an entry: it is marked, or its string is left alone and still
there. -/
def isKept (mode : CollectionMode) (heap : StringHeap) (entry : Tracked) (marked : Bool) : Bool :=
  marked || (!(mode == .own && entry.owned) && heap.contains entry.ref)

/-- The heap without the strings of some entries. -/
def release (heap : StringHeap) (entries : Array Tracked) : StringHeap :=
  entries.foldl (fun heap entry => (heap.free entry.ref).2) heap

/-- The index once it has all entries at their positions, and nothing else. -/
def reindex (index : SlotIndex) (entries : Array Tracked) : SlotIndex :=
  entries.toList.zipIdx.foldl (fun index (entry, position) => index.enter entry.ref.id position)
    index.clear

/-- Runs a collection with the given roots. A string that a root refers to is never freed. An entry
is marked by way of the index, which has lost the entry only when the string is gone. -/
def collect (collector : Collector) (roots : List StringRef) (heap : StringHeap) :
    CollectionStats × Collector × StringHeap :=
  let mode := collector.config.mode
  let reached := reachedFrom roots
  let released := collector.entries.filter (isReleased mode reached)
  let positions := markedFrom collector.index roots
  let marked := collector.entries.zipIdx.map fun (entry, position) =>
    (entry, positions.contains position)
  let kept := (marked.filter fun (entry, mark) => isKept mode heap entry mark).map Prod.fst
  let stats : CollectionStats := {
    tracked := collector.size
    marked := marked.countP Prod.snd
    freed := released.countP fun entry => heap.contains entry.ref
    retained := kept.size
    collections := collector.last.collections + 1 }
  (stats, { collector with
    entries := kept
    index := reindex collector.index kept
    pending := 0
    last := stats
    totalFreed := collector.totalFreed + stats.freed }, release heap released)

end Collector

end StackMachine
