import StackMachine.Proofs.ContentMap.Content

/-!
# Maps refine functions on contents

A session performs requests on a map and on the heap under it; a model performs the same requests on
a plain function from contents to entries.  As long as no stored key is freed, the two give the same
answers after any requests, and the entries of the map list the function exactly.
-/

namespace StackMachine

namespace ContentMap

variable {V : Type}

/-! ## Functions on contents -/

/-- The entry under each content, with the key stored first. -/
abbrev Contents (V : Type) :=
  List UInt8 → Option (StringRef × V)

namespace Contents

/-- The function with an entry under a content. -/
def assign (contents : Contents V) (bytes : List UInt8) (entry : StringRef × V) : Contents V :=
  fun other => if other = bytes then some entry else contents other

/-- The function without an entry under a content. -/
def erase (contents : Contents V) (bytes : List UInt8) : Contents V :=
  fun other => if other = bytes then none else contents other

/-- A list holds exactly the entries of a function. -/
def ListedBy (contents : Contents V) (heap : StringHeap) (entries : List (StringRef × V)) : Prop :=
  ∀ bytes key value, contents bytes = some (key, value) ↔
    (key, value) ∈ entries ∧ heap.bytes? key = some bytes

theorem ListedBy.perm {contents : Contents V} {heap : StringHeap}
    {entries others : List (StringRef × V)} (listed : contents.ListedBy heap entries)
    (permuted : others.Perm entries) : contents.ListedBy heap others := by
  intro bytes key value
  rw [permuted.mem_iff]
  exact listed bytes key value

theorem ListedBy.assign {contents : Contents V} {heap : StringHeap} {bytes : List UInt8}
    {others : List (StringRef × V)} (listed : contents.ListedBy heap others)
    (entry : StringRef × V) (content : heap.bytes? entry.1 = some bytes)
    (absent : ∀ other ∈ others, heap.bytes? other.1 ≠ some bytes) :
    (contents.assign bytes entry).ListedBy heap (entry :: others) := by
  intro bytes' key value
  unfold Contents.assign
  split
  · rename_i same
    subst same
    constructor
    · rintro ⟨⟩
      exact ⟨List.mem_cons_self, content⟩
    · rintro ⟨member, here⟩
      rcases List.mem_cons.mp member with head | tail
      · rw [head]
      · exact absurd here (absent _ tail)
  · rename_i different
    rw [listed bytes' key value]
    constructor
    · rintro ⟨member, here⟩
      exact ⟨List.mem_cons_of_mem entry member, here⟩
    · rintro ⟨member, here⟩
      rcases List.mem_cons.mp member with rfl | tail
      · exact absurd (Option.some.inj (here.symm.trans content)) different
      · exact ⟨tail, here⟩

theorem ListedBy.erase {contents : Contents V} {heap : StringHeap} {bytes : List UInt8}
    {others : List (StringRef × V)} {entry : StringRef × V}
    (listed : contents.ListedBy heap (entry :: others))
    (content : heap.bytes? entry.1 = some bytes)
    (absent : ∀ other ∈ others, heap.bytes? other.1 ≠ some bytes) :
    (contents.erase bytes).ListedBy heap others := by
  intro bytes' key value
  unfold Contents.erase
  split
  · rename_i same
    subst same
    constructor
    · intro impossible
      cases impossible
    · rintro ⟨member, here⟩
      exact absurd here (absent _ member)
  · rename_i different
    rw [listed bytes' key value]
    constructor
    · rintro ⟨member, here⟩
      rcases List.mem_cons.mp member with rfl | tail
      · exact absurd (Option.some.inj (here.symm.trans content)) different
      · exact ⟨tail, here⟩
    · rintro ⟨member, here⟩
      exact ⟨List.mem_cons_of_mem entry member, here⟩

theorem assign_erase (contents : Contents V) (bytes : List UInt8) (entry : StringRef × V) :
    (contents.erase bytes).assign bytes entry = contents.assign bytes entry := by
  funext other
  simp only [assign, erase]
  split <;> rfl

theorem ListedBy.erase_eq_self {contents : Contents V} {heap : StringHeap} {bytes : List UInt8}
    {entries : List (StringRef × V)} (listed : contents.ListedBy heap entries)
    (absent : ∀ entry ∈ entries, heap.bytes? entry.1 ≠ some bytes) :
    contents.erase bytes = contents := by
  funext other
  unfold Contents.erase
  split
  · rename_i same
    subst same
    cases found : contents other with
    | none => rfl
    | some entry =>
        obtain ⟨member, here⟩ := (listed other entry.1 entry.2).mp found
        exact absurd here (absent entry member)
  · rfl

end Contents

/-! ## Requests -/

/-- What is asked of a map or of the heap under it. -/
inductive Request (V : Type) where
  | allocate (bytes : List UInt8)
  | release (ref : StringRef)
  | put (key : StringRef) (value : V)
  | delete (key : StringRef)
  | deleteBytes (bytes : List UInt8)
  | clear
  | get (key : StringRef)
  | getBytes (bytes : List UInt8)
  | contains (key : StringRef)
  | keyOfBytes (bytes : List UInt8)

/-- What a request is answered. -/
inductive Answer (V : Type) where
  | done
  | stored (result : Except StorageError (Option V))
  | value (result : Option V)
  | presence (result : Bool)
  | key (result : Option StringRef)

/-- The heap after an allocation, which fails for a content too long. -/
def allocated (heap : StringHeap) (bytes : List UInt8) : StringHeap :=
  match heap.alloc bytes with
  | .ok (_, after) => after
  | .error _ => heap

/-- A map and the heap under it. -/
structure Session (V : Type) where
  heap : StringHeap := {}
  map : ContentMap V := {}

/-- Answers a request with the operations of the map. -/
def Session.perform (session : Session V) : Request V → Answer V × Session V
  | .allocate bytes => (.done, { session with heap := allocated session.heap bytes })
  | .release ref => (.done, { session with heap := (session.heap.free ref).2 })
  | .put key value =>
      match session.map.put session.heap key value with
      | .ok (previous, map) => (.stored (.ok previous), { session with map })
      | .error reason => (.stored (.error reason), session)
  | .delete key =>
      let (removed, map) := session.map.delete session.heap key
      (.value removed, { session with map })
  | .deleteBytes bytes =>
      let (removed, map) := session.map.deleteBytes session.heap bytes
      (.value removed, { session with map })
  | .clear => (.done, { session with map := session.map.clear })
  | .get key => (.value (session.map.get? session.heap key), session)
  | .getBytes bytes => (.value (session.map.getBytes? session.heap bytes), session)
  | .contains key => (.presence (session.map.contains session.heap key), session)
  | .keyOfBytes bytes => (.key (session.map.keyOfBytes? session.heap bytes), session)

/-- A function on contents and the heap that gives handles their contents. -/
structure Model (V : Type) where
  heap : StringHeap := {}
  contents : Contents V := fun _ => none

namespace Model

/-- The value under a content. -/
def value? (model : Model V) (bytes : List UInt8) : Option V :=
  (model.contents bytes).map Prod.snd

/-- The first key stored for a content since it was last absent. -/
def key? (model : Model V) (bytes : List UInt8) : Option StringRef :=
  (model.contents bytes).map Prod.fst

/-- Answers a request with the function alone. -/
def perform (model : Model V) : Request V → Answer V × Model V
  | .allocate bytes => (.done, { model with heap := allocated model.heap bytes })
  | .release ref => (.done, { model with heap := (model.heap.free ref).2 })
  | .put key value =>
      match model.heap.bytes? key with
      | none => (.stored (.error .staleString), model)
      | some bytes =>
          (.stored (.ok (model.value? bytes)),
            { model with
              contents := model.contents.assign bytes ((model.key? bytes).getD key, value) })
  | .delete key =>
      match model.heap.bytes? key with
      | none => (.value none, model)
      | some bytes =>
          (.value (model.value? bytes), { model with contents := model.contents.erase bytes })
  | .deleteBytes bytes =>
      (.value (model.value? bytes), { model with contents := model.contents.erase bytes })
  | .clear => (.done, { model with contents := fun _ => none })
  | .get key => (.value ((model.heap.bytes? key).bind model.value?), model)
  | .getBytes bytes => (.value (model.value? bytes), model)
  | .contains key => (.presence ((model.heap.bytes? key).bind model.value?).isSome, model)
  | .keyOfBytes bytes => (.key (model.key? bytes), model)

/-- Answers requests in order. -/
def run (model : Model V) : List (Request V) → List (Answer V) × Model V
  | [] => ([], model)
  | request :: rest =>
      let (answer, next) := model.perform request
      let (answers, last) := next.run rest
      (answer :: answers, last)

end Model

namespace Session

/-- Answers requests in order. -/
def run (session : Session V) : List (Request V) → List (Answer V) × Session V
  | [] => ([], session)
  | request :: rest =>
      let (answer, next) := session.perform request
      let (answers, last) := next.run rest
      (answer :: answers, last)

/-- A request frees no stored key. -/
def Spares (session : Session V) : Request V → Prop
  | .release ref => ref ∉ session.map.keys
  | _ => True

/-- No request of a run frees a key that is stored at the time. -/
def SparesKeys (session : Session V) : List (Request V) → Prop
  | [] => True
  | request :: rest => session.Spares request ∧ (session.perform request).2.SparesKeys rest

instance (session : Session V) : (request : Request V) → Decidable (session.Spares request)
  | .release ref => inferInstanceAs (Decidable (ref ∉ session.map.keys))
  | .allocate _ | .put _ _ | .delete _ | .deleteBytes _ | .clear | .get _ | .getBytes _
  | .contains _ | .keyOfBytes _ => isTrue trivial

instance decidableSparesKeys (session : Session V) :
    (requests : List (Request V)) → Decidable (session.SparesKeys requests)
  | [] => isTrue trivial
  | request :: rest =>
      have := decidableSparesKeys (session.perform request).2 rest
      inferInstanceAs (Decidable (_ ∧ _))

end Session

/-! ## Simulation -/

/-- A session stands for a model. -/
structure Simulates (session : Session V) (model : Model V) : Prop where
  heap_eq : session.heap = model.heap
  hashed : session.heap.Hashed
  balanced : Balanced session.map
  sound : Sound session.heap session.map
  listed : model.contents.ListedBy session.heap session.map.entries

theorem simulates_empty : Simulates ({} : Session V) {} := by
  refine ⟨rfl, StringHeap.hashed_empty, balanced_empty, sound_empty _, fun bytes key value => ?_⟩
  simp [entries]

theorem Simulates.entry?_eq {session : Session V} {model : Model V}
    (simulates : Simulates session model) (bytes : List UInt8) :
    session.map.entry? session.heap (.ofBytes bytes) = model.contents bytes := by
  apply Option.ext
  rintro ⟨key, value⟩
  rw [simulates.sound.entry?_ofBytes_eq_some_iff simulates.balanced]
  exact (simulates.listed bytes key value).symm

theorem Simulates.of_heap {session : Session V} {model : Model V} {heap : StringHeap}
    (simulates : Simulates session model) (hashed : heap.Hashed)
    (same : ∀ key ∈ session.map.keys, heap.bytes? key = session.heap.bytes? key) :
    Simulates { session with heap } { model with heap } := by
  refine ⟨rfl, hashed, simulates.balanced, simulates.sound.of_bytes?_eq same, ?_⟩
  intro bytes key value
  rw [simulates.listed bytes key value]
  refine and_congr_right fun member => ?_
  rw [same key (List.mem_map_of_mem member)]

theorem allocated_eq (heap : StringHeap) (bytes : List UInt8) :
    allocated heap bytes = heap.store bytes ∨ allocated heap bytes = heap := by
  unfold allocated
  split
  · rename_i ref after success
    exact .inl (StringHeap.alloc_eq_ok_iff.mp success).2.2
  · exact .inr rfl

theorem Simulates.allocate {session : Session V} {model : Model V}
    (simulates : Simulates session model) (bytes : List UInt8) :
    Simulates { session with heap := allocated session.heap bytes }
      { model with heap := allocated model.heap bytes } := by
  rw [← simulates.heap_eq]
  rcases allocated_eq session.heap bytes with stored | failed
  · rw [stored]
    refine simulates.of_heap (simulates.hashed.store bytes) fun key member => ?_
    obtain ⟨content, live⟩ := simulates.sound.exists_bytes?_of_mem_keys member
    rw [StringHeap.bytes?_store, if_neg (StringHeap.ne_nextRef_of_bytes? live)]
  · rw [failed]
    exact simulates.of_heap simulates.hashed fun _ _ => rfl

theorem Simulates.release {session : Session V} {model : Model V} {ref : StringRef}
    (simulates : Simulates session model) (spared : ref ∉ session.map.keys) :
    Simulates { session with heap := (session.heap.free ref).2 }
      { model with heap := (model.heap.free ref).2 } := by
  rw [← simulates.heap_eq]
  refine simulates.of_heap (simulates.hashed.free ref) fun key member => ?_
  rw [StringHeap.bytes?_free, if_neg]
  rintro rfl
  exact spared member

/-- The value of an isolated entry is what the model holds. -/
theorem Simulates.contents_eq {session : Session V} {model : Model V} {bytes : List UInt8}
    {key : StringRef} {old : V} {others : List (StringRef × V)}
    (simulates : Simulates session model)
    (isolated : Isolates session.heap bytes session.map.entries (key, old) others) :
    model.contents bytes = some (key, old) :=
  (simulates.listed bytes key old).mpr
    ⟨isolated.perm.mem_iff.mpr List.mem_cons_self, isolated.content⟩

theorem Simulates.contents_eq_none {session : Session V} {model : Model V} {bytes : List UInt8}
    (simulates : Simulates session model)
    (absent : ∀ entry ∈ session.map.entries, session.heap.bytes? entry.1 ≠ some bytes) :
    model.contents bytes = none := by
  cases found : model.contents bytes with
  | none => rfl
  | some entry =>
      obtain ⟨member, content⟩ := (simulates.listed bytes entry.1 entry.2).mp found
      exact absurd content (absent entry member)

theorem Simulates.put {session : Session V} {model : Model V} (simulates : Simulates session model)
    (key : StringRef) (value : V) :
    (session.perform (.put key value)).1 = (model.perform (.put key value)).1 ∧
      Simulates (session.perform (.put key value)).2 (model.perform (.put key value)).2 := by
  simp only [Session.perform, Model.perform, ← simulates.heap_eq]
  cases live : session.heap.bytes? key with
  | none =>
      have dead : session.heap.get? key = none := by simpa [StringHeap.bytes?] using live
      simp only [ContentMap.put, dead]
      exact ⟨trivial, simulates⟩
  | some bytes =>
      obtain ⟨previous, result, done, balanced, sound, effect⟩ :=
        simulates.sound.exists_put_eq_ok simulates.balanced simulates.hashed live value
      simp only [done]
      rcases effect with ⟨stored, old, others, isolated, rfl, permuted⟩ | ⟨absent, rfl, permuted⟩
      · have current := simulates.contents_eq isolated
        have erased := (simulates.listed.perm isolated.perm.symm).erase isolated.content
          isolated.absent
        have assigned := erased.assign (stored, value) isolated.content isolated.absent
        refine ⟨by simp [Model.value?, current], rfl, simulates.hashed, balanced, sound, ?_⟩
        rw [Contents.assign_erase] at assigned
        simpa [Model.key?, current] using assigned.perm permuted
      · have none := simulates.contents_eq_none absent
        have assigned := simulates.listed.assign (key, value) live absent
        refine ⟨by simp [Model.value?, none], rfl, simulates.hashed, balanced, sound, ?_⟩
        simpa [Model.key?, none] using assigned.perm permuted

theorem Simulates.deleteBytes {session : Session V} {model : Model V}
    (simulates : Simulates session model) (bytes : List UInt8) :
    (session.perform (.deleteBytes bytes)).1 = (model.perform (.deleteBytes bytes)).1 ∧
      Simulates (session.perform (.deleteBytes bytes)).2
        (model.perform (.deleteBytes bytes)).2 := by
  obtain ⟨balanced, sound, effect⟩ := simulates.sound.take_ofBytes simulates.balanced bytes
  simp only [Session.perform, Model.perform, ContentMap.deleteBytes]
  rcases effect with ⟨key, old, others, isolated, removed, remaining⟩ | ⟨absent, unchanged⟩
  · have current := simulates.contents_eq isolated
    refine ⟨by simp [Model.value?, current, removed], simulates.heap_eq, simulates.hashed,
      balanced, sound, ?_⟩
    rw [remaining]
    exact (simulates.listed.perm isolated.perm.symm).erase isolated.content isolated.absent
  · have none := simulates.contents_eq_none absent
    rw [unchanged, simulates.listed.erase_eq_self absent]
    exact ⟨by simp [Model.value?, none], simulates⟩

theorem Simulates.delete {session : Session V} {model : Model V}
    (simulates : Simulates session model) (key : StringRef) :
    (session.perform (.delete key)).1 = (model.perform (.delete key)).1 ∧
      Simulates (session.perform (.delete key)).2 (model.perform (.delete key)).2 := by
  cases live : session.heap.bytes? key with
  | none =>
      have dead : session.heap.get? key = none := by simpa [StringHeap.bytes?] using live
      simp only [Session.perform, Model.perform, ContentMap.delete, dead, ← simulates.heap_eq, live]
      exact ⟨trivial, simulates⟩
  | some bytes =>
      have by_content := simulates.deleteBytes bytes
      simp only [Session.perform, Model.perform,
        simulates.sound.delete_eq_deleteBytes simulates.hashed live] at by_content ⊢
      simpa only [← simulates.heap_eq, live] using by_content

theorem Simulates.get?_eq {session : Session V} {model : Model V}
    (simulates : Simulates session model) (key : StringRef) :
    session.map.get? session.heap key = (model.heap.bytes? key).bind model.value? := by
  rw [← simulates.heap_eq]
  cases live : session.heap.bytes? key with
  | none =>
      have dead : session.heap.get? key = none := by simpa [StringHeap.bytes?] using live
      simp [ContentMap.get?, dead]
  | some bytes =>
      rw [simulates.sound.get?_eq_getBytes? simulates.hashed live, getBytes?,
        simulates.entry?_eq bytes]
      rfl

/-- One request keeps a session and its model in step. -/
theorem Simulates.perform {session : Session V} {model : Model V}
    (simulates : Simulates session model) {request : Request V} (spared : session.Spares request) :
    (session.perform request).1 = (model.perform request).1 ∧
      Simulates (session.perform request).2 (model.perform request).2 := by
  cases request with
  | allocate bytes => exact ⟨rfl, simulates.allocate bytes⟩
  | release ref => exact ⟨rfl, simulates.release spared⟩
  | put key value => exact simulates.put key value
  | delete key => exact simulates.delete key
  | deleteBytes bytes => exact simulates.deleteBytes bytes
  | clear =>
      refine ⟨rfl, simulates.heap_eq, simulates.hashed, simulates.balanced.clear, sound_clear _ _,
        fun bytes key value => ?_⟩
      simp [Session.perform, Model.perform, entries_clear]
  | get key => exact ⟨congrArg Answer.value (simulates.get?_eq key), simulates⟩
  | contains key =>
      exact ⟨congrArg (Answer.presence ∘ Option.isSome) (simulates.get?_eq key), simulates⟩
  | getBytes bytes =>
      refine ⟨?_, simulates⟩
      simp only [Session.perform, Model.perform, getBytes?, simulates.entry?_eq bytes, Model.value?]
  | keyOfBytes bytes =>
      refine ⟨?_, simulates⟩
      simp only [Session.perform, Model.perform, keyOfBytes?, simulates.entry?_eq bytes, Model.key?]

theorem Simulates.run {session : Session V} {model : Model V} (simulates : Simulates session model)
    {requests : List (Request V)} (spared : session.SparesKeys requests) :
    (session.run requests).1 = (model.run requests).1 ∧
      Simulates (session.run requests).2 (model.run requests).2 := by
  induction requests generalizing session model with
  | nil => exact ⟨rfl, simulates⟩
  | cons request rest induction =>
      obtain ⟨answer_eq, next⟩ := simulates.perform spared.1
      obtain ⟨answers_eq, last⟩ := induction next spared.2
      exact ⟨congrArg₂ List.cons answer_eq answers_eq, last⟩

/-- What a client can observe of a session that stands for a model. -/
structure Mirrors (session : Session V) (model : Model V) : Prop where
  heap_eq : session.heap = model.heap
  /-- The entries are those of the function, -/
  listed : model.contents.ListedBy session.heap session.map.entries
  /-- all of them have contents, -/
  live : ∀ entry ∈ session.map.entries, ∃ bytes, session.heap.bytes? entry.1 = some bytes
  /-- and no two of them the same. -/
  distinct : (session.map.entries.map fun entry => session.heap.bytes? entry.1).Nodup
  /-- A live handle is as good as its content. -/
  by_handle : ∀ key bytes, session.heap.bytes? key = some bytes →
    session.map.get? session.heap key = session.map.getBytes? session.heap bytes ∧
      session.map.delete session.heap key = session.map.deleteBytes session.heap bytes
  /-- A freed handle stores nothing. -/
  stale : ∀ key value, session.heap.bytes? key = none →
    session.perform (.put key value) = (.stored (.error .staleString), session)

theorem Simulates.mirrors {session : Session V} {model : Model V}
    (simulates : Simulates session model) : Mirrors session model where
  heap_eq := simulates.heap_eq
  listed := simulates.listed
  live entry member := simulates.sound.exists_bytes?_of_mem_keys (List.mem_map_of_mem member)
  distinct := simulates.sound.distinct
  by_handle key bytes live :=
    ⟨simulates.sound.get?_eq_getBytes? simulates.hashed live,
      simulates.sound.delete_eq_deleteBytes simulates.hashed live⟩
  stale key value dead := by
    have gone : session.heap.get? key = none := by simpa [StringHeap.bytes?] using dead
    simp only [Session.perform, ContentMap.put, gone]

/-- As long as no stored key is freed, a map answers every request as a function on contents does,
and its entries list that function. -/
theorem run_mirrors_model (requests : List (Request V))
    (spared : ({} : Session V).SparesKeys requests) :
    (({} : Session V).run requests).1 = (({} : Model V).run requests).1 ∧
      Mirrors (({} : Session V).run requests).2 (({} : Model V).run requests).2 := by
  obtain ⟨answers_eq, simulates⟩ := simulates_empty.run spared
  exact ⟨answers_eq, simulates.mirrors⟩

/-- Two handles of one content, the second of which replaces, deletes and stores again; a third
handle is freed and then refused. -/
theorem run_mirrors_model_two_handles :
    let requests : List (Request Nat) :=
      [.allocate [0x61], .allocate [0x61], .allocate [0x62], .put ⟨0⟩ 1, .put ⟨1⟩ 2,
        .keyOfBytes [0x61], .release ⟨2⟩, .put ⟨2⟩ 3, .delete ⟨1⟩, .put ⟨1⟩ 4, .getBytes [0x61]]
    ({} : Session Nat).SparesKeys requests ∧
      (({} : Session Nat).run requests).1 =
        [.done, .done, .done, .stored (.ok none), .stored (.ok (some 1)), .key (some ⟨0⟩), .done,
          .stored (.error .staleString), .value (some 2), .stored (.ok none), .value (some 4)] ∧
      (({} : Session Nat).run requests).1 = (({} : Model Nat).run requests).1 ∧
      Mirrors (({} : Session Nat).run requests).2 (({} : Model Nat).run requests).2 := by
  intro requests
  have spared : ({} : Session Nat).SparesKeys requests := by decide +kernel
  exact ⟨spared, by rfl, run_mirrors_model requests spared⟩

end ContentMap

end StackMachine
