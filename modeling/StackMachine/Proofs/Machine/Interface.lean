import StackMachine.Proofs.Machine.Intact

/-!
# The interface keeps machines intact

Every call that always ends allocates strings, frees none and keeps the machine intact; the values
it gives are live.
-/

namespace StackMachine

/-- Interning gives a live string of the content, allocated or found. -/
theorem StringPool.intern_eq_ok {pool : StringPool} {heap : StringHeap} {bytes : List UInt8}
    {interned : StringPool.Interned} (done : pool.intern heap bytes = .ok interned) :
    interned.heap.bytes? interned.ref = some bytes ∧
      (interned.heap = heap ∨ interned.heap = heap.store bytes) := by
  rcases intern_cases done with ⟨ref, content, rfl⟩ | ⟨_, rfl⟩
  · exact ⟨content, .inl rfl⟩
  · exact ⟨by rw [StringHeap.bytes?_store, if_pos rfl], .inr rfl⟩

namespace Machine

variable {onlyBuiltins : Bool} {machine : Machine}

theorem Extends.remember {before after : Machine} (extended : Extends onlyBuiltins before after)
    (error : MachineError) : Extends onlyBuiltins before (after.remember error) :=
  IsTrans.trans _ _ _ extended (extends_of_same rfl rfl rfl rfl rfl)

theorem keeps_recorded {α : Type} {update : Update α} {given : α → Machine → Prop}
    (kept : update.Keeps (Extends onlyBuiltins) machine given) :
    (Update.recorded update).Keeps (Extends onlyBuiltins) machine given :=
  kept.recorded fun _ error extended => extended.remember error

/-! ## Strings -/

theorem keeps_allocateWith (tell : Collector → StringRef → Nat → Bool × Collector)
    (bytes : List UInt8) :
    (allocateWith tell bytes).Keeps (Extends onlyBuiltins) machine fun ref after =>
      after.heap.Live ref := by
  refine (Update.Keeps.ofStorage _).bind fun _ after _ same => ?_
  obtain ⟨_, rfl⟩ := same
  refine (Update.Keeps.modifyGet (extends_store bytes _)).mono fun ref after _ stored => ?_
  cases stored
  exact StringHeap.live_nextRef_store _ bytes

theorem keeps_allocate (bytes : List UInt8) :
    (allocate bytes).Keeps (Extends onlyBuiltins) machine fun ref after => after.heap.Live ref :=
  keeps_allocateWith Collector.track bytes

theorem keeps_newString (bytes : List UInt8) :
    (newString bytes).Keeps (Extends onlyBuiltins) machine fun value after =>
      value.LiveIn after.heap := by
  refine keeps_recorded ((keeps_allocate bytes).bind fun ref after _ live => ?_)
  exact .pure (Value.liveIn_string.mpr live)

/-- Taking over the heap and the pool after interning. -/
theorem extends_interned {bytes : List UInt8} {interned : StringPool.Interned}
    (collector : Collector) (done : machine.pool.intern machine.heap bytes = .ok interned) :
    Extends onlyBuiltins machine
      { machine with heap := interned.heap, pool := interned.pool, collector } := by
  rcases (StringPool.intern_eq_ok done).2 with same | stored
  · exact extends_of_same same rfl rfl rfl rfl
  · rw [stored]
    exact IsTrans.trans _ _ _ (extends_store bytes collector)
      (extends_of_same rfl rfl rfl rfl rfl)

theorem keeps_intern (text : String) :
    (intern text).Keeps (Extends onlyBuiltins) machine fun value after =>
      value.LiveIn after.heap := by
  refine keeps_recorded (.get_bind ?_)
  refine (Update.Keeps.ofStorage _).bind fun interned after _ found => ?_
  obtain ⟨done, rfl⟩ := found
  refine (Update.Keeps.set (extends_interned _ done)).bind fun _ after _ changed => ?_
  subst changed
  exact .pure (Value.liveIn_string.mpr ⟨_, (StringPool.intern_eq_ok done).1⟩)

theorem keeps_requireLive {relation : Machine → Machine → Prop} [Std.Refl relation]
    (value : Value) :
    (requireLive value).Keeps relation machine fun _ after =>
      value.LiveIn after.heap ∧ after = machine := by
  cases value with
  | string ref =>
      refine .get_bind ?_
      by_cases live : machine.heap.contains ref = true
      · simp only [live]
        exact .pure ⟨Value.liveIn_string.mpr (StringHeap.live_iff_contains.mpr live), rfl⟩
      · simp only [live]
        exact .throw
  | _ => exact .pure ⟨Value.liveIn_of_string?_eq_none rfl, rfl⟩

/-! ## Programs -/

theorem keeps_requireOutsideNative (what : String) :
    (requireOutsideNative what).Keeps (Extends onlyBuiltins) machine fun _ after =>
      after = machine := by
  refine .get_bind ?_
  cases machine.inNative with
  | true => exact .throw
  | false => exact .pure rfl

theorem keeps_addConstant (bytes : List UInt8) :
    (addConstant bytes).Keeps (Extends onlyBuiltins) machine fun ref after =>
      after.heap.Live ref := by
  refine .get_bind ?_
  cases machine.sharesConstants with
  | true =>
      refine .get_bind ((Update.Keeps.ofStorage _).bind fun interned after _ found => ?_)
      obtain ⟨done, rfl⟩ := found
      refine (Update.Keeps.set (extends_interned _ done)).bind fun _ after _ changed => ?_
      subst changed
      exact .pure ⟨_, (StringPool.intern_eq_ok done).1⟩
  | false => exact keeps_allocateWith Collector.trackBorrowed bytes

/-- The constants are all live once the last one is on the heap, since none is freed meanwhile. -/
theorem keeps_addConstants (contents : List (List UInt8)) (intact : machine.Intact onlyBuiltins) :
    (addConstants contents).Keeps (Extends onlyBuiltins) machine fun refs after =>
      ∀ ref ∈ refs, after.heap.Live ref := by
  induction contents generalizing machine with
  | nil => exact .pure fun ref member => absurd member List.not_mem_nil
  | cons bytes rest induction =>
      refine (keeps_addConstant bytes).bind fun ref middle extended live => ?_
      have middle_intact := (extended intact).1
      refine (induction middle_intact).bind fun refs last later lives => ?_
      refine .pure fun found member => ?_
      rcases List.mem_cons.mp member with rfl | member
      · exact live.preserved (later middle_intact).2.2
      · exact lives found member

theorem keeps_install (program : Program) (intact : machine.Intact onlyBuiltins) :
    (install program).Keeps (Extends onlyBuiltins) machine fun _ _ => True := by
  refine (keeps_addConstants program.strings intact).bind fun constants after _ lives => ?_
  refine (Update.Keeps.modify (extends_of_heap_eq rfl fun after_intact => ?_)).mono
    fun _ _ _ _ => trivial
  exact
    { after_intact with
      stack := fun value member => by simp at member
      constants := lives }

theorem keeps_load (image : List UInt8) (intact : machine.Intact onlyBuiltins) :
    (load image).Keeps (Extends onlyBuiltins) machine fun _ _ => True := by
  refine keeps_recorded ((keeps_requireOutsideNative _).bind fun _ after _ same => ?_)
  subst same
  refine (Update.Keeps.ofExcept _).bind fun program after _ read => ?_
  obtain ⟨_, rfl⟩ := read
  exact keeps_install program intact

theorem keeps_loadProgram (program : Program) (intact : machine.Intact onlyBuiltins) :
    (loadProgram program).Keeps (Extends onlyBuiltins) machine fun _ _ => True := by
  refine keeps_recorded ((keeps_requireOutsideNative _).bind fun _ after _ same => ?_)
  subst same
  refine (Update.Keeps.ofExcept _).bind fun _ after _ verified => ?_
  obtain ⟨_, rfl⟩ := verified
  exact keeps_install program intact

theorem keeps_reset : reset.Keeps (Extends onlyBuiltins) machine fun _ _ => True := by
  refine keeps_recorded ((keeps_requireOutsideNative _).bind fun _ after _ same => ?_)
  subst same
  refine (Update.Keeps.modify (extends_of_heap_eq rfl fun intact => ?_)).mono
    fun _ _ _ _ => trivial
  exact { intact with stack := fun value member => by simp at member }

/-! ## Natives -/

/-- The key for a content is found in a map or allocated. -/
theorem keeps_keyOrAllocate {V α : Type} (map : ContentMap V) (bytes : List UInt8)
    {next : StringRef → Update α} {given : α → Machine → Prop}
    (continued : ∀ key after, Extends onlyBuiltins machine after →
      (next key).Keeps (Extends onlyBuiltins) after given) :
    (match map.keyOfBytes? machine.heap bytes with
      | some key => pure key >>= next
      | none => allocate bytes >>= next).Keeps (Extends onlyBuiltins) machine given := by
  cases map.keyOfBytes? machine.heap bytes with
  | some key => exact continued key machine (Std.Refl.refl machine)
  | none => exact (keeps_allocate bytes).bind fun key after extended _ =>
      continued key after extended

theorem keeps_putNative (entry : NativeEntry) (admitted : entry.native.Admitted onlyBuiltins) :
    (putNative entry).Keeps (Extends onlyBuiltins) machine fun _ _ => True := by
  refine .get_bind (keeps_keyOrAllocate machine.natives _ fun key middle _ => ?_)
  refine .get_bind ((Update.Keeps.ofStorage _).bind fun result after _ stored => ?_)
  obtain ⟨previous, natives⟩ := result
  obtain ⟨done, rfl⟩ := stored
  refine (Update.Keeps.set ?_).mono fun _ _ _ _ => trivial
  refine extends_of_heap_eq rfl fun intact => ?_
  obtain ⟨balanced, sound, known⟩ :=
    intact.natives_sound.of_put_eq_ok intact.natives_balanced intact.hashed done
  refine
    { intact with
      natives_balanced := balanced
      natives_sound := sound
      natives_admitted := fun stored member => ?_ }
  rcases known stored member with old | new
  · exact intact.natives_admitted stored old
  · rw [new]
    exact admitted

theorem keeps_register (name : String) (signature : Option String) {native : Native}
    (admitted : native.Admitted onlyBuiltins) :
    (register name signature native).Keeps (Extends onlyBuiltins) machine fun _ _ => True := by
  refine keeps_recorded ?_
  cases signature with
  | none => exact keeps_putNative _ admitted
  | some text =>
      exact (Update.Keeps.ofExcept (Signature.read text)).bind fun signature after _ _ =>
        keeps_putNative ⟨name, native, some signature⟩ admitted

theorem extends_unregister (name : String) :
    Extends onlyBuiltins machine (machine.unregister name).2 := by
  refine extends_of_heap_eq rfl fun intact => ?_
  obtain ⟨balanced, sound, _⟩ :=
    intact.natives_sound.take_ofBytes intact.natives_balanced (Utf8.encode name.toList)
  exact
    { intact with
      natives_balanced := balanced
      natives_sound := sound
      natives_admitted := fun entry member => intact.natives_admitted entry
        (intact.natives_sound.mem_of_mem_deleteBytes intact.natives_balanced _ member) }

/-! ## Globals -/

/-- Setting a global to a live value under any key. -/
theorem extends_put_globals {key : StringRef} {value : Value} {previous : Option Value}
    {globals : ContentMap Value} (live : value.LiveIn machine.heap)
    (done : machine.globals.put machine.heap key value = .ok (previous, globals)) :
    Extends onlyBuiltins machine { machine with globals } := by
  refine extends_of_heap_eq rfl fun intact => ?_
  obtain ⟨balanced, sound, known⟩ :=
    intact.globals_sound.of_put_eq_ok intact.globals_balanced intact.hashed done
  refine
    { intact with
      globals_balanced := balanced
      globals_sound := sound
      globals_live := fun stored member => ?_ }
  rcases known stored member with old | new
  · exact intact.globals_live stored old
  · rw [new]
    exact live

theorem Intact.admitted_of_get? (intact : machine.Intact onlyBuiltins) {key : StringRef}
    {entry : NativeEntry} (registered : machine.natives.get? machine.heap key = some entry) :
    entry.native.Admitted onlyBuiltins := by
  obtain ⟨stored, member⟩ :=
    intact.natives_sound.exists_mem_of_get? intact.natives_balanced intact.hashed registered
  exact intact.natives_admitted (stored, entry) member

/-- The value of a global is live. -/
theorem Intact.liveIn_of_getBytes? (intact : machine.Intact onlyBuiltins) {bytes : List UInt8}
    {value : Value} (found : machine.globals.getBytes? machine.heap bytes = some value) :
    value.LiveIn machine.heap := by
  obtain ⟨key, stored⟩ := intact.globals_sound.exists_mem_of_getBytes? intact.globals_balanced found
  exact intact.globals_live (key, value) stored

theorem keeps_getGlobal (name : String) (intact : machine.Intact onlyBuiltins) :
    (getGlobal name).Keeps (Extends onlyBuiltins) machine fun value after =>
      value.LiveIn after.heap := by
  refine keeps_recorded (.get_bind ?_)
  cases found : machine.globals.getBytes? machine.heap (Utf8.encode name.toList) with
  | some value => exact .pure (intact.liveIn_of_getBytes? found)
  | none => exact .throw

theorem keeps_setGlobal (name : String) (value : Value) (intact : machine.Intact onlyBuiltins) :
    (setGlobal name value).Keeps (Extends onlyBuiltins) machine fun _ _ => True := by
  refine keeps_recorded ((keeps_requireLive value).bind fun _ checked _ live => ?_)
  obtain ⟨live, rfl⟩ := live
  refine .get_bind (keeps_keyOrAllocate checked.globals _ fun key middle extended => ?_)
  refine .get_bind ((Update.Keeps.ofStorage _).bind fun result after _ stored => ?_)
  obtain ⟨previous, globals⟩ := result
  obtain ⟨done, rfl⟩ := stored
  have live' := live.preserved (extended intact).2.2
  exact (Update.Keeps.set (extends_put_globals live' done)).mono fun _ _ _ _ => trivial

/-! ## Stack -/

theorem keeps_pushOperand {value : Value} (live : value.LiveIn machine.heap) :
    (pushOperand value).Keeps (Extends onlyBuiltins) machine fun _ _ => True := by
  refine .get_bind ((Update.Keeps.ofExcept _).bind fun stack after _ pushed => ?_)
  obtain ⟨done, rfl⟩ := pushed
  refine (Update.Keeps.set ?_).mono fun _ _ _ _ => trivial
  refine extends_of_heap_eq rfl fun intact => ?_
  refine intact.withStack fun found member => ?_
  rw [OperandStack.toList_of_push done, List.mem_append, List.mem_singleton] at member
  rcases member with below | rfl
  · exact intact.stack found below
  · exact live

theorem keeps_push (value : Value) :
    (push value).Keeps (Extends onlyBuiltins) machine fun _ _ => True := by
  refine keeps_recorded ((keeps_requireLive value).bind fun _ after _ live => ?_)
  obtain ⟨live, rfl⟩ := live
  exact keeps_pushOperand live

/-- A stack whose values were on the stack before. -/
theorem extends_withStack {stack : OperandStack}
    (known : ∀ value ∈ stack.toList, value ∈ machine.stack.toList) :
    Extends onlyBuiltins machine { machine with stack } :=
  extends_of_heap_eq rfl fun intact =>
    intact.withStack fun value member => intact.stack value (known value member)

theorem extends_pop : Extends onlyBuiltins machine machine.pop.2 := by
  unfold pop
  split
  · rename_i value stack popped
    refine extends_withStack fun found member => ?_
    rw [OperandStack.toList_of_pop popped]
    exact List.mem_append_left _ member
  · exact Std.Refl.refl machine

/-! ## Output -/

theorem keeps_write (bytes : List UInt8) :
    (write bytes).Keeps (Extends onlyBuiltins) machine fun _ after =>
      after.heap = machine.heap := by
  refine .get_bind ?_
  rcases machine.sink.write bytes with ⟨complete, sink⟩
  have changed : Extends onlyBuiltins machine { machine with sink } :=
    extends_of_same rfl rfl rfl rfl rfl
  refine (Update.Keeps.set changed).bind fun _ after _ written => ?_
  subst written
  cases complete with
  | true => exact .pure rfl
  | false => exact .throw

end Machine

end StackMachine
