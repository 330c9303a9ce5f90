import StackMachine.Proofs.Machine.Alike
import StackMachine.Proofs.Machine.Routine

/-!
# Updates of machines that look alike

Two updates agree on two machines when both fail with one error or both succeed with results that
look alike, and the machines look alike afterwards.  Every call that always ends agrees with itself,
and putting a constant on the heap agrees with finding it there.
-/

namespace StackMachine

variable {α β : Type} {left right : Machine}

/-! ## Agreement -/

/-- Machines that look alike and have kept the strings of two others. -/
structure Machine.Grown (left right later later' : Machine) : Prop where
  alike : later.Alike later'
  left_preserved : left.heap.Preserves later.heap
  right_preserved : right.heap.Preserves later'.heap

theorem Machine.Grown.refl (alike : left.Alike right) : left.Grown right left right :=
  ⟨alike, .refl _, .refl _⟩

theorem Machine.Grown.trans {middle middle' later later' : Machine}
    (first : left.Grown right middle middle') (second : middle.Grown middle' later later') :
    left.Grown right later later' :=
  ⟨second.alike, first.left_preserved.trans second.left_preserved,
    first.right_preserved.trans second.right_preserved⟩

/-- Outcomes with results that agree, on machines in some relation. -/
def OutcomesAgree (kept : Machine → Machine → Prop) (given : α → α → Machine → Machine → Prop)
    (outcome outcome' : Except MachineError α × Machine) : Prop :=
  kept outcome.2 outcome'.2 ∧
    ResultsAgree (fun value value' => given value value' outcome.2 outcome'.2) outcome.1 outcome'.1

theorem OutcomesAgree.cases {kept : Machine → Machine → Prop}
    {given : α → α → Machine → Machine → Prop} {outcome outcome' : Except MachineError α × Machine}
    (agree : OutcomesAgree kept given outcome outcome') :
    (∃ error later later', outcome = (.error error, later) ∧ outcome' = (.error error, later') ∧
      kept later later') ∨
      ∃ value value' later later', outcome = (.ok value, later) ∧ outcome' = (.ok value', later') ∧
        kept later later' ∧ given value value' later later' := by
  obtain ⟨result, later⟩ := outcome
  obtain ⟨result', later'⟩ := outcome'
  obtain ⟨related, results⟩ := agree
  simp only at results
  cases results with
  | error reason => exact .inl ⟨reason, later, later', rfl, rfl, related⟩
  | ok held => exact .inr ⟨_, _, later, later', rfl, rfl, related, held⟩

namespace Update

/-- Updates whose outcomes agree on two machines that go on looking alike. -/
def Agrees (update update' : Update α) (left right : Machine)
    (given : α → α → Machine → Machine → Prop) : Prop :=
  OutcomesAgree (left.Grown right) given (update.apply left) (update'.apply right)

variable {given : α → α → Machine → Machine → Prop} {last : β → β → Machine → Machine → Prop}

theorem Agrees.bind {first first' : Update α} {next next' : α → Update β}
    (before : first.Agrees first' left right given)
    (continued : ∀ value value' later later', left.Grown right later later' →
      given value value' later later' → (next value).Agrees (next' value') later later' last) :
    (first >>= next).Agrees (first' >>= next') left right last := by
  rw [Agrees, apply_bind, apply_bind]
  rcases before.cases with ⟨error, later, later', failed, failed', grown⟩ |
    ⟨value, value', later, later', done, done', grown, held⟩
  · rw [failed, failed']
    exact ⟨grown, .error error⟩
  · rw [done, done']
    obtain ⟨further, results⟩ := continued value value' later later' grown held
    exact ⟨grown.trans further, results⟩

theorem Agrees.pure {value value' : α} (alike : left.Alike right)
    (held : given value value' left right) :
    (pure value : Update α).Agrees (pure value') left right given :=
  ⟨.refl alike, .ok held⟩

theorem Agrees.throw (alike : left.Alike right) (error : MachineError) :
    (throw error : Update α).Agrees (throw error) left right given :=
  ⟨.refl alike, .error error⟩

theorem Agrees.get_bind {next next' : Machine → Update β}
    (continued : (next left).Agrees (next' right) left right last) :
    (get >>= next : Update β).Agrees (get >>= next') left right last := by
  rw [Agrees, apply_bind, apply_bind]
  exact continued

/-- Changes of two machines that keep their heaps. -/
theorem Agrees.set {later later' : Machine} {given : PUnit → PUnit → Machine → Machine → Prop}
    (heap_eq : later.heap = left.heap) (heap_eq' : later'.heap = right.heap)
    (alike : later.Alike later') (held : given ⟨⟩ ⟨⟩ later later') :
    (MonadStateOf.set later : Update PUnit).Agrees (MonadStateOf.set later') left right given := by
  refine ⟨⟨alike, ?_, ?_⟩, .ok held⟩
  · rw [← heap_eq]
    exact .refl _
  · rw [← heap_eq']
    exact .refl _

theorem Agrees.set_bind {later later' : Machine} {next next' : PUnit → Update β}
    (heap_eq : later.heap = left.heap) (heap_eq' : later'.heap = right.heap)
    (alike : later.Alike later') (continued : (next ⟨⟩).Agrees (next' ⟨⟩) later later' last) :
    (MonadStateOf.set later >>= next : Update β).Agrees
      (MonadStateOf.set later' >>= next') left right
      last := by
  refine Agrees.bind (Agrees.set heap_eq heap_eq' alike ⟨rfl, rfl⟩ :
    Agrees _ _ left right fun _ _ after after' => after = later ∧ after' = later') ?_
  rintro _ _ _ _ _ ⟨rfl, rfl⟩
  exact continued

theorem Agrees.ofExcept {related : α → α → Prop} {result result' : Except MachineError α}
    (alike : left.Alike right) (agree : ResultsAgree related result result') :
    (ofExcept result).Agrees (ofExcept result') left right fun value value' after after' =>
      related value value' ∧ after = left ∧ after' = right := by
  cases agree with
  | error reason => exact ⟨.refl alike, .error reason⟩
  | ok same => exact ⟨.refl alike, .ok ⟨same, rfl, rfl⟩⟩

theorem Agrees.ofStorage {related : α → α → Prop} {result result' : Except StorageError α}
    (alike : left.Alike right) (agree : ResultsAgree related result result') :
    (ofStorage result).Agrees (ofStorage result') left right fun value value' after after' =>
      related value value' ∧ after = left ∧ after' = right := by
  cases agree with
  | error reason => exact ⟨.refl alike, .error _⟩
  | ok same => exact ⟨.refl alike, .ok ⟨same, rfl, rfl⟩⟩

theorem Agrees.ofStack {related : α → α → Prop} {result result' : Except RuntimeFault α}
    (alike : left.Alike right) (agree : ResultsAgree related result result') :
    (ofStack result).Agrees (ofStack result') left right fun value value' after after' =>
      related value value' ∧ after = left ∧ after' = right := by
  cases agree with
  | error reason => exact ⟨.refl alike, .error _⟩
  | ok same => exact ⟨.refl alike, .ok ⟨same, rfl, rfl⟩⟩

theorem Agrees.recorded {update update' : Update α}
    (agrees : update.Agrees update' left right given) :
    (Update.recorded update).Agrees (Update.recorded update') left right given := by
  rw [Agrees, apply_recorded, apply_recorded]
  rcases agrees.cases with ⟨error, later, later', failed, failed', grown⟩ |
    ⟨value, value', later, later', done, done', grown, held⟩
  · rw [failed, failed']
    refine ⟨⟨?_, grown.left_preserved, grown.right_preserved⟩, .error error⟩
    exact { grown.alike with lastError_eq := rfl }
  · rw [done, done']
    exact ⟨grown, .ok held⟩

end Update

/-! ## Strings -/

/-- An update that puts a string of a given content on the heap, or finds it there. -/
inductive Update.Supplies (bytes : List UInt8) (update : Update StringRef)
    (machine : Machine) : Prop
  | refused (long : StringHeap.maxLength < bytes.length)
      (failed : update.apply machine = (.error (.ofStorage (.tooLong bytes.length)), machine))
  | supplied {ref : StringRef} {heap : StringHeap} {pool : StringPool} {collector : Collector}
      (short : bytes.length ≤ StringHeap.maxLength)
      (done : update.apply machine = (.ok ref, { machine with heap, pool, collector }))
      (preserved : machine.heap.Preserves heap) (tame : heap.Tame)
      (content : heap.bytes? ref = some bytes)

theorem Update.Supplies.agrees {bytes : List UInt8} {update update' : Update StringRef}
    (alike : left.Alike right) (supplies : update.Supplies bytes left)
    (supplies' : update'.Supplies bytes right) :
    update.Agrees update' left right fun ref ref' later later' =>
      later.heap.SameContent later'.heap ref ref' := by
  rw [Agrees]
  cases supplies with
  | refused long failed =>
      cases supplies' with
      | refused _ failed' =>
          rw [failed, failed']
          exact ⟨.refl alike, .error _⟩
      | supplied short => omega
  | supplied short done preserved tame content =>
      cases supplies' with
      | refused long => omega
      | supplied _ done' preserved' tame' content' =>
          rw [done, done']
          refine ⟨⟨?_, preserved, preserved'⟩, .ok ⟨bytes, content, content'⟩⟩
          refine Machine.Alike.of_right (Machine.Alike.of_left alike tame ?_) tame' ?_
          · exact fun ref _ bytes => preserved ref bytes
          · exact fun ref _ bytes => preserved' ref bytes

namespace Machine

variable {machine : Machine}

theorem supplies_allocateWith (tame : machine.heap.Tame)
    (tell : Collector → StringRef → Nat → Bool × Collector) (bytes : List UInt8) :
    (allocateWith tell bytes).Supplies bytes machine := by
  by_cases long : StringHeap.maxLength < bytes.length
  · refine .refused long ?_
    simp only [allocateWith, StringHeap.checkLength, if_pos long]
    rfl
  · have done : (allocateWith tell bytes).apply machine = (.ok machine.heap.nextRef, { machine with
        heap := machine.heap.store bytes
        collector := (tell machine.collector machine.heap.nextRef machine.heap.nextSlot).2 }) := by
      simp only [allocateWith, StringHeap.checkLength, if_neg long]
      rfl
    exact .supplied (by omega) done (machine.heap.preserves_store bytes) (tame.store (by omega))
      ((machine.heap.bytes?_store bytes _).trans (if_pos rfl))

/-- Sharing a constant gives a string of the content all the same. -/
theorem supplies_addConstant (tame : machine.heap.Tame) (bytes : List UInt8) :
    (addConstant bytes).Supplies bytes machine := by
  cases shares : machine.sharesConstants with
  | false =>
      have opened : (addConstant bytes).apply machine =
          (allocateWith Collector.trackBorrowed bytes).apply machine := by
        show (if machine.sharesConstants = true then _ else _ : Update StringRef).apply machine = _
        rw [shares]
        rfl
      cases supplies_allocateWith tame Collector.trackBorrowed bytes with
      | refused long failed => exact .refused long (opened.trans failed)
      | supplied short done preserved tame content =>
          exact .supplied short (opened.trans done) preserved tame content
  | true =>
      have opened : (addConstant bytes).apply machine =
          (do
            let interned ← Update.ofStorage (machine.pool.intern machine.heap bytes)
            set { machine with
              heap := interned.heap
              pool := interned.pool
              collector :=
                (machine.collector.trackBorrowed interned.ref
                  (interned.heap.slotOf interned.ref)).2 }
            return interned.ref : Update StringRef).apply machine := by
        show (if machine.sharesConstants = true then _ else _ : Update StringRef).apply machine = _
        rw [if_pos shares]
        rfl
      by_cases long : StringHeap.maxLength < bytes.length
      · rw [StringPool.intern_of_long tame long] at opened
        exact .refused long opened
      · obtain ⟨interned, found⟩ :=
          machine.pool.exists_intern_eq_ok machine.heap (Nat.not_lt.mp long)
        rw [found] at opened
        rcases StringPool.intern_cases found with ⟨ref, content, rfl⟩ | ⟨short, rfl⟩
        · exact .supplied (Nat.not_lt.mp long) opened (.refl _) tame content
        · exact .supplied short opened (machine.heap.preserves_store bytes) (tame.store short)
            ((machine.heap.bytes?_store bytes _).trans (if_pos rfl))

theorem agrees_allocate (alike : left.Alike right) (bytes : List UInt8) :
    (allocate bytes).Agrees (allocate bytes) left right fun ref ref' later later' =>
      later.heap.SameContent later'.heap ref ref' :=
  (supplies_allocateWith alike.left_tame _ bytes).agrees alike
    (supplies_allocateWith alike.right_tame _ bytes)

theorem agrees_newString (alike : left.Alike right) (bytes : List UInt8) :
    (newString bytes).Agrees (newString bytes) left right fun value value' later later' =>
      Value.Alike later.heap later'.heap value value' := by
  refine .recorded ((agrees_allocate alike bytes).bind fun ref ref' later later' grown same => ?_)
  exact .pure grown.alike (.string same)

theorem agrees_requireLive (alike : left.Alike right) {value value' : Value}
    (same : Value.Alike left.heap right.heap value value') :
    (requireLive value).Agrees (requireLive value') left right fun _ _ later later' =>
      later = left ∧ later' = right := by
  cases same with
  | string same =>
      obtain ⟨bytes, content, content'⟩ := same
      have live := StringHeap.live_iff_contains.mp ⟨bytes, content⟩
      have live' := StringHeap.live_iff_contains.mp ⟨bytes, content'⟩
      refine .get_bind ?_
      simp only [live, live']
      exact .pure alike ⟨rfl, rfl⟩
  | plain none =>
      cases value with
      | string ref => cases none
      | _ => exact .pure alike ⟨rfl, rfl⟩

/-! ## Programs -/

theorem agrees_requireOutsideNative (alike : left.Alike right) (what : String) :
    (requireOutsideNative what).Agrees (requireOutsideNative what) left right
      fun _ _ later later' => later = left ∧ later' = right := by
  refine .get_bind ?_
  rw [alike.inNative_eq]
  cases right.inNative with
  | true => exact .throw alike _
  | false => exact .pure alike ⟨rfl, rfl⟩

theorem agrees_addConstants (alike : left.Alike right) (contents : List (List UInt8)) :
    (addConstants contents).Agrees (addConstants contents) left right fun refs refs' later later' =>
      List.Forall₂ (later.heap.SameContent later'.heap) refs refs' := by
  induction contents generalizing left right with
  | nil => exact .pure alike .nil
  | cons bytes rest induction =>
      have added := (supplies_addConstant alike.left_tame bytes).agrees alike
        (supplies_addConstant alike.right_tame bytes)
      refine added.bind fun ref ref' middle middle' grown same => ?_
      refine (induction grown.alike).bind fun refs refs' later later' further all => ?_
      exact .pure further.alike
        (.cons (same.preserved further.left_preserved further.right_preserved) all)

theorem agrees_install (alike : left.Alike right) (program : Program) :
    (install program).Agrees (install program) left right fun _ _ _ _ => True := by
  refine (agrees_addConstants alike program.strings).bind
    fun constants constants' later later' grown same => ?_
  refine Update.Agrees.set rfl rfl ?_ trivial
  exact
    { grown.alike with
      stack := grown.alike.stack.clear
      code_eq := rfl
      constants := same
      offset_eq := rfl
      phase_eq := rfl }

theorem agrees_load (alike : left.Alike right) (image : List UInt8) :
    (load image).Agrees (load image) left right fun _ _ _ _ => True := by
  refine .recorded ((agrees_requireOutsideNative alike _).bind fun _ _ _ _ _ same => ?_)
  obtain ⟨rfl, rfl⟩ := same
  refine (Update.Agrees.ofExcept alike (.refl _)).bind fun program _ _ _ _ same => ?_
  obtain ⟨rfl, rfl, rfl⟩ := same
  exact agrees_install alike program

theorem agrees_loadProgram (alike : left.Alike right) (program : Program) :
    (loadProgram program).Agrees (loadProgram program) left right fun _ _ _ _ => True := by
  refine .recorded ((agrees_requireOutsideNative alike _).bind fun _ _ _ _ _ same => ?_)
  obtain ⟨rfl, rfl⟩ := same
  refine (Update.Agrees.ofExcept alike (.refl _)).bind fun _ _ _ _ _ same => ?_
  obtain ⟨_, rfl, rfl⟩ := same
  exact agrees_install alike program

theorem agrees_reset (alike : left.Alike right) :
    reset.Agrees reset left right fun _ _ _ _ => True := by
  refine .recorded ((agrees_requireOutsideNative alike _).bind fun _ _ _ _ _ same => ?_)
  obtain ⟨rfl, rfl⟩ := same
  refine Update.Agrees.set rfl rfl ?_ trivial
  exact
    { alike with
      stack := alike.stack.clear
      offset_eq := rfl
      phase_eq := by simp only [alike.phase_eq] }

/-! ## Maps -/

/-- The key for a content is found in both maps or allocated on both heaps. -/
theorem agrees_keyOrAllocate {V : Type} {related : V → V → Prop} {map map' : ContentMap V}
    (alike : left.Alike right) (maps : ContentMap.Alike left.heap right.heap related map map')
    (bytes : List UInt8) {next next' : StringRef → Update α}
    {given : α → α → Machine → Machine → Prop}
    (continued : ∀ key key' later later', left.Grown right later later' →
      later.heap.SameContent later'.heap key key' →
        (next key).Agrees (next' key') later later' given) :
    (match map.keyOfBytes? left.heap bytes with
      | some key => pure key >>= next
      | none => allocate bytes >>= next).Agrees
      (match map'.keyOfBytes? right.heap bytes with
        | some key => pure key >>= next'
        | none => allocate bytes >>= next') left right given := by
  have keys := maps.keyOfBytes bytes
  generalize map.keyOfBytes? left.heap bytes = found,
    map'.keyOfBytes? right.heap bytes = found' at keys ⊢
  cases keys with
  | some same => exact continued _ _ left right (.refl alike) same
  | none => exact (agrees_allocate alike bytes).bind continued

theorem agrees_putNative (alike : left.Alike right) {entry : NativeEntry}
    (admitted : entry.native.Admitted true) :
    (putNative entry).Agrees (putNative entry) left right fun _ _ _ _ => True := by
  refine .get_bind (agrees_keyOrAllocate alike alike.natives _
    fun key key' later later' grown same => ?_)
  have stored :=
    grown.alike.natives.put grown.alike.left_tame.hashed grown.alike.right_tame.hashed same
    (⟨rfl, admitted⟩ : SameBuiltin entry entry)
  refine .get_bind ((Update.Agrees.ofStorage grown.alike stored).bind fun _ _ _ _ _ put => ?_)
  obtain ⟨natives, rfl, rfl⟩ := put
  exact .set rfl rfl { grown.alike with natives } trivial

theorem agrees_register (alike : left.Alike right) (name : String) (signature : Option String)
    (builtin : Builtin) :
    (register name signature (.builtin builtin)).Agrees (register name signature (.builtin builtin))
      left right fun _ _ _ _ => True := by
  refine .recorded ?_
  cases signature with
  | none => exact agrees_putNative alike trivial
  | some text =>
      refine (Update.Agrees.ofExcept alike (.refl _)).bind fun signature _ _ _ _ same => ?_
      obtain ⟨rfl, rfl, rfl⟩ := same
      exact agrees_putNative alike trivial

theorem agrees_getGlobal (alike : left.Alike right) (name : String) :
    (getGlobal name).Agrees (getGlobal name) left right fun value value' later later' =>
      Value.Alike later.heap later'.heap value value' := by
  refine .recorded (.get_bind ?_)
  have values := alike.globals.getBytes (Utf8.encode name.toList)
  generalize left.globals.getBytes? left.heap _ = found,
    right.globals.getBytes? right.heap _ = found'
    at values ⊢
  cases values with
  | some same => exact .pure alike same
  | none => exact .throw alike _

theorem agrees_setGlobal (alike : left.Alike right) (name : String) {value : Value}
    (plain : value.string? = none) :
    (setGlobal name value).Agrees (setGlobal name value) left right fun _ _ _ _ => True := by
  refine .recorded ((agrees_requireLive alike (.plain plain)).bind fun _ _ _ _ _ same => ?_)
  obtain ⟨rfl, rfl⟩ := same
  refine .get_bind (agrees_keyOrAllocate alike alike.globals _
    fun key key' later later' grown same => ?_)
  have stored :=
    grown.alike.globals.put grown.alike.left_tame.hashed grown.alike.right_tame.hashed same
    (.plain plain)
  refine .get_bind ((Update.Agrees.ofStorage grown.alike stored).bind fun _ _ _ _ _ put => ?_)
  obtain ⟨globals, rfl, rfl⟩ := put
  exact .set rfl rfl (grown.alike.withGlobals globals) trivial

/-! ## Stack and output -/

theorem agrees_pushOperand (alike : left.Alike right) {value value' : Value}
    (same : Value.Alike left.heap right.heap value value') :
    (pushOperand value).Agrees (pushOperand value') left right fun _ _ _ _ => True := by
  refine .get_bind ((Update.Agrees.ofExcept alike (alike.stack.push same)).bind
    fun stack stack' _ _ _ pushed => ?_)
  obtain ⟨pushed, rfl, rfl⟩ := pushed
  exact .set rfl rfl (alike.withStack pushed) trivial

theorem agrees_push (alike : left.Alike right) {value value' : Value}
    (same : Value.Alike left.heap right.heap value value') :
    (push value).Agrees (push value') left right fun _ _ _ _ => True := by
  refine .recorded ((agrees_requireLive alike same).bind fun _ _ _ _ _ unchanged => ?_)
  obtain ⟨rfl, rfl⟩ := unchanged
  exact agrees_pushOperand alike same

theorem agrees_write (alike : left.Alike right) (bytes : List UInt8) :
    (write bytes).Agrees (write bytes) left right fun _ _ _ _ => True := by
  refine .get_bind ?_
  rw [alike.sink_eq]
  rcases right.sink.write bytes with ⟨complete, sink⟩
  have written : { left with sink := sink }.Alike { right with sink := sink } :=
    { alike with sink_eq := rfl }
  refine .set_bind rfl rfl written ?_
  cases complete with
  | true => exact .pure written trivial
  | false => exact .throw written _

/-! ## Conversion -/

theorem agrees_coerce (alike : left.Alike right) (type : ParameterType) {value value' : Value}
    (same : Value.Alike left.heap right.heap value value') :
    (coerce type value).Agrees
      (coerce type value') left right fun converted converted' later later' =>
      Option.Rel (Value.Alike later.heap later'.heap) converted converted' := by
  have plain {γ : Type} (found : Option γ) {make : γ → Value}
      (none : ∀ x, (make x).string? = none) :
      Option.Rel (Value.Alike left.heap right.heap) (found.map make) (found.map make) := by
    cases found with
    | none => exact .none
    | some x => exact .some (.plain (none x))
  refine .get_bind ?_
  cases type with
  | any => exact .pure alike (.some same)
  | nil =>
      simp only [same.isNil_eq]
      refine .pure alike ?_
      cases value'.isNil with
      | true => exact .some (.plain rfl)
      | false => exact .none
  | int =>
      simp only [same.toInt?_eq]
      exact .pure alike (plain _ fun _ => rfl)
  | float =>
      simp only [same.toFloat?_eq]
      exact .pure alike (plain _ fun _ => rfl)
  | bool =>
      simp only [same.toBool?_eq]
      exact .pure alike (plain _ fun _ => rfl)
  | string =>
      have converted (bytes : List UInt8) := (agrees_newString alike bytes).bind
        fun value value' later later' grown same =>
          (.pure grown.alike (.some same) : Update.Agrees (pure (some value)) (pure (some value'))
            later later' fun converted converted' later later' =>
              Option.Rel (Value.Alike later.heap later'.heap) converted converted')
      have text_eq := same.text_eq
      cases same with
      | string same =>
          obtain ⟨bytes, content, content'⟩ := same
          have live := StringHeap.live_iff_contains.mp ⟨bytes, content⟩
          have live' := StringHeap.live_iff_contains.mp ⟨bytes, content'⟩
          simp only [live, live', if_true]
          exact .pure alike (.some (.string ⟨bytes, content, content'⟩))
      | plain none =>
          cases value with
          | string ref => cases none
          | _ =>
              simp only [text_eq]
              exact converted _

theorem agrees_coerceFrom (alike : left.Alike right) (name : String) (position : Nat)
    (types : List ParameterType) {arguments arguments' : List Value}
    (same : List.Forall₂ (Value.Alike left.heap right.heap) arguments arguments') :
    (coerceFrom name position types arguments).Agrees (coerceFrom name position types arguments')
      left right fun values values' later later' =>
        List.Forall₂ (Value.Alike later.heap later'.heap) values values' := by
  induction types generalizing left right position arguments arguments' with
  | nil =>
      cases same with
      | nil => exact .pure alike .nil
      | cons first rest => exact .pure alike (.cons first rest)
  | cons type types induction =>
      cases same with
      | nil => exact .pure alike .nil
      | cons first rest =>
          have typeName_eq := first.typeName_eq
          refine (agrees_coerce alike type first).bind
            fun converted converted' middle middle' grown agreed => ?_
          have kept := rest.imp fun _ _ same =>
            same.preserved grown.left_preserved grown.right_preserved
          cases agreed with
          | none =>
              simp only [typeName_eq]
              exact .throw grown.alike _
          | some value =>
              refine (induction grown.alike (position + 1) kept).bind
                fun values values' later later' further all => ?_
              exact .pure further.alike
                (.cons (value.preserved further.left_preserved further.right_preserved) all)

theorem agrees_coerceArguments (alike : left.Alike right) (signature : Signature) (name : String)
    {arguments arguments' : List Value}
    (same : List.Forall₂ (Value.Alike left.heap right.heap) arguments arguments') :
    (coerceArguments signature name arguments).Agrees (coerceArguments signature name arguments')
      left right fun values values' later later' =>
        List.Forall₂ (Value.Alike later.heap later'.heap) values values' := by
  rw [coerceArguments, coerceArguments, same.length_eq]
  refine (Update.Agrees.ofExcept alike (.refl _)).bind fun _ _ _ _ _ checked => ?_
  obtain ⟨_, rfl, rfl⟩ := checked
  exact agrees_coerceFrom alike name 1 signature.parameters same

theorem agrees_coerceResult (alike : left.Alike right) (signature : Signature) (name : String)
    {value value' : Value} (same : Value.Alike left.heap right.heap value value') :
    (coerceResult signature name value).Agrees (coerceResult signature name value') left right
      fun result result' later later' => Value.Alike later.heap later'.heap result result' := by
  have typeName_eq := same.typeName_eq
  unfold coerceResult
  split
  · exact .pure alike (.plain rfl)
  · refine (agrees_coerce alike signature.result same).bind
      fun converted converted' later later' grown agreed => ?_
    cases agreed with
    | none =>
        simp only [typeName_eq]
        exact .throw grown.alike _
    | some value => exact .pure grown.alike value

/-! ## Builtin natives -/

theorem contentOf_eq {value value' : Value}
    (same : Value.Alike left.heap right.heap value value') :
    left.contentOf value = right.contentOf value' := by
  have bytes_eq : left.bytes? value = right.bytes? value' := same.bytes?_eq
  rw [contentOf, contentOf, bytes_eq, same.text_eq]

theorem joinedText_eq {heap heap' : StringHeap} {values values' : List Value}
    (same : List.Forall₂ (Value.Alike heap heap') values values') :
    joinedText heap values = joinedText heap' values' := by
  rw [joinedText, joinedText, map_eq_of_forall₂ same fun _ _ alike => alike.text_eq]

theorem agrees_builtin (alike : left.Alike right) (builtin : Builtin)
    {arguments arguments' : List Value}
    (same : List.Forall₂ (Value.Alike left.heap right.heap) arguments arguments') :
    (builtin.run arguments).Agrees (builtin.run arguments') left right
      fun result result' later later' => Value.Alike later.heap later'.heap result result' := by
  have first : Value.Alike left.heap right.heap (arguments.headD .nil) (arguments'.headD .nil) := by
    cases same with
    | nil => exact .plain rfl
    | cons first rest => exact first
  refine .get_bind ?_
  cases builtin with
  | print =>
      simp only [joinedText_eq same]
      refine (agrees_write alike _).bind fun _ _ later later' grown _ => ?_
      exact .pure grown.alike (.plain rfl)
  | length =>
      have bytes_eq : left.bytes? (arguments.headD .nil) = right.bytes? (arguments'.headD .nil) :=
        first.bytes?_eq
      simp only [bytes_eq]
      exact .pure alike (.plain rfl)
  | identity => exact .pure alike first
  | typeName =>
      simp only [first.typeName_eq]
      exact agrees_newString alike _
  | concat =>
      have contents_eq : arguments.flatMap left.contentOf = arguments'.flatMap right.contentOf := by
        rw [List.flatMap, List.flatMap, map_eq_of_forall₂ same fun _ _ => contentOf_eq]
      simp only [contents_eq]
      exact agrees_newString alike _

end Machine

end StackMachine
