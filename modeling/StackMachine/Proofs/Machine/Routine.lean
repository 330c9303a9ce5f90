import StackMachine.Proofs.Machine.Ensures
import StackMachine.Proofs.OperandStack
import StackMachine.Proofs.Outcome
import StackMachine.Proofs.StringHeap

/-!
# Routine changes

Most of what a machine does is routine: it changes the stack, the natives, the pool, the output and
the record of failures, and it allocates strings that the collector tracks.  A preorder on machines
is `Routine` when it holds across each of these changes, where stacks stay within their room.  Every
update but those that set a global or load or reset a program then stays within it, and none of them
fails as malformed code does.  Of the calls of the interface, those that take nothing off the stack
make additive changes, where the stack is changed by pushes alone.  Builtins make modest changes
only: output, the record of failures and new strings.
-/

namespace StackMachine

variable {α β : Type} {relation : Machine → Machine → Prop} {allowed : MachineError → Prop}

/-- Failures that do not blame the code. -/
def MachineError.IsOrdinary : MachineError → Prop
  | .badBytecode _ | .codeOverrun _ | .runtime (.unknownOpcode _ _) => False
  | _ => True

theorem MachineError.isOrdinary_ofStorage (reason : StorageError) :
    (MachineError.ofStorage reason).IsOrdinary := by
  cases reason <;> trivial

/-! ## Ordinary failures -/

theorem OperandStack.isOrdinary_of_require {stack : OperandStack} {operation : String}
    {needed : Nat} {fault : RuntimeFault}
    (refused : stack.require operation needed = .error fault) :
    (MachineError.runtime fault).IsOrdinary := by
  unfold require at refused
  split at refused
  · cases refused
    trivial
  · cases refused

theorem OperandStack.isOrdinary_of_pop {stack : OperandStack} {operation : String}
    {fault : RuntimeFault} (refused : stack.pop operation = .error fault) :
    (MachineError.runtime fault).IsOrdinary := by
  unfold pop at refused
  split at refused
  · cases refused
  · cases refused
    trivial

theorem OperandStack.isOrdinary_of_pop2 {stack : OperandStack} {operation : String}
    {fault : RuntimeFault} (refused : stack.pop2 operation = .error fault) :
    (MachineError.runtime fault).IsOrdinary := by
  rcases bind_eq_error_iff.mp refused with few | ⟨_, _, refused⟩
  · exact isOrdinary_of_require few
  rcases bind_eq_error_iff.mp refused with empty | ⟨_, _, refused⟩
  · exact isOrdinary_of_pop empty
  rcases bind_eq_error_iff.mp refused with empty | ⟨_, _, finished⟩
  · exact isOrdinary_of_pop empty
  · cases finished

theorem OperandStack.isOrdinary_of_swapTop {stack : OperandStack} {operation : String}
    {fault : RuntimeFault} (refused : stack.swapTop operation = .error fault) :
    (MachineError.runtime fault).IsOrdinary := by
  rcases bind_eq_error_iff.mp refused with few | ⟨_, _, finished⟩
  · exact isOrdinary_of_require few
  · cases finished

theorem Signature.isOrdinary_of_checkArity {signature : Signature} {name : String} {count : Nat}
    {error : MachineError} (refused : signature.checkArity name count = .error error) :
    error.IsOrdinary := by
  simp only [checkArity] at refused
  split at refused <;> split at refused
  · cases refused
  · cases refused
    trivial
  · cases refused
  · cases refused
    trivial

theorem Value.isOrdinary_of_order {heap : StringHeap} {op : Opcode} {left right : Value}
    {error : MachineError} (refused : left.order heap op right = .error error) :
    error.IsOrdinary := by
  unfold order at refused
  split at refused
  · split at refused
    · cases refused
    · cases refused
      trivial
  · split at refused
    · cases refused
    · cases refused
      trivial

/-! ## Staying within a relation -/

namespace Update

variable {machine : Machine} {failed : MachineError → Machine → Prop}
  {done : α → Machine → Prop} {last : β → Machine → Prop}

theorem Ensures.get_bind {next : Machine → Update β}
    (continued : (next machine).Ensures machine failed last) :
    (get >>= next : Update β).Ensures machine failed last := by
  rw [Ensures, apply_bind]
  exact continued

theorem Ensures.set_bind {after : Machine} {next : PUnit → Update β}
    (continued : (next ⟨⟩).Ensures after failed last) :
    (MonadStateOf.set after >>= next : Update β).Ensures machine failed last := by
  rw [Ensures, apply_bind]
  exact continued

theorem Ensures.ofExcept_bind {result : Except MachineError α} {next : α → Update β}
    (refused : ∀ error, result = .error error → failed error machine)
    (continued : ∀ value, result = .ok value → (next value).Ensures machine failed last) :
    (ofExcept result >>= next).Ensures machine failed last := by
  rw [Ensures, apply_bind]
  cases result with
  | error error => exact refused error rfl
  | ok value => exact continued value rfl

theorem Ensures.ofStorage_bind {result : Except StorageError α} {next : α → Update β}
    (refused : ∀ reason, failed (.ofStorage reason) machine)
    (continued : ∀ value, result = .ok value → (next value).Ensures machine failed last) :
    (ofStorage result >>= next).Ensures machine failed last := by
  cases result with
  | error reason => exact refused reason
  | ok value => exact continued value rfl

/-- An operation on the stack changes nothing by itself. -/
theorem ensures_ofStack {result : Except RuntimeFault α} {failed : MachineError → Machine → Prop}
    (refused : ∀ fault, result = .error fault → failed (.runtime fault) machine) :
    (ofStack result).Ensures machine failed fun value after =>
      result = .ok value ∧ after = machine := by
  cases result with
  | error fault => exact refused fault rfl
  | ok value => exact ⟨rfl, rfl⟩

theorem Ensures.ofStack_bind {result : Except RuntimeFault α} {next : α → Update β}
    (refused : ∀ fault, result = .error fault → failed (.runtime fault) machine)
    (continued : ∀ value, result = .ok value → (next value).Ensures machine failed last) :
    (ofStack result >>= next).Ensures machine failed last := by
  cases result with
  | error fault => exact refused fault rfl
  | ok value => exact continued value rfl

/-- An update stays within a relation between machines, and fails only as is allowed. -/
def Within (relation : Machine → Machine → Prop) (allowed : MachineError → Prop)
    (update : Update α) : Prop :=
  ∀ machine, update.Ensures machine (fun error after => relation machine after ∧ allowed error)
    fun _ after => relation machine after

namespace Within

theorem bind [IsTrans Machine relation] {first : Update α} {next : α → Update β}
    (before : first.Within relation allowed)
    (continued : ∀ value, (next value).Within relation allowed) :
    (first >>= next).Within relation allowed := by
  intro machine
  refine (before machine).bind fun value middle early => ?_
  refine (continued value middle).mono (fun error after late => ⟨?_, late.2⟩)
    fun value after late => ?_
  · exact IsTrans.trans _ _ _ early late.1
  · exact IsTrans.trans _ _ _ early late

theorem pure [Std.Refl relation] (value : α) :
    (Pure.pure value : Update α).Within relation allowed :=
  fun machine => Std.Refl.refl (r := relation) machine

theorem throw [Std.Refl relation] {error : MachineError} (permitted : allowed error) :
    (MonadExcept.throw error : Update α).Within relation allowed :=
  fun machine => ⟨Std.Refl.refl machine, permitted⟩

theorem ofExcept [Std.Refl relation] {result : Except MachineError α}
    (permitted : ∀ error, result = .error error → allowed error) :
    (Update.ofExcept result).Within relation allowed := by
  intro machine
  cases result with
  | error error => exact ⟨Std.Refl.refl machine, permitted error rfl⟩
  | ok value => exact Std.Refl.refl (r := relation) machine

theorem modify {change : Machine → Machine}
    (related : ∀ machine, relation machine (change machine)) :
    (modify change : Update PUnit).Within relation allowed :=
  related

theorem weaken {relation' : Machine → Machine → Prop} {allowed' : MachineError → Prop}
    {update : Update α} (within : update.Within relation allowed)
    (part : ∀ before after, relation before after → relation' before after)
    (permitted : ∀ error, allowed error → allowed' error) :
    update.Within relation' allowed' :=
  fun machine => (within machine).mono
    (fun error after held => ⟨part machine after held.1, permitted error held.2⟩)
    fun _ after held => part machine after held

theorem of_keeps {update : Update α} {given : α → Machine → Prop}
    (kept : ∀ machine, update.Keeps relation machine given) :
    update.Within relation fun _ => True :=
  fun machine => Ensures.mono (kept machine) (fun _ _ related => ⟨related, trivial⟩)
    fun _ _ held => held.1

theorem apply_snd {update : Update α} (within : update.Within relation allowed)
    (machine : Machine) : relation machine (update.apply machine).2 := by
  have holds := within machine
  rw [Ensures] at holds
  rcases outcome : update.apply machine with ⟨result, after⟩
  rw [outcome] at holds
  cases result with
  | error error => exact holds.1
  | ok value => exact holds

end Within

end Update

namespace Action

/-- An action that ends stays within a relation between machines, and fails only as is allowed. -/
def Within (relation : Machine → Machine → Prop) (allowed : MachineError → Prop)
    (action : Action α) : Prop :=
  ∀ machine, action.Ensures machine (fun error after => relation machine after ∧ allowed error)
    fun _ after => relation machine after

theorem within_lift {update : Update α} (within : update.Within relation allowed) :
    (liftM update : Action α).Within relation allowed :=
  fun machine => ensures_lift (within machine)

theorem within_exhausted : (exhausted : Action α).Within relation allowed := by
  intro machine outcome ended
  cases ended

theorem ensures_get_bind {machine : Machine} {failed : MachineError → Machine → Prop}
    {last : β → Machine → Prop} {next : Machine → Action β}
    (continued : (next machine).Ensures machine failed last) :
    (get >>= next : Action β).Ensures machine failed last := by
  rw [Ensures, apply_bind]
  exact continued

theorem ensures_modify_bind {machine : Machine} {failed : MachineError → Machine → Prop}
    {last : β → Machine → Prop} {change : Machine → Machine} {next : PUnit → Action β}
    (continued : (next ⟨⟩).Ensures (change machine) failed last) :
    (modify change >>= next : Action β).Ensures machine failed last := by
  rw [Ensures, apply_bind]
  exact continued

namespace Within

theorem bind [IsTrans Machine relation] {first : Action α} {next : α → Action β}
    (before : first.Within relation allowed)
    (continued : ∀ value, (next value).Within relation allowed) :
    (first >>= next).Within relation allowed := by
  intro machine
  refine (before machine).bind fun value middle early => ?_
  refine (continued value middle).mono (fun error after late => ⟨?_, late.2⟩)
    fun value after late => ?_
  · exact IsTrans.trans _ _ _ early late.1
  · exact IsTrans.trans _ _ _ early late

theorem get_bind {next : Machine → Action β}
    (continued : ∀ machine, (next machine).Within relation allowed) :
    (get >>= next : Action β).Within relation allowed :=
  fun machine => ensures_get_bind (continued machine machine)

theorem pure [Std.Refl relation] (value : α) :
    (Pure.pure value : Action α).Within relation allowed :=
  fun machine => ensures_of_eq_some rfl (Std.Refl.refl (r := relation) machine)

theorem modify {change : Machine → Machine}
    (related : ∀ machine, relation machine (change machine)) :
    (modify change : Action PUnit).Within relation allowed :=
  fun machine => ensures_of_eq_some rfl (related machine)

theorem attempt {action : Action α} (within : action.Within relation allowed)
    {allowed' : MachineError → Prop} : (Action.attempt action).Within relation allowed' :=
  fun machine => Ensures.attempt ((within machine).mono (fun _ _ held => held.1) fun _ _ => id)

theorem weaken {relation' : Machine → Machine → Prop} {allowed' : MachineError → Prop}
    {action : Action α} (within : action.Within relation allowed)
    (part : ∀ before after, relation before after → relation' before after)
    (permitted : ∀ error, allowed error → allowed' error) :
    action.Within relation' allowed' :=
  fun machine => (within machine).mono
    (fun error after held => ⟨part machine after held.1, permitted error held.2⟩)
    fun _ after held => part machine after held

theorem keeps {action : Action α} (within : action.Within relation allowed) (machine : Machine) :
    action.Keeps relation machine fun _ _ => True :=
  (within machine).mono (fun _ _ held => held.1) fun _ _ held => ⟨held, trivial⟩

theorem of_keeps {action : Action α}
    (kept : ∀ machine, action.Keeps relation machine fun _ _ => True) :
    action.Within relation fun _ => True :=
  fun machine => Ensures.mono (kept machine) (fun _ _ related => ⟨related, trivial⟩)
    fun _ _ held => held.1

end Within

end Action

namespace Machine

/-- A preorder on machines that output, the record of failures and new strings stay within. -/
class Modest (relation : Machine → Machine → Prop) : Prop extends
    Std.Refl relation, IsTrans Machine relation where
  sink (machine : Machine) (bytes : List UInt8) :
    relation machine { machine with sink := (machine.sink.write bytes).2 }
  lastError (machine : Machine) (lastError : Option LastError) :
    relation machine { machine with lastError }
  stored (machine : Machine) (bytes : List UInt8) :
    relation machine { machine with
      heap := machine.heap.store bytes
      collector := (machine.collector.track machine.heap.nextRef machine.heap.nextSlot).2 }

/-- A preorder on machines that changes of the natives and the pool and pushes stay within as
well. -/
class Additive (relation : Machine → Machine → Prop) : Prop extends Modest relation where
  pushed (machine : Machine) {value : Value} {stack : OperandStack}
    (done : machine.stack.push value = .ok stack) : relation machine { machine with stack }
  natives (machine : Machine) (natives : ContentMap NativeEntry) :
    relation machine { machine with natives }
  pool (machine : Machine) (pool : StringPool) : relation machine { machine with pool }

/-- A preorder on machines that routine changes stay within. -/
class Routine (relation : Machine → Machine → Prop) : Prop extends Modest relation where
  stack (machine : Machine) (stack : OperandStack) (becomes : machine.stack.Becomes stack) :
    relation machine { machine with stack }
  natives (machine : Machine) (natives : ContentMap NativeEntry) :
    relation machine { machine with natives }
  pool (machine : Machine) (pool : StringPool) : relation machine { machine with pool }

instance [Routine relation] : Additive relation where
  pushed machine _ _ done := Routine.stack machine _ (OperandStack.becomes_of_push done)
  natives := Routine.natives
  pool := Routine.pool

/-! ## Modest changes -/

namespace Modest

variable [Modest relation]

theorem remember {before after : Machine} (error : MachineError) (related : relation before after) :
    relation before (after.remember error) :=
  IsTrans.trans _ _ _ related (Modest.lastError after _)

theorem within_recorded {update : Update α} (within : update.Within relation allowed) :
    (Update.recorded update).Within relation allowed :=
  fun machine => Update.Ensures.recorded ((within machine).mono
    (fun error _ held => ⟨remember error held.1, held.2⟩) fun _ _ => id)

theorem within_allocate (bytes : List UInt8) :
    (allocate bytes).Within relation MachineError.IsOrdinary := by
  intro machine
  refine .ofStorage_bind (fun reason => ⟨Std.Refl.refl machine, ?_⟩) fun _ _ => ?_
  · exact MachineError.isOrdinary_ofStorage reason
  · exact (Modest.stored machine bytes : relation _ _)

theorem within_newString (bytes : List UInt8) :
    (newString bytes).Within relation MachineError.IsOrdinary :=
  within_recorded ((within_allocate bytes).bind fun _ => .pure _)

theorem within_write (bytes : List UInt8) :
    (write bytes).Within relation MachineError.IsOrdinary := by
  refine fun machine => .get_bind ?_
  have related : relation machine _ := Modest.sink machine bytes
  generalize machine.sink.write bytes = outcome at related ⊢
  obtain ⟨complete, sink⟩ := outcome
  refine .set_bind ?_
  cases complete with
  | true => exact related
  | false => exact ⟨related, trivial⟩

theorem within_coerce (type : ParameterType) (value : Value) :
    (coerce type value).Within relation MachineError.IsOrdinary := by
  refine fun machine => .get_bind ?_
  cases type with
  | string =>
      cases value with
      | string ref => exact (Std.Refl.refl machine : relation _ _)
      | _ => exact ((within_newString _).bind fun _ => .pure _) machine
  | _ => exact (Std.Refl.refl machine : relation _ _)

theorem within_coerceFrom (name : String) (types : List ParameterType) (arguments : List Value)
    (position : Nat) :
    (coerceFrom name position types arguments).Within relation MachineError.IsOrdinary := by
  induction types generalizing position arguments with
  | nil => cases arguments <;> exact .pure _
  | cons type types induction =>
      cases arguments with
      | nil => exact .pure _
      | cons argument rest =>
          refine (within_coerce type argument).bind fun converted => ?_
          cases converted with
          | none => exact .throw trivial
          | some value => exact (induction rest (position + 1)).bind fun _ => .pure _

theorem within_coerceArguments (signature : Signature) (name : String)
    (arguments : List Value) :
    (coerceArguments signature name arguments).Within relation MachineError.IsOrdinary := by
  refine Update.Within.bind (.ofExcept fun error refused => ?_)
    fun _ => within_coerceFrom name signature.parameters arguments 1
  exact Signature.isOrdinary_of_checkArity refused

theorem within_coerceResult (signature : Signature) (name : String) (value : Value) :
    (coerceResult signature name value).Within relation MachineError.IsOrdinary := by
  unfold coerceResult
  split
  · exact .pure _
  · refine (within_coerce signature.result value).bind fun converted => ?_
    cases converted with
    | none => exact .throw trivial
    | some result => exact .pure _

theorem within_builtin (builtin : Builtin) (arguments : List Value) :
    (builtin.run arguments).Within relation MachineError.IsOrdinary := by
  refine fun machine => .get_bind ?_
  cases builtin with
  | print => exact ((within_write _).bind fun _ => .pure _) machine
  | length | identity => exact (Std.Refl.refl machine : relation _ _)
  | typeName | concat => exact within_newString _ machine

end Modest

/-! ## Routine changes -/

namespace Routine

section Additive

variable [Additive relation]

theorem interned (machine : Machine) (bytes : List UInt8) (pool : StringPool) :
    relation machine { machine with
      heap := machine.heap.store bytes
      pool
      collector := (machine.collector.track machine.heap.nextRef machine.heap.nextSlot).2 } := by
  have stored : relation machine _ := Modest.stored machine bytes
  have pooled : relation { machine with
      heap := machine.heap.store bytes
      collector := (machine.collector.track machine.heap.nextRef machine.heap.nextSlot).2 } _ :=
        Additive.pool _ pool
  exact IsTrans.trans _ _ _ stored pooled

theorem within_intern (text : String) :
    (intern text).Within relation MachineError.IsOrdinary := by
  refine Modest.within_recorded fun machine => .get_bind (.ofStorage_bind (fun reason => ?_) ?_)
  · exact ⟨Std.Refl.refl machine, MachineError.isOrdinary_ofStorage reason⟩
  · intro interned done
    refine .set_bind ?_
    show relation machine _
    rcases StringPool.intern_cases done with ⟨ref, _, rfl⟩ | ⟨_, rfl⟩
    · exact Std.Refl.refl machine
    · simp only [if_true, StringHeap.slotOf_nextRef_store]
      exact interned machine _ _

theorem within_requireLive (value : Value) :
    (requireLive value).Within relation MachineError.IsOrdinary := by
  intro machine
  cases value with
  | string ref =>
      refine .get_bind ?_
      cases machine.heap.contains ref with
      | true => exact (Std.Refl.refl machine : relation _ _)
      | false => exact ⟨Std.Refl.refl machine, trivial⟩
  | _ => exact (Std.Refl.refl machine : relation _ _)

theorem within_requireOutsideNative (what : String) :
    (requireOutsideNative what).Within relation MachineError.IsOrdinary := by
  refine fun machine => .get_bind ?_
  cases machine.inNative with
  | true => exact ⟨Std.Refl.refl machine, trivial⟩
  | false => exact (Std.Refl.refl machine : relation _ _)

/-- What is refused inside natives is otherwise carried out. -/
theorem within_outside (what : String) {update : Update α}
    (within : update.Within relation fun _ => True) :
    (Update.recorded do
      requireOutsideNative what
      update).Within relation fun _ => True := by
  have outside : (requireOutsideNative what).Within relation fun _ => True :=
    (within_requireOutsideNative what).weaken (fun _ _ => id) fun _ _ => trivial
  exact Modest.within_recorded (outside.bind fun _ => within)

/-- Loading an image stays within a relation as far as installing programs does. -/
theorem within_load (installs : ∀ program, (install program).Within relation fun _ => True)
    (image : List UInt8) : (load image).Within relation fun _ => True :=
  within_outside _ (Update.Within.bind (.ofExcept fun _ _ => trivial) installs)

theorem within_loadProgram {program : Program}
    (installs : (install program).Within relation fun _ => True) :
    (loadProgram program).Within relation fun _ => True :=
  within_outside _ (Update.Within.bind (.ofExcept fun _ _ => trivial) fun _ => installs)

/-! ### Maps and stack -/

/-- The key for a content is found in a map or allocated. -/
theorem within_keyOrAllocate {V : Type} (map : ContentMap V) (heap : StringHeap)
    (bytes : List UInt8) {next : StringRef → Update α}
    (continued : ∀ key, (next key).Within relation MachineError.IsOrdinary) :
    (match map.keyOfBytes? heap bytes with
      | some key => pure key >>= next
      | none => allocate bytes >>= next).Within relation MachineError.IsOrdinary := by
  cases map.keyOfBytes? heap bytes with
  | some key => exact (Update.Within.pure key).bind continued
  | none => exact (Modest.within_allocate bytes).bind continued

theorem within_putNative (entry : NativeEntry) :
    (putNative entry).Within relation MachineError.IsOrdinary := by
  refine fun machine => .get_bind (within_keyOrAllocate _ _ _ (fun key => ?_) machine)
  refine fun machine => .get_bind (.ofStorage_bind (fun reason => ?_) fun _ _ => ?_)
  · exact ⟨Std.Refl.refl machine, MachineError.isOrdinary_ofStorage reason⟩
  · exact (Additive.natives machine _ : relation _ _)

theorem within_register (name : String) (signature : Option String) (native : Native) :
    (register name signature native).Within relation MachineError.IsOrdinary := by
  refine Modest.within_recorded ?_
  cases signature with
  | none => exact within_putNative _
  | some text =>
      refine Update.Within.bind (.ofExcept fun error refused => ?_) fun _ => within_putNative _
      unfold Signature.read at refused
      split at refused
      · cases refused
      · cases refused
        trivial

theorem unregister (machine : Machine) (name : String) :
    relation machine (machine.unregister name).2 :=
  Additive.natives machine _

theorem within_getGlobal (name : String) :
    (getGlobal name).Within relation MachineError.IsOrdinary := by
  refine Modest.within_recorded fun machine => .get_bind ?_
  cases machine.globals.getBytes? machine.heap (Utf8.encode name.toList) with
  | some value => exact (Std.Refl.refl machine : relation _ _)
  | none => exact ⟨Std.Refl.refl machine, trivial⟩

theorem within_setGlobal
    (assigned : ∀ (machine : Machine) (globals : ContentMap Value),
      relation machine { machine with globals }) (name : String) (value : Value) :
    (setGlobal name value).Within relation MachineError.IsOrdinary := by
  refine Modest.within_recorded ((within_requireLive value).bind fun _ => ?_)
  refine fun machine => .get_bind (within_keyOrAllocate _ _ _ (fun key => ?_) machine)
  refine fun machine => .get_bind (.ofStorage_bind (fun reason => ?_) fun _ _ => ?_)
  · exact ⟨Std.Refl.refl machine, MachineError.isOrdinary_ofStorage reason⟩
  · exact assigned machine _

theorem within_pushOperand (value : Value) :
    (pushOperand value).Within relation MachineError.IsOrdinary := by
  refine fun machine => .get_bind (.ofExcept_bind (fun error refused => ?_) fun stack pushed => ?_)
  · refine ⟨Std.Refl.refl machine, ?_⟩
    unfold OperandStack.push at refused
    split at refused
    · cases refused
      trivial
    · split at refused
      · cases refused
      · cases refused
        exact MachineError.isOrdinary_ofStorage _
  · exact (Additive.pushed machine pushed : relation _ _)

theorem within_push (value : Value) : (push value).Within relation MachineError.IsOrdinary :=
  Modest.within_recorded ((within_requireLive value).bind fun _ => within_pushOperand value)

end Additive

variable [Routine relation]

theorem pop (machine : Machine) : relation machine machine.pop.2 := by
  unfold Machine.pop
  split
  · rename_i popped
    exact Routine.stack machine _ (OperandStack.becomes_of_pop popped)
  · exact Std.Refl.refl machine

/-! ### Operands -/

theorem within_popOperand (op : Opcode) :
    (popOperand op).Within relation MachineError.IsOrdinary := by
  refine fun machine => .get_bind (.ofStack_bind (fun fault refused => ?_) fun popped done => ?_)
  · exact ⟨Std.Refl.refl machine, OperandStack.isOrdinary_of_pop refused⟩
  · exact .set_bind (Routine.stack machine popped.2 (OperandStack.becomes_of_pop done) :
      relation _ _)

theorem within_popOperands (op : Opcode) :
    (popOperands op).Within relation MachineError.IsOrdinary := by
  refine fun machine => .get_bind (.ofStack_bind (fun fault refused => ?_) fun popped done => ?_)
  · exact ⟨Std.Refl.refl machine, OperandStack.isOrdinary_of_pop2 refused⟩
  · exact .set_bind (Routine.stack machine popped.2.2 (OperandStack.becomes_of_pop2 done) :
      relation _ _)

theorem within_topOperand (op : Opcode) :
    (topOperand op).Within relation MachineError.IsOrdinary := by
  refine fun machine => .get_bind (.ofStack_bind (fun fault refused => ?_) fun _ _ => ?_)
  · exact ⟨Std.Refl.refl machine, OperandStack.isOrdinary_of_require refused⟩
  · exact (Std.Refl.refl machine : relation _ _)

/-! ### Instructions -/

theorem within_pushing (value : Value) :
    (pushing value).Within relation MachineError.IsOrdinary :=
  (within_pushOperand value).bind fun _ => .pure _

theorem within_binary (op : Opcode) {operation : Value → Value → Update Value}
    (operates : ∀ left right, (operation left right).Within relation MachineError.IsOrdinary) :
    (binary op operation).Within relation MachineError.IsOrdinary := by
  refine (within_popOperands op).bind fun values => ?_
  exact (operates values.1 values.2).bind fun result => within_pushing result

theorem within_arithmetic (operation : ArithmeticOperation) (left right : Value) :
    (Update.ofExcept (left.arithmetic operation right)).Within relation
      MachineError.IsOrdinary := by
  refine .ofExcept fun error refused => ?_
  unfold Value.arithmetic at refused
  split at refused
  · cases refused
  · cases refused
    trivial

theorem within_divide (left right : Value) :
    (Update.ofExcept (left.divide right)).Within relation MachineError.IsOrdinary := by
  refine .ofExcept fun error refused => ?_
  unfold Value.divide at refused
  split at refused
  · split at refused
    · cases refused
      trivial
    · cases refused
  · cases refused
    trivial

theorem within_addValues (left right : Value) :
    (addValues left right).Within relation MachineError.IsOrdinary := by
  unfold addValues
  split
  · refine fun machine => .get_bind (.ofStorage_bind (fun reason => ?_) fun bytes _ => ?_)
    · exact ⟨Std.Refl.refl machine, MachineError.isOrdinary_ofStorage reason⟩
    · exact ((Modest.within_allocate bytes).bind fun _ => .pure _) machine
  · exact within_arithmetic .add left right

/-- A comparison that cannot fail. -/
theorem within_test (test : Machine → Bool) :
    (do return Value.bool (test (← get)) : Update Value).Within relation
      MachineError.IsOrdinary :=
  fun machine => .get_bind (Std.Refl.refl machine : relation _ _)

theorem within_ordering (op : Opcode) (wanted : List Ordering) :
    (ordering op wanted).Within relation MachineError.IsOrdinary := by
  refine within_binary op fun left right machine => .get_bind ?_
  refine .ofExcept_bind (fun error refused => ⟨Std.Refl.refl machine, ?_⟩) fun order _ => ?_
  · exact Value.isOrdinary_of_order refused
  · exact (Std.Refl.refl machine : relation _ _)

end Routine

end Machine

end StackMachine
