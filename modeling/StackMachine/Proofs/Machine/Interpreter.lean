import StackMachine.Proofs.Machine.Coercion

/-!
# The interpreter keeps machines intact

An instruction other than a call allocates strings and frees none, and what it pushes is live: it
was held already, or it was allocated.  A step may collect before its instruction, and a call runs a
native that may collect, so that a step only frees strings that are not held.
-/

namespace StackMachine

/-- Natives may be called when they keep machines intact and make live results of live arguments. -/
def Invoker.Careful (onlyBuiltins : Bool) (invoke : Invoker) : Prop :=
  ∀ (machine : Machine) (entry : NativeEntry) (arguments : List Value),
    machine.Intact onlyBuiltins → entry.native.Admitted onlyBuiltins →
    (invoke entry arguments).Keeps (Machine.Follows onlyBuiltins) machine fun result after =>
      (∀ argument ∈ arguments, argument.LiveIn machine.heap) → result.LiveIn after.heap

namespace Value

theorem string?_of_arithmetic_eq_ok {operation : ArithmeticOperation} {left right result : Value}
    (done : left.arithmetic operation right = .ok result) : result.string? = none := by
  unfold arithmetic at done
  split at done
  · rename_i x y _ _
    cases done
    cases operation.onNumber x y <;> rfl
  · cases done

theorem string?_of_divide_eq_ok {left right result : Value}
    (done : left.divide right = .ok result) : result.string? = none := by
  unfold divide at done
  split at done
  · split at done
    · cases done
    · cases done
      rfl
  · cases done

end Value

namespace Machine

variable {onlyBuiltins : Bool} {machine : Machine}

/-! ## Operands -/

theorem keeps_popOperand (op : Opcode) (intact : machine.Intact onlyBuiltins) :
    (popOperand op).Keeps (Extends onlyBuiltins) machine fun value after =>
      value.LiveIn after.heap := by
  refine .get_bind ((Update.Keeps.ofStack _).bind fun popped after _ done => ?_)
  obtain ⟨value, stack⟩ := popped
  obtain ⟨done, rfl⟩ := done
  have before := OperandStack.toList_of_pop done
  have shrunk : Extends onlyBuiltins after { after with stack } :=
    extends_withStack fun found member => before ▸ List.mem_append_left _ member
  refine (Update.Keeps.set shrunk).bind fun _ last _ changed => ?_
  subst changed
  refine .pure (intact.stack value ?_)
  rw [before]
  exact List.mem_append_right _ (List.mem_singleton.mpr rfl)

theorem keeps_popOperands (op : Opcode) (intact : machine.Intact onlyBuiltins) :
    (popOperands op).Keeps (Extends onlyBuiltins) machine fun values after =>
      values.1.LiveIn after.heap ∧ values.2.LiveIn after.heap := by
  refine .get_bind ((Update.Keeps.ofStack _).bind fun popped after _ done => ?_)
  obtain ⟨left, right, stack⟩ := popped
  obtain ⟨done, rfl⟩ := done
  have before := OperandStack.toList_of_pop2 done
  have shrunk : Extends onlyBuiltins after { after with stack } :=
    extends_withStack fun found member => before ▸ List.mem_append_left _ member
  refine (Update.Keeps.set shrunk).bind fun _ last _ changed => ?_
  subst changed
  refine .pure ⟨intact.stack left ?_, intact.stack right ?_⟩
  · rw [before]
    exact List.mem_append_right _ List.mem_cons_self
  · rw [before]
    exact List.mem_append_right _ (List.mem_cons_of_mem _ List.mem_cons_self)

theorem keeps_topOperand (op : Opcode) (intact : machine.Intact onlyBuiltins) :
    (topOperand op).Keeps (Extends onlyBuiltins) machine fun value after =>
      value.LiveIn after.heap := by
  refine .get_bind ((Update.Keeps.ofStack _).bind fun _ after _ checked => ?_)
  obtain ⟨_, rfl⟩ := checked
  refine .pure ?_
  cases top : after.stack.peek? 0 with
  | none => exact Value.liveIn_of_string?_eq_none rfl
  | some value => exact intact.stack value (OperandStack.mem_of_peek? top)

theorem keeps_constant (index : UInt32) (intact : machine.Intact onlyBuiltins) :
    (constant index).Keeps (Extends onlyBuiltins) machine fun ref after =>
      after.heap.Live ref ∧ after = machine := by
  refine .get_bind ?_
  cases found : machine.program.constants[index.toNat]? with
  | none => exact .throw
  | some ref => exact .pure ⟨intact.constants ref (List.mem_of_getElem? found), rfl⟩

/-! ## Instructions -/

theorem keeps_pushing {value : Value} (live : value.LiveIn machine.heap) :
    (pushing value).Keeps (Extends onlyBuiltins) machine fun _ _ => True :=
  (keeps_pushOperand live).bind fun _ _ _ _ => .pure trivial

theorem keeps_addValues {left right : Value} :
    (addValues left right).Keeps (Extends onlyBuiltins) machine fun result after =>
      result.LiveIn after.heap := by
  have plain : (Update.ofExcept (left.arithmetic .add right)).Keeps (Extends onlyBuiltins) machine
      fun result after => result.LiveIn after.heap :=
    (Update.Keeps.ofExcept _).mono fun result after _ done =>
      Value.liveIn_of_string?_eq_none (Value.string?_of_arithmetic_eq_ok done.1)
  unfold addValues
  split
  · refine .get_bind ((Update.Keeps.ofStorage _).bind fun bytes after _ joined => ?_)
    refine (keeps_allocate bytes).bind fun ref last _ live => ?_
    exact .pure (Value.liveIn_string.mpr live)
  · exact plain

theorem keeps_binary (op : Opcode) {operation : Value → Value → Update Value}
    (operates : ∀ left right after, (operation left right).Keeps (Extends onlyBuiltins) after
      fun result last => result.LiveIn last.heap) (intact : machine.Intact onlyBuiltins) :
    (binary op operation).Keeps (Extends onlyBuiltins) machine fun _ _ => True := by
  refine (keeps_popOperands op intact).bind fun values after _ _ => ?_
  obtain ⟨left, right⟩ := values
  refine (operates left right after).bind fun result last _ live => ?_
  exact (keeps_pushOperand live).bind fun _ _ _ _ => .pure trivial

/-- An operation whose results are no strings. -/
theorem keeps_binary_ofExcept (op : Opcode) {operation : Value → Value → Except MachineError Value}
    (plain : ∀ left right result, operation left right = .ok result → result.string? = none)
    (intact : machine.Intact onlyBuiltins) :
    (binary op fun left right => Update.ofExcept (operation left right)).Keeps
      (Extends onlyBuiltins) machine fun _ _ => True :=
  keeps_binary op (fun left right _ => (Update.Keeps.ofExcept _).mono fun result _ _ done =>
    Value.liveIn_of_string?_eq_none (plain left right result done.1)) intact

/-- A comparison of two operands. -/
theorem keeps_binary_bool (op : Opcode) {test : Machine → Value → Value → Bool}
    (intact : machine.Intact onlyBuiltins) :
    (binary op fun left right => do return .bool (test (← get) left right)).Keeps
      (Extends onlyBuiltins) machine fun _ _ => True :=
  keeps_binary op (fun _ _ _ => .get_bind (.pure (Value.liveIn_of_string?_eq_none rfl))) intact

theorem keeps_ordering (op : Opcode) (wanted : List Ordering)
    (intact : machine.Intact onlyBuiltins) :
    (ordering op wanted).Keeps (Extends onlyBuiltins) machine fun _ _ => True := by
  refine keeps_binary op (fun left right after => ?_) intact
  refine .get_bind ((Update.Keeps.ofExcept _).bind fun order last _ _ => ?_)
  exact .pure (Value.liveIn_of_string?_eq_none rfl)

theorem keeps_storeGlobal (index : UInt32) (intact : machine.Intact onlyBuiltins) :
    (storeGlobal index).Keeps (Extends onlyBuiltins) machine fun _ _ => True := by
  refine (keeps_constant index intact).bind fun key after _ found => ?_
  obtain ⟨_, rfl⟩ := found
  refine (keeps_popOperand .storeGlobal intact).bind fun value middle _ live => ?_
  refine .get_bind ((Update.Keeps.ofStorage _).bind fun result last _ stored => ?_)
  obtain ⟨previous, globals⟩ := result
  obtain ⟨done, rfl⟩ := stored
  exact (Update.Keeps.set (extends_put_globals live done)).bind fun _ _ _ _ => .pure trivial

theorem keeps_loadGlobal (index : UInt32) (intact : machine.Intact onlyBuiltins) :
    (loadGlobal index).Keeps (Extends onlyBuiltins) machine fun _ _ => True := by
  refine (keeps_constant index intact).bind fun key after _ found => ?_
  obtain ⟨_, rfl⟩ := found
  refine .get_bind ?_
  cases found : after.globals.get? after.heap key with
  | none => exact .throw
  | some value =>
      obtain ⟨stored, member⟩ :=
        intact.globals_sound.exists_mem_of_get? intact.globals_balanced intact.hashed found
      exact keeps_pushing (intact.globals_live (stored, value) member)

/-! ## Calls -/

theorem keeps_lift_follows {α : Type} {update : Update α} {given : α → Machine → Prop}
    (kept : update.Keeps (Extends onlyBuiltins) machine given) :
    (liftM update : Action α).Keeps (Follows onlyBuiltins) machine given :=
  Action.keeps_lift (kept.weaken fun _ extended => extended.follows)

/-- A native that runs inside a call of the program. -/
theorem keeps_enterNative {invoke : Invoker} (careful : invoke.Careful onlyBuiltins)
    {entry : NativeEntry} (admitted : entry.native.Admitted onlyBuiltins)
    {arguments : List Value} (live : ∀ argument ∈ arguments, argument.LiveIn machine.heap)
    (nested : Bool) (intact : machine.Intact onlyBuiltins) :
    (Action.afterwards (do
      modify fun (machine : Machine) => { machine with inNative := true }
      invoke entry arguments) fun after => { after with inNative := nested }).Keeps
        (Follows onlyBuiltins) machine fun result after => result.LiveIn after.heap := by
  have marked (inside : Bool) (after : Machine) :
      Extends onlyBuiltins after { after with inNative := inside } :=
    extends_of_same rfl rfl rfl rfl rfl
  have started := marked true machine
  have called : (do
      modify fun (machine : Machine) => { machine with inNative := true }
      invoke entry arguments).Keeps (Follows onlyBuiltins) machine
        fun result after => result.LiveIn after.heap := by
    refine (Action.Keeps.modify started.follows).bind fun _ after _ entered => ?_
    subst entered
    exact (careful _ entry arguments (started intact).1 admitted).mono
      fun result after _ result_live => result_live live
  refine (called.afterwards fun after => (marked nested after).follows).mono
    fun result last _ ended => ?_
  obtain ⟨after, _, rfl, result_live⟩ := ended
  exact result_live

/-- The arguments of a call are held by the stack when the native starts, and its result is live
when it ends. -/
theorem keeps_callConstant {invoke : Invoker} (careful : invoke.Careful onlyBuiltins)
    (index : UInt32) (count : Nat) (intact : machine.Intact onlyBuiltins) :
    (callConstant invoke index count).Keeps (Follows onlyBuiltins) machine fun _ _ => True := by
  refine (keeps_lift_follows (keeps_constant index intact)).bind fun key after _ found => ?_
  obtain ⟨_, rfl⟩ := found
  refine .get_bind ?_
  cases registered : after.natives.get? after.heap key with
  | none => exact .throw
  | some entry =>
      have admitted := intact.admitted_of_get? registered
      have arguments_live : ∀ argument ∈ after.stack.top count, argument.LiveIn after.heap :=
        fun argument member => intact.stack argument (OperandStack.mem_of_mem_top member)
      refine (keeps_lift_follows (Update.Keeps.ofStack _)).bind fun _ checked _ same => ?_
      obtain ⟨_, rfl⟩ := same
      refine (keeps_enterNative careful admitted arguments_live _ intact).bind
        fun result ended _ live => ?_
      have shrunk : Extends onlyBuiltins ended
          { ended with stack := ended.stack.truncate (checked.stack.depth - count) } := by
        refine extends_withStack fun value member => ?_
        rw [OperandStack.toList_truncate] at member
        exact List.mem_of_mem_take member
      refine (Action.Keeps.modify shrunk.follows).bind fun _ last _ changed => ?_
      subst changed
      exact keeps_lift_follows (keeps_pushing live)

theorem keeps_execute {invoke : Invoker} (careful : invoke.Careful onlyBuiltins)
    (instruction : Instruction) (intact : machine.Intact onlyBuiltins) :
    (execute invoke instruction).Keeps (Follows onlyBuiltins) machine fun _ _ => True := by
  have plain {value : Value} (none : value.string? = none) :
      (liftM (pushing value) : Action Flow).Keeps (Follows onlyBuiltins) machine fun _ _ => True :=
    keeps_lift_follows (keeps_pushing (Value.liveIn_of_string?_eq_none none))
  cases instruction with
  | pushInt value => exact plain rfl
  | pushFloat value => exact plain rfl
  | pushNil => exact plain rfl
  | pushBool value => exact plain rfl
  | pushString index =>
      refine (keeps_lift_follows (keeps_constant index intact)).bind fun ref after _ found => ?_
      exact keeps_lift_follows (keeps_pushing (Value.liveIn_string.mpr found.1))
  | add => exact keeps_lift_follows (keeps_binary .add (fun _ _ _ => keeps_addValues) intact)
  | sub | mul =>
      exact keeps_lift_follows (keeps_binary_ofExcept _
        (fun _ _ _ => Value.string?_of_arithmetic_eq_ok) intact)
  | div =>
      exact keeps_lift_follows (keeps_binary_ofExcept _
        (fun _ _ _ => Value.string?_of_divide_eq_ok) intact)
  | eq | neq => exact keeps_lift_follows (keeps_binary_bool _ intact)
  | lt | gt | le | ge => exact keeps_lift_follows (keeps_ordering _ _ intact)
  | print =>
      refine (keeps_lift_follows (keeps_topOperand .print intact)).bind fun value after _ _ => ?_
      refine .get_bind ((keeps_lift_follows (keeps_write _)).bind fun _ _ _ _ => ?_)
      exact .pure trivial
  | pop =>
      exact (keeps_lift_follows (keeps_popOperand .pop intact)).bind fun _ _ _ _ => .pure trivial
  | dup =>
      refine (keeps_lift_follows (keeps_topOperand .dup intact)).bind fun value after _ live => ?_
      exact keeps_lift_follows (keeps_pushing live)
  | swap =>
      refine .get_bind ((keeps_lift_follows (Update.Keeps.ofStack _)).bind
        fun stack after _ done => ?_)
      obtain ⟨done, rfl⟩ := done
      have swapped : Extends onlyBuiltins after { after with stack } :=
        extends_withStack fun value member => OperandStack.mem_of_swapTop done member
      exact (Action.Keeps.set swapped.follows).bind fun _ _ _ _ => .pure trivial
  | storeGlobal index => exact keeps_lift_follows (keeps_storeGlobal index intact)
  | loadGlobal index => exact keeps_lift_follows (keeps_loadGlobal index intact)
  | callNative index count => exact keeps_callConstant careful index count.toNat intact
  | jump target => exact .pure trivial
  | jumpIfFalse target =>
      refine (keeps_lift_follows (keeps_popOperand .jumpIfFalse intact)).bind fun _ _ _ _ => ?_
      exact .pure trivial
  | halt => exact .pure trivial

theorem keeps_executeNext {invoke : Invoker} (careful : invoke.Careful onlyBuiltins)
    (intact : machine.Intact onlyBuiltins) :
    (executeNext invoke).Keeps (Follows onlyBuiltins) machine fun _ _ => True := by
  have moved (change : Machine → Machine) (exit : StepExit) (after : Machine)
      (same : Extends onlyBuiltins after (change after)) :
      (do modify change; return exit : Action StepExit).Keeps (Follows onlyBuiltins) after
        fun _ _ => True :=
    (Action.Keeps.modify same.follows).bind fun _ _ _ _ => .pure trivial
  refine .get_bind (.get_bind ?_)
  refine (keeps_lift_follows (Update.Keeps.ofExcept _)).bind fun instruction after _ fetched => ?_
  obtain ⟨_, rfl⟩ := fetched
  refine (keeps_execute careful instruction intact).bind fun flow last _ _ => ?_
  cases flow with
  | next => exact moved _ _ last (extends_of_same rfl rfl rfl rfl rfl)
  | jump target => exact moved _ _ last (extends_of_same rfl rfl rfl rfl rfl)
  | halt => exact moved _ _ last (extends_of_same rfl rfl rfl rfl rfl)

/-! ## Steps and runs -/

theorem Follows.extended {before middle after : Machine}
    (followed : Follows onlyBuiltins before middle)
    (extended : Extends onlyBuiltins middle after) : Follows onlyBuiltins before after :=
  IsTrans.trans _ _ _ followed extended.follows

theorem keeps_faulting {α : Type} {action : Action α} {given : α → Machine → Prop}
    (kept : action.Keeps (Follows onlyBuiltins) machine given) :
    (faulting action).Keeps (Follows onlyBuiltins) machine given :=
  Action.Ensures.faulting (Action.Ensures.mono kept
    (fun _ _ followed => followed.extended (extends_of_same rfl rfl rfl rfl rfl)) fun _ _ => id)

theorem keeps_recorded_action {α : Type} {action : Action α} {given : α → Machine → Prop}
    (kept : action.Keeps (Follows onlyBuiltins) machine given) :
    (Action.recorded action).Keeps (Follows onlyBuiltins) machine given :=
  Action.Keeps.recorded kept fun _ _ followed =>
    followed.extended (extends_of_same rfl rfl rfl rfl rfl)

theorem keeps_stepWith {invoke : Invoker} (careful : invoke.Careful onlyBuiltins)
    (intact : machine.Intact onlyBuiltins) :
    (stepWith invoke).Keeps (Follows onlyBuiltins) machine fun _ _ => True := by
  refine (keeps_lift_follows (keeps_recorded (keeps_requireOutsideNative _))).bind
    fun _ after _ same => ?_
  subst same
  refine .get_bind ?_
  cases after.phase with
  | halted => exact .pure trivial
  | faulted => exact .throw
  | empty => exact keeps_lift_follows (keeps_recorded .throw)
  | ready =>
      cases after.collector.wantsCollection with
      | false => exact keeps_faulting (keeps_executeNext careful intact)
      | true =>
          refine (Action.Keeps.set follows_collect).bind fun _ last followed _ => ?_
          exact keeps_faulting (keeps_executeNext careful (followed intact).1)

theorem keeps_runFor {invoke : Invoker} (careful : invoke.Careful onlyBuiltins) (count : Nat)
    (intact : machine.Intact onlyBuiltins) :
    (runFor invoke count).Keeps (Follows onlyBuiltins) machine fun _ _ => True := by
  induction count generalizing machine with
  | zero => exact .pure trivial
  | succ count induction =>
      refine (keeps_stepWith careful intact).bind fun exit after followed _ => ?_
      cases exit with
      | halted => exact .pure trivial
      | continued => exact induction (followed intact).1

theorem keeps_runWith {invoke : Invoker} (careful : invoke.Careful onlyBuiltins)
    (fuel limit : Nat) (intact : machine.Intact onlyBuiltins) :
    (runWith invoke fuel limit).Keeps (Follows onlyBuiltins) machine fun _ _ => True := by
  unfold runWith
  split
  · refine (keeps_runFor careful fuel intact).bind fun exit after _ _ => ?_
    cases exit with
    | halted => exact .pure trivial
    | stepLimit => exact Action.keeps_exhausted
  · exact keeps_runFor careful limit intact

end Machine

end StackMachine
