import StackMachine.Proofs.Machine.Agreement
import StackMachine.Proofs.Machine.Conduct

/-!
# Runs of machines that look alike

Two actions agree on two machines when both run out of fuel, both fail with one error or both
succeed with results that look alike, and the machines look alike afterwards.  Collections before
steps do not show, and so steps and runs of machines that look alike agree, as long as all natives
are builtins.
-/

namespace StackMachine

variable {α β : Type} {left right : Machine}

namespace Action

/-! ## Agreement -/

/-- Actions whose outcomes agree on two machines that go on looking alike. -/
def Agrees (action action' : Action α) (left right : Machine)
    (given : α → α → Machine → Machine → Prop) : Prop :=
  Option.Rel (OutcomesAgree Machine.Alike given) (action.apply left) (action'.apply right)

variable {given : α → α → Machine → Machine → Prop} {last : β → β → Machine → Machine → Prop}

theorem Agrees.bind {first first' : Action α} {next next' : α → Action β}
    (before : first.Agrees first' left right given)
    (continued : ∀ value value' later later', later.Alike later' →
      given value value' later later' → (next value).Agrees (next' value') later later' last) :
    (first >>= next).Agrees (first' >>= next') left right last := by
  rw [Agrees] at before
  rw [Agrees, apply_bind, apply_bind]
  generalize first.apply left = outcome, first'.apply right = outcome' at before ⊢
  cases before with
  | none => exact .none
  | some agree =>
      rcases agree.cases with ⟨error, later, later', rfl, rfl, alike⟩ |
        ⟨value, value', later, later', rfl, rfl, alike, held⟩
      · exact .some ⟨alike, .error error⟩
      · exact continued value value' later later' alike held

/-- Actions whose outcomes are those of two others, treated in some way. -/
theorem Agrees.of_apply_eq {action action' : Action α} {treated treated' : Action β}
    {treat treat' : Except MachineError α × Machine → Except MachineError β × Machine}
    (agrees : action.Agrees action' left right given)
    (treated_eq : treated.apply left = (action.apply left).map treat)
    (treated_eq' : treated'.apply right = (action'.apply right).map treat')
    (failed : ∀ error later later', later.Alike later' →
      OutcomesAgree Machine.Alike last (treat (.error error, later))
        (treat' (.error error, later')))
    (done : ∀ value value' later later', later.Alike later' → given value value' later later' →
      OutcomesAgree Machine.Alike last (treat (.ok value, later)) (treat' (.ok value', later'))) :
    treated.Agrees treated' left right last := by
  rw [Agrees] at agrees
  rw [Agrees, treated_eq, treated_eq']
  generalize action.apply left = outcome, action'.apply right = outcome' at agrees ⊢
  cases agrees with
  | none => exact .none
  | some agree =>
      rcases agree.cases with ⟨error, later, later', rfl, rfl, alike⟩ |
        ⟨value, value', later, later', rfl, rfl, alike, held⟩
      · exact .some (failed error later later' alike)
      · exact .some (done value value' later later' alike held)

theorem agrees_lift {update update' : Update α} (agrees : update.Agrees update' left right given) :
    (liftM update : Action α).Agrees (liftM update') left right given :=
  .some ⟨agrees.1.alike, agrees.2⟩

theorem Agrees.pure {value value' : α} (alike : left.Alike right)
    (held : given value value' left right) :
    (pure value : Action α).Agrees (pure value') left right given :=
  .some ⟨alike, .ok held⟩

theorem Agrees.throw (alike : left.Alike right) (error : MachineError) :
    (throw error : Action α).Agrees (throw error) left right given :=
  .some ⟨alike, .error error⟩

theorem Agrees.get_bind {next next' : Machine → Action β}
    (continued : (next left).Agrees (next' right) left right last) :
    (get >>= next : Action β).Agrees (get >>= next') left right last := by
  rw [Agrees, apply_bind, apply_bind]
  exact continued

theorem Agrees.set_bind {later later' : Machine} {next next' : PUnit → Action β}
    (continued : (next ⟨⟩).Agrees (next' ⟨⟩) later later' last) :
    (MonadStateOf.set later >>= next : Action β).Agrees
      (MonadStateOf.set later' >>= next') left right
      last := by
  rw [Agrees, apply_bind, apply_bind]
  exact continued

theorem Agrees.modify_bind {change change' : Machine → Machine} {next next' : PUnit → Action β}
    (continued : (next ⟨⟩).Agrees (next' ⟨⟩) (change left) (change' right) last) :
    (modify change >>= next : Action β).Agrees (modify change' >>= next') left right last := by
  rw [Agrees, apply_bind, apply_bind]
  exact continued

theorem Agrees.faulting {action action' : Action α}
    (agrees : action.Agrees action' left right given) :
    (Machine.faulting action).Agrees (Machine.faulting action') left right given :=
  agrees.of_apply_eq (apply_faulting action left) (apply_faulting action' right)
    (fun error _ _ alike => ⟨{ alike with phase_eq := rfl, lastError_eq := rfl }, .error error⟩)
    fun _ _ _ _ alike held => ⟨alike, .ok held⟩

theorem Agrees.attempt {action action' : Action α}
    {last : Except MachineError α → Except MachineError α → Machine → Machine → Prop}
    (agrees : action.Agrees action' left right given)
    (held : ∀ result result' later later',
      ResultsAgree (fun value value' => given value value' later later') result result' →
        last result result' later later') :
    (Action.attempt action).Agrees (Action.attempt action') left right last :=
  agrees.of_apply_eq (apply_attempt action left) (apply_attempt action' right)
    (fun error _ _ alike => ⟨alike, .ok (held _ _ _ _ (.error error))⟩)
    fun _ _ _ _ alike same => ⟨alike, .ok (held _ _ _ _ (.ok same))⟩

theorem Agrees.afterwards {action action' : Action α} {restore restore' : Machine → Machine}
    (agrees : action.Agrees action' left right given)
    (restored : ∀ later later', later.Alike later' → (restore later).Alike (restore' later'))
    (kept : ∀ value value' later later', given value value' later later' →
      given value value' (restore later) (restore' later')) :
    (Action.afterwards action restore).Agrees
      (Action.afterwards action' restore') left right given :=
  agrees.of_apply_eq (apply_afterwards action restore left)
    (apply_afterwards action' restore' right)
    (fun error _ _ alike => ⟨restored _ _ alike, .error error⟩)
    fun _ _ _ _ alike held => ⟨restored _ _ alike, .ok (kept _ _ _ _ held)⟩

end Action

/-- Ways to call builtins that give results that look alike for arguments that do. -/
def Invoker.Uniform (invoke : Invoker) : Prop :=
  ∀ (left right : Machine) (entry : NativeEntry) (arguments arguments' : List Value),
    left.Alike right → entry.native.Admitted true →
    List.Forall₂ (Value.Alike left.heap right.heap) arguments arguments' →
    (invoke entry arguments).Agrees (invoke entry arguments') left right
      fun result result' later later' => Value.Alike later.heap later'.heap result result'

namespace Machine

/-! ## Operands -/

theorem agrees_popOperand (alike : left.Alike right) (op : Opcode) :
    (popOperand op).Agrees (popOperand op) left right fun value value' later later' =>
      Value.Alike later.heap later'.heap value value' := by
  refine .get_bind ((Update.Agrees.ofStack alike (alike.stack.pop op.mnemonic)).bind
    fun _ _ _ _ _ popped => ?_)
  obtain ⟨⟨same, shorter⟩, rfl, rfl⟩ := popped
  exact .set_bind rfl rfl (alike.withStack shorter) (.pure (alike.withStack shorter) same)

theorem agrees_popOperands (alike : left.Alike right) (op : Opcode) :
    (popOperands op).Agrees (popOperands op) left right fun values values' later later' =>
      Value.Alike later.heap later'.heap values.1 values'.1 ∧
        Value.Alike later.heap later'.heap values.2 values'.2 := by
  refine .get_bind ((Update.Agrees.ofStack alike (alike.stack.pop2 op.mnemonic)).bind
    fun _ _ _ _ _ popped => ?_)
  obtain ⟨⟨lower, upper, shorter⟩, rfl, rfl⟩ := popped
  exact .set_bind rfl rfl (alike.withStack shorter)
    (.pure (alike.withStack shorter) ⟨lower, upper⟩)

theorem agrees_topOperand (alike : left.Alike right) (op : Opcode) :
    (topOperand op).Agrees (topOperand op) left right fun value value' later later' =>
      Value.Alike later.heap later'.heap value value' := by
  refine .get_bind ?_
  rw [alike.stack.require_eq]
  refine (Update.Agrees.ofStack alike (.refl _)).bind fun _ _ checked checked' _ same => ?_
  obtain ⟨_, rfl, rfl⟩ := same
  refine .pure alike ?_
  have top := alike.stack.peek 0
  generalize checked.stack.peek? 0 = found, checked'.stack.peek? 0 = found' at top ⊢
  cases top with
  | none => exact .plain rfl
  | some same => exact same

theorem agrees_constant (alike : left.Alike right) (index : UInt32) :
    (constant index).Agrees (constant index) left right fun ref ref' later later' =>
      left.heap.SameContent right.heap ref ref' ∧ later = left ∧ later' = right := by
  refine .get_bind ?_
  have here := forall₂_getElem? alike.constants index.toNat
  have length_eq := alike.constants.length_eq
  have offset_eq := alike.offset_eq
  generalize left.program.constants[index.toNat]? = found,
    right.program.constants[index.toNat]? = found' at here ⊢
  cases here with
  | none =>
      simp only [length_eq, offset_eq]
      exact .throw alike _
  | some same => exact .pure alike ⟨same, rfl, rfl⟩

/-- The name of a constant in messages is its content. -/
theorem nameText_eq {ref ref' : StringRef} (same : left.heap.SameContent right.heap ref ref') :
    left.nameText ref = right.nameText ref' := by
  obtain ⟨bytes, content, content'⟩ := same
  rw [nameText, nameText, content, content']

/-! ## Instructions -/

/-- A result that is no string looks the same everywhere. -/
theorem agrees_ofExcept_plain (alike : left.Alike right) {result : Except MachineError Value}
    (plain : ∀ value, result = .ok value → value.string? = none) :
    (Update.ofExcept result).Agrees (Update.ofExcept result) left right
      fun value value' later later' => Value.Alike later.heap later'.heap value value' := by
  cases result with
  | error error => exact .throw alike error
  | ok value => exact .pure alike (.plain (plain value rfl))

theorem agrees_pushing (alike : left.Alike right) {value value' : Value}
    (same : Value.Alike left.heap right.heap value value') :
    (pushing value).Agrees (pushing value') left right fun flow flow' _ _ => flow = flow' :=
  (agrees_pushOperand alike same).bind fun _ _ _ _ grown _ => .pure grown.alike rfl

theorem agrees_addValues (alike : left.Alike right) {value value' other other' : Value}
    (same : Value.Alike left.heap right.heap value value')
    (same' : Value.Alike left.heap right.heap other other') :
    (addValues value other).Agrees (addValues value' other') left right
      fun result result' later later' => Value.Alike later.heap later'.heap result result' := by
  have plain : (Update.ofExcept (value.arithmetic .add other)).Agrees
      (Update.ofExcept (value'.arithmetic .add other')) left right
      fun result result' later later' => Value.Alike later.heap later'.heap result result' := by
    rw [same.arithmetic_eq same']
    exact agrees_ofExcept_plain alike fun _ => Value.string?_of_arithmetic_eq_ok
  cases same with
  | string front =>
      cases same' with
      | string back =>
          obtain ⟨bytes, content, content'⟩ := front
          obtain ⟨bytes', back_content, back_content'⟩ := back
          refine .get_bind ?_
          simp only [StringHeap.joined, content, content', back_content, back_content']
          refine (Update.Agrees.ofStorage alike (.refl _)).bind fun _ _ _ _ _ joined => ?_
          obtain ⟨rfl, rfl, rfl⟩ := joined
          refine (agrees_allocate alike _).bind fun _ _ _ _ grown same => ?_
          exact .pure grown.alike (.string same)
      | plain none =>
          cases other with
          | string ref => cases none
          | _ => exact plain
  | plain none =>
      cases value with
      | string ref => cases none
      | _ => exact plain

theorem agrees_binary (alike : left.Alike right) (op : Opcode)
    {operation : Value → Value → Update Value}
    (operates : ∀ {later later' : Machine} {value value' other other' : Value}, later.Alike later' →
      Value.Alike later.heap later'.heap value value' →
      Value.Alike later.heap later'.heap other other' →
      (operation value other).Agrees (operation value' other') later later'
        fun result result' later later' => Value.Alike later.heap later'.heap result result') :
    (binary op operation).Agrees (binary op operation) left right fun flow flow' _ _ =>
      flow = flow' := by
  refine (agrees_popOperands alike op).bind fun _ _ _ _ grown popped => ?_
  refine (operates grown.alike popped.1 popped.2).bind fun _ _ _ _ grown result => ?_
  exact (agrees_pushOperand grown.alike result).bind fun _ _ _ _ grown _ => .pure grown.alike rfl

/-- An operation that takes values as they look and gives no strings. -/
theorem agrees_binary_ofExcept (alike : left.Alike right) (op : Opcode)
    {operation : Value → Value → Except MachineError Value}
    (plain : ∀ value other result, operation value other = .ok result → result.string? = none)
    (operation_eq : ∀ {heap heap' : StringHeap} {value value' other other' : Value},
      Value.Alike heap heap' value value' → Value.Alike heap heap' other other' →
      operation value other = operation value' other') :
    (binary op fun value other => Update.ofExcept (operation value other)).Agrees
      (binary op fun value other => Update.ofExcept (operation value other)) left right
      fun flow flow' _ _ => flow = flow' := by
  refine agrees_binary alike op fun later_alike same same' => ?_
  rw [operation_eq same same']
  exact agrees_ofExcept_plain later_alike fun _ => plain _ _ _

/-- A comparison that takes values as they look. -/
theorem agrees_binary_bool (alike : left.Alike right) (op : Opcode)
    (test : StringHeap → Value → Value → Bool)
    (test_eq : ∀ {later later' : Machine} {value value' other other' : Value}, later.Alike later' →
      Value.Alike later.heap later'.heap value value' →
      Value.Alike later.heap later'.heap other other' →
      test later.heap value other = test later'.heap value' other') :
    (binary op fun value other => do return .bool (test (← get).heap value other)).Agrees
      (binary op fun value other => do return .bool (test (← get).heap value other)) left right
      fun flow flow' _ _ => flow = flow' := by
  refine agrees_binary alike op fun later_alike same same' => .get_bind ?_
  rw [test_eq later_alike same same']
  exact .pure later_alike (.plain rfl)

theorem agrees_ordering (alike : left.Alike right) (op : Opcode) (wanted : List Ordering) :
    (ordering op wanted).Agrees (ordering op wanted) left right
      fun flow flow' _ _ => flow = flow' := by
  refine agrees_binary alike op fun later_alike same same' => .get_bind ?_
  rw [same.order_eq same']
  refine (Update.Agrees.ofExcept later_alike (.refl _)).bind fun _ _ _ _ grown order => ?_
  obtain ⟨rfl, _⟩ := order
  exact .pure grown.alike (.plain rfl)

theorem agrees_storeGlobal (alike : left.Alike right) (index : UInt32) :
    (storeGlobal index).Agrees (storeGlobal index) left right
      fun flow flow' _ _ => flow = flow' := by
  refine (agrees_constant alike index).bind fun key key' _ _ _ found => ?_
  obtain ⟨key_same, rfl, rfl⟩ := found
  refine (agrees_popOperand alike .storeGlobal).bind fun value value' later later' grown same => ?_
  have stored := grown.alike.globals.put grown.alike.left_tame.hashed grown.alike.right_tame.hashed
    (key_same.preserved grown.left_preserved grown.right_preserved) same
  refine .get_bind ((Update.Agrees.ofStorage grown.alike stored).bind fun _ _ _ _ _ put => ?_)
  obtain ⟨globals, rfl, rfl⟩ := put
  have after := grown.alike.withGlobals globals
  exact .set_bind rfl rfl after (.pure after rfl)

theorem agrees_loadGlobal (alike : left.Alike right) (index : UInt32) :
    (loadGlobal index).Agrees (loadGlobal index) left right
      fun flow flow' _ _ => flow = flow' := by
  refine (agrees_constant alike index).bind fun key key' _ _ _ found => ?_
  obtain ⟨same, rfl, rfl⟩ := found
  refine .get_bind ?_
  have values := alike.globals.get alike.left_tame.hashed alike.right_tame.hashed same
  have name_eq := nameText_eq same
  generalize ContentMap.get? _ _ key = found, ContentMap.get? _ _ key' = found' at values ⊢
  cases values with
  | none =>
      simp only [name_eq]
      exact .throw alike _
  | some same => exact agrees_pushing alike same

/-! ## Steps and runs -/

/-- A builtin that runs inside a call of the program. -/
theorem agrees_enterNative {invoke : Invoker} (uniform : invoke.Uniform) (alike : left.Alike right)
    {entry : NativeEntry} (admitted : entry.native.Admitted true)
    {arguments arguments' : List Value}
    (same : List.Forall₂ (Value.Alike left.heap right.heap) arguments arguments') (nested : Bool) :
    (Action.afterwards (do
      modify fun (machine : Machine) => { machine with inNative := true }
      invoke entry arguments) fun after => { after with inNative := nested }).Agrees
      (Action.afterwards (do
        modify fun (machine : Machine) => { machine with inNative := true }
        invoke entry arguments') fun after => { after with inNative := nested }) left right
      fun result result' later later' => Value.Alike later.heap later'.heap result result' := by
  refine Action.Agrees.afterwards (Action.Agrees.modify_bind ?_)
    (fun _ _ alike => { alike with inNative_eq := rfl }) fun _ _ _ _ => id
  exact uniform _ _ entry _ _ { alike with inNative_eq := rfl } admitted same

theorem agrees_callConstant {invoke : Invoker} (uniform : invoke.Uniform) (alike : left.Alike right)
    (index : UInt32) (count : Nat) :
    (callConstant invoke index count).Agrees (callConstant invoke index count) left right
      fun flow flow' _ _ => flow = flow' := by
  refine (Action.agrees_lift (agrees_constant alike index)).bind
    fun key key' before before' _ found => ?_
  obtain ⟨key_same, rfl, rfl⟩ := found
  refine .get_bind ?_
  have entries := alike.natives.get alike.left_tame.hashed alike.right_tame.hashed key_same
  have name_eq := nameText_eq key_same
  generalize before.natives.get? before.heap key = found,
    before'.natives.get? before'.heap key' = found'
    at entries ⊢
  cases entries with
  | none =>
      simp only [name_eq]
      exact .throw alike _
  | some same =>
      obtain ⟨rfl, admitted⟩ := same
      simp only [alike.stack.require_eq, alike.stack.depth_eq, alike.inNative_eq]
      refine (Action.agrees_lift (Update.Agrees.ofStack alike (.refl _))).bind
        fun _ _ checked checked' _ same => ?_
      obtain ⟨_, rfl, rfl⟩ := same
      refine (agrees_enterNative uniform alike admitted (alike.stack.top count) _).bind
        fun _ _ _ _ ended result => ?_
      refine Action.Agrees.modify_bind ?_
      exact Action.agrees_lift (agrees_pushing (ended.withStack (ended.stack.truncate _)) result)

theorem agrees_execute {invoke : Invoker} (uniform : invoke.Uniform) (alike : left.Alike right)
    (instruction : Instruction) :
    (execute invoke instruction).Agrees (execute invoke instruction) left right
      fun flow flow' _ _ => flow = flow' := by
  have plain {value : Value} (none : value.string? = none) :
      (liftM (pushing value) : Action Flow).Agrees (liftM (pushing value)) left right
        fun flow flow' _ _ => flow = flow' :=
    Action.agrees_lift (agrees_pushing alike (.plain none))
  cases instruction with
  | pushInt value => exact plain rfl
  | pushFloat value => exact plain rfl
  | pushNil => exact plain rfl
  | pushBool value => exact plain rfl
  | pushString index =>
      refine (Action.agrees_lift (agrees_constant alike index)).bind fun _ _ _ _ _ found => ?_
      obtain ⟨same, rfl, rfl⟩ := found
      exact Action.agrees_lift (agrees_pushing alike (.string same))
  | add =>
      exact Action.agrees_lift (agrees_binary alike .add fun later same same' =>
        agrees_addValues later same same')
  | sub | mul =>
      exact Action.agrees_lift (agrees_binary_ofExcept alike _
        (fun _ _ _ => Value.string?_of_arithmetic_eq_ok) fun same same' =>
          same.arithmetic_eq same' _)
  | div =>
      exact Action.agrees_lift (agrees_binary_ofExcept alike _
        (fun _ _ _ => Value.string?_of_divide_eq_ok) fun same same' => same.divide_eq same')
  | eq =>
      exact Action.agrees_lift (agrees_binary_bool alike .eq
        (fun heap value other => value.isEqual heap other) fun later same same' =>
          Value.Alike.isEqual_eq later.left_tame.hashed later.right_tame.hashed same same')
  | neq =>
      exact Action.agrees_lift (agrees_binary_bool alike .neq
        (fun heap value other => !value.isEqual heap other) fun later same same' =>
          congrArg (!·)
            (Value.Alike.isEqual_eq later.left_tame.hashed later.right_tame.hashed same same'))
  | lt | gt | le | ge => exact Action.agrees_lift (agrees_ordering alike _ _)
  | print =>
      refine (Action.agrees_lift (agrees_topOperand alike .print)).bind
        fun _ _ _ _ later_alike same => ?_
      refine .get_bind ?_
      rw [same.text_eq]
      exact (Action.agrees_lift (agrees_write later_alike _)).bind fun _ _ _ _ last _ =>
        .pure last rfl
  | pop =>
      exact (Action.agrees_lift (agrees_popOperand alike .pop)).bind
        fun _ _ _ _ later_alike _ => .pure later_alike rfl
  | dup =>
      exact (Action.agrees_lift (agrees_topOperand alike .dup)).bind
        fun _ _ _ _ later_alike same => Action.agrees_lift (agrees_pushing later_alike same)
  | swap =>
      refine .get_bind ((Action.agrees_lift (Update.Agrees.ofStack alike
        (alike.stack.swapTop _))).bind fun _ _ _ _ _ swapped => ?_)
      obtain ⟨swapped, rfl, rfl⟩ := swapped
      exact Action.Agrees.set_bind (.pure (alike.withStack swapped) rfl)
  | storeGlobal index => exact Action.agrees_lift (agrees_storeGlobal alike index)
  | loadGlobal index => exact Action.agrees_lift (agrees_loadGlobal alike index)
  | callNative index count => exact agrees_callConstant uniform alike index count.toNat
  | jump target => exact .pure alike rfl
  | jumpIfFalse target =>
      refine (Action.agrees_lift (agrees_popOperand alike .jumpIfFalse)).bind
        fun _ _ _ _ later_alike same => ?_
      exact .pure later_alike (by rw [same.isTruthy_eq])
  | halt => exact .pure alike rfl

theorem fetch_eq (alike : left.Alike right) : left.fetch = right.fetch := by
  rw [fetch, fetch, alike.code_eq, alike.offset_eq]

theorem agrees_executeNext {invoke : Invoker} (uniform : invoke.Uniform)
    (alike : left.Alike right) :
    (executeNext invoke).Agrees (executeNext invoke) left right fun exit exit' _ _ =>
      exit = exit' := by
  refine .get_bind (.get_bind ?_)
  rw [fetch_eq alike, alike.offset_eq]
  refine (Action.agrees_lift (Update.Agrees.ofExcept alike (.refl _))).bind
    fun instruction _ _ _ _ fetched => ?_
  obtain ⟨rfl, rfl, rfl⟩ := fetched
  refine (agrees_execute uniform alike instruction).bind fun flow _ _ _ later_alike same => ?_
  subst same
  cases flow with
  | next => exact Action.Agrees.modify_bind (.pure { later_alike with offset_eq := rfl } rfl)
  | jump target => exact Action.Agrees.modify_bind (.pure { later_alike with offset_eq := rfl } rfl)
  | halt => exact Action.Agrees.modify_bind (.pure { later_alike with phase_eq := rfl } rfl)

/-- A step collects first or does not, on either machine. -/
theorem Alike.swept (alike : left.Alike right) : left.swept.Alike right.swept := by
  have one_sided {machine other : Machine} (alike : machine.Alike other) :
      machine.swept.Alike other := by
    unfold Machine.swept
    split
    · exact alike.collect_left
    · exact alike
  exact (one_sided (one_sided alike).symm).symm

/-- A collection that is wanted happens before what follows. -/
theorem apply_sweep (machine : Machine) (next : Action α) :
    (do
      if machine.collector.wantsCollection then set machine.collect.2
      next : Action α).apply machine = next.apply machine.swept := by
  unfold Machine.swept
  cases machine.collector.wantsCollection <;> rfl

theorem agrees_stepWith {invoke : Invoker} (uniform : invoke.Uniform) (alike : left.Alike right) :
    (stepWith invoke).Agrees (stepWith invoke) left right fun exit exit' _ _ => exit = exit' := by
  refine (Action.agrees_lift (.recorded (agrees_requireOutsideNative alike "step"))).bind
    fun _ _ before before' _ same => ?_
  obtain ⟨rfl, rfl⟩ := same
  refine .get_bind ?_
  simp only [alike.phase_eq]
  cases before'.phase with
  | halted => exact .pure alike rfl
  | faulted => exact .throw alike _
  | empty => exact Action.agrees_lift (.recorded (.throw alike _))
  | ready =>
      have executed := (agrees_executeNext uniform alike.swept).faulting
      rw [Action.Agrees, ← apply_sweep, ← apply_sweep] at executed
      exact executed

theorem agrees_runFor {invoke : Invoker} (uniform : invoke.Uniform) (alike : left.Alike right)
    (count : Nat) :
    (runFor invoke count).Agrees (runFor invoke count) left right
      fun exit exit' _ _ => exit = exit' := by
  induction count generalizing left right with
  | zero => exact .pure alike rfl
  | succ count induction =>
      refine (agrees_stepWith uniform alike).bind fun exit _ _ _ later_alike same => ?_
      subst same
      cases exit with
      | halted => exact .pure later_alike rfl
      | continued => exact induction later_alike

theorem agrees_runWith {invoke : Invoker} (uniform : invoke.Uniform) (alike : left.Alike right)
    (fuel limit : Nat) :
    (runWith invoke fuel limit).Agrees (runWith invoke fuel limit) left right
      fun exit exit' _ _ => exit = exit' := by
  unfold runWith
  split
  · refine (agrees_runFor uniform alike fuel).bind fun exit _ _ _ later_alike same => ?_
    subst same
    cases exit with
    | halted => exact .pure later_alike rfl
    | stepLimit => exact .none
  · exact agrees_runFor uniform alike limit

/-! ## Natives -/

theorem agrees_runEntry (perform : (call : Call) → Action call.Reply) (alike : left.Alike right)
    {entry : NativeEntry} (admitted : entry.native.Admitted true)
    {arguments arguments' : List Value}
    (same : List.Forall₂ (Value.Alike left.heap right.heap) arguments arguments') :
    (runEntry perform entry arguments).Agrees (runEntry perform entry arguments') left right
      fun result result' later later' => Value.Alike later.heap later'.heap result result' := by
  obtain ⟨name, native, signature⟩ := entry
  cases native with
  | host body => cases admitted
  | builtin builtin =>
      have ran {left right : Machine} (alike : left.Alike right) {arguments arguments' : List Value}
          (same : List.Forall₂ (Value.Alike left.heap right.heap) arguments arguments') :
          (runNative perform (.builtin builtin) arguments).Agrees
            (runNative perform (.builtin builtin) arguments') left right
            fun result result' later later' => Value.Alike later.heap later'.heap result result' :=
        Action.agrees_lift (agrees_builtin alike builtin same)
      cases signature with
      | none => exact ran alike same
      | some signature =>
          refine .get_bind (Action.Agrees.afterwards ?_ (fun _ _ alike => ?_) fun _ _ _ _ => id)
          · refine (Action.agrees_lift (agrees_coerceArguments alike signature name same)).bind
              fun converted converted' later later' later_alike same => ?_
            refine Action.Agrees.modify_bind ?_
            have kept : Alike { later with scratch := later.scratch ++ converted }
                { later' with scratch := later'.scratch ++ converted' } :=
              { later_alike with }
            refine (ran kept same).bind fun _ _ _ _ ended same => ?_
            exact Action.agrees_lift (agrees_coerceResult ended signature name same)
          · exact { alike with }

theorem uniform_invoke (fuel : Nat) : (invoke fuel).Uniform := by
  intro left right entry arguments arguments' alike admitted same
  cases fuel with
  | zero => exact .none
  | succ fuel => exact agrees_runEntry _ alike admitted same

end Machine

end StackMachine
