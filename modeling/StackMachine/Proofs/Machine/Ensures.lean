import StackMachine.Machine.Calls
import Mathlib.Order.Defs.Unbundled

/-!
# Outcomes of updates and actions

`Ensures` says what holds after an update, one way when it fails and another when it succeeds, and
the same of an action that ends.  `Keeps` is the case of a relation between the machine before and
after, which is chained along the parts of an update when it is a preorder.
-/

namespace StackMachine

variable {α β : Type}

/-- What holds of an outcome: one thing of a failure, another of a success. -/
def Holds (failed : MachineError → Machine → Prop) (done : α → Machine → Prop) :
    Except MachineError α × Machine → Prop
  | (.error error, after) => failed error after
  | (.ok value, after) => done value after

theorem Holds.mono {failed failed' : MachineError → Machine → Prop}
    {done done' : α → Machine → Prop}
    {outcome : Except MachineError α × Machine} (holds : Holds failed done outcome)
    (failed_of : ∀ error after, failed error after → failed' error after)
    (done_of : ∀ value after, done value after → done' value after) :
    Holds failed' done' outcome := by
  obtain ⟨result, after⟩ := outcome
  cases result with
  | error error => exact failed_of error after holds
  | ok value => exact done_of value after holds

namespace Update

/-! ## Updates -/

theorem apply_bind (first : Update α) (next : α → Update β) (machine : Machine) :
    (first >>= next).apply machine =
      match first.apply machine with
      | (.ok value, after) => (next value).apply after
      | (.error error, after) => (.error error, after) := by
  simp only [apply, ExceptT.run, StateT.run, bind, ExceptT.bind, ExceptT.mk, StateT.bind,
    ExceptT.bindCont]
  cases first machine with
  | mk result after => cases result <;> rfl

theorem apply_get_bind (next : Machine → Update β) (machine : Machine) :
    (get >>= next : Update β).apply machine = (next machine).apply machine :=
  rfl

/-- What holds after an update that fails, and after one that succeeds. -/
def Ensures (update : Update α) (machine : Machine) (failed : MachineError → Machine → Prop)
    (done : α → Machine → Prop) : Prop :=
  Holds failed done (update.apply machine)

variable {machine : Machine} {failed : MachineError → Machine → Prop}
  {done : α → Machine → Prop}

theorem Ensures.bind {first : Update α} {next : α → Update β} {last : β → Machine → Prop}
    (before : first.Ensures machine failed done)
    (continued : ∀ value after, done value after → (next value).Ensures after failed last) :
    (first >>= next).Ensures machine failed last := by
  rw [Ensures] at before
  rw [Ensures, apply_bind]
  rcases outcome : first.apply machine with ⟨result, after⟩
  rw [outcome] at before
  cases result with
  | error error => exact before
  | ok value => exact continued value after before

theorem Ensures.mono {update : Update α} {failed' : MachineError → Machine → Prop}
    {done' : α → Machine → Prop} (ensures : update.Ensures machine failed done)
    (failed_of : ∀ error after, failed error after → failed' error after)
    (done_of : ∀ value after, done value after → done' value after) :
    update.Ensures machine failed' done' :=
  Holds.mono ensures failed_of done_of

theorem apply_recorded (update : Update α) (machine : Machine) :
    (recorded update).apply machine =
      match update.apply machine with
      | (.error error, after) => (.error error, after.remember error)
      | success => success :=
  rfl

theorem Ensures.recorded {update : Update α}
    (ensures : update.Ensures machine
      (fun error after => failed error (after.remember error)) done) :
    (Update.recorded update).Ensures machine failed done := by
  rw [Ensures] at ensures
  rw [Ensures, apply_recorded]
  rcases outcome : update.apply machine with ⟨result, after⟩
  rw [outcome] at ensures
  cases result <;> exact ensures

/-- An update stays within a relation between machines, and a success gives something more. -/
def Keeps (relation : Machine → Machine → Prop) (update : Update α) (machine : Machine)
    (given : α → Machine → Prop) : Prop :=
  update.Ensures machine (fun _ after => relation machine after)
    (fun value after => relation machine after ∧ given value after)

variable {relation : Machine → Machine → Prop} {given : α → Machine → Prop}

theorem Keeps.bind [IsTrans Machine relation] {first : Update α} {next : α → Update β}
    {last : β → Machine → Prop} (before : first.Keeps relation machine given)
    (continued : ∀ value after, relation machine after → given value after →
      (next value).Keeps relation after last) :
    (first >>= next).Keeps relation machine last := by
  refine Ensures.bind before fun value middle kept => ?_
  refine (continued value middle kept.1 kept.2).mono (fun error after later => ?_)
    fun value after later => ⟨?_, later.2⟩
  · exact IsTrans.trans _ _ _ kept.1 later
  · exact IsTrans.trans _ _ _ kept.1 later.1

theorem Keeps.related {update : Update α} (kept : update.Keeps relation machine given) :
    relation machine (update.apply machine).2 := by
  rw [Keeps, Ensures] at kept
  rcases outcome : update.apply machine with ⟨result, after⟩
  rw [outcome] at kept
  cases result with
  | error error => exact kept
  | ok value => exact kept.1

theorem Keeps.mono {update : Update α} {given' : α → Machine → Prop}
    (kept : update.Keeps relation machine given)
    (weaker : ∀ value after, relation machine after → given value after → given' value after) :
    update.Keeps relation machine given' :=
  Ensures.mono kept (fun _ _ => id) fun value after held =>
    ⟨held.1, weaker value after held.1 held.2⟩

theorem Keeps.pure [Std.Refl relation] {value : α} (held : given value machine) :
    (pure value : Update α).Keeps relation machine given :=
  ⟨Std.Refl.refl machine, held⟩

theorem Keeps.get_bind {next : Machine → Update β} {last : β → Machine → Prop}
    (continued : (next machine).Keeps relation machine last) :
    (get >>= next : Update β).Keeps relation machine last := by
  rw [Keeps, Ensures, apply_bind]
  exact continued

theorem Keeps.set {after : Machine} (related : relation machine after) :
    (MonadStateOf.set after : Update PUnit).Keeps relation machine fun _ result =>
      result = after :=
  ⟨related, rfl⟩

theorem Keeps.modify {change : Machine → Machine} (related : relation machine (change machine)) :
    (modify change : Update PUnit).Keeps relation machine fun _ result =>
      result = change machine :=
  ⟨related, rfl⟩

theorem Keeps.modifyGet {change : Machine → α × Machine}
    (related : relation machine (change machine).2) :
    (modifyGet change : Update α).Keeps relation machine fun value after =>
      (value, after) = change machine :=
  ⟨related, rfl⟩

theorem Keeps.throw [Std.Refl relation] {error : MachineError} :
    (throw error : Update α).Keeps relation machine given :=
  Std.Refl.refl machine

theorem Keeps.ofExcept [Std.Refl relation] (result : Except MachineError α) :
    (ofExcept result).Keeps relation machine fun value after =>
      result = .ok value ∧ after = machine := by
  cases result with
  | error error => exact Std.Refl.refl machine
  | ok value => exact ⟨Std.Refl.refl machine, rfl, rfl⟩

theorem Keeps.ofStorage [Std.Refl relation] (result : Except StorageError α) :
    (ofStorage result).Keeps relation machine fun value after =>
      result = .ok value ∧ after = machine := by
  cases result with
  | error error => exact Std.Refl.refl machine
  | ok value => exact ⟨Std.Refl.refl machine, rfl, rfl⟩

theorem Keeps.ofStack [Std.Refl relation] (result : Except RuntimeFault α) :
    (ofStack result).Keeps relation machine fun value after =>
      result = .ok value ∧ after = machine := by
  cases result with
  | error error => exact Std.Refl.refl machine
  | ok value => exact ⟨Std.Refl.refl machine, rfl, rfl⟩

theorem Keeps.weaken {update : Update α} {weaker : Machine → Machine → Prop}
    (kept : update.Keeps relation machine given)
    (part : ∀ after, relation machine after → weaker machine after) :
    update.Keeps weaker machine given :=
  Ensures.mono kept (fun _ after => part after) fun _ after held => ⟨part after held.1, held.2⟩

/-- Remembering a failure stays within a relation that does not look at the record. -/
theorem Keeps.recorded {update : Update α} (kept : update.Keeps relation machine given)
    (remembered : ∀ after error, relation machine after →
      relation machine (after.remember error)) :
    (Update.recorded update).Keeps relation machine given :=
  Ensures.recorded (Ensures.mono kept (fun error after => remembered after error) fun _ _ => id)

end Update

namespace Action

/-! ## Actions -/

theorem apply_bind (first : Action α) (next : α → Action β) (machine : Machine) :
    (first >>= next).apply machine =
      match first.apply machine with
      | some (.ok value, after) => (next value).apply after
      | some (.error error, after) => some (.error error, after)
      | none => none := by
  simp only [apply, ExceptT.run, StateT.run, bind, ExceptT.bind, ExceptT.mk, StateT.bind,
    ExceptT.bindCont]
  cases first machine with
  | none => rfl
  | some outcome =>
      obtain ⟨result, after⟩ := outcome
      cases result <;> rfl

theorem apply_get_bind (next : Machine → Action β) (machine : Machine) :
    (get >>= next : Action β).apply machine = (next machine).apply machine :=
  rfl

theorem apply_of (effect : Machine → Option (Except MachineError α × Machine)) (machine : Machine) :
    (Action.of effect).apply machine = effect machine :=
  rfl

theorem apply_recorded (action : Action α) (machine : Machine) :
    (recorded action).apply machine = (action.apply machine).map fun
      | (.error error, after) => (.error error, after.remember error)
      | success => success := by
  rw [recorded, apply_of]
  rcases action.apply machine with _ | ⟨_ | _, after⟩ <;> rfl

theorem apply_faulting (action : Action α) (machine : Machine) :
    (Machine.faulting action).apply machine = (action.apply machine).map fun
      | (.error error, after) =>
        (.error error, ({ after with phase := .faulted } : Machine).remember error)
      | success => success := by
  rw [Machine.faulting, apply_of]
  rcases action.apply machine with _ | ⟨_ | _, after⟩ <;> rfl

theorem apply_attempt (action : Action α) (machine : Machine) :
    (attempt action).apply machine =
      (action.apply machine).map fun (result, after) => (.ok result, after) :=
  rfl

theorem apply_afterwards (action : Action α) (restore : Machine → Machine) (machine : Machine) :
    (afterwards action restore).apply machine =
      (action.apply machine).map fun (result, after) => (result, restore after) :=
  rfl

/-- What holds after an action that fails, and after one that succeeds. -/
def Ensures (action : Action α) (machine : Machine) (failed : MachineError → Machine → Prop)
    (done : α → Machine → Prop) : Prop :=
  ∀ outcome, action.apply machine = some outcome → Holds failed done outcome

variable {machine : Machine} {failed : MachineError → Machine → Prop}
  {done : α → Machine → Prop}

/-- An action that ends has a single outcome. -/
theorem ensures_of_eq_some {action : Action α} {outcome : Except MachineError α × Machine}
    (ended : action.apply machine = some outcome) (holds : Holds failed done outcome) :
    action.Ensures machine failed done := by
  intro found found_eq
  cases ended.symm.trans found_eq
  exact holds

theorem ensures_lift {update : Update α} (ensures : update.Ensures machine failed done) :
    (liftM update : Action α).Ensures machine failed done :=
  ensures_of_eq_some rfl ensures

theorem Ensures.bind {first : Action α} {next : α → Action β} {last : β → Machine → Prop}
    (before : first.Ensures machine failed done)
    (continued : ∀ value after, done value after → (next value).Ensures after failed last) :
    (first >>= next).Ensures machine failed last := by
  intro outcome ended
  rw [apply_bind] at ended
  cases early : first.apply machine with
  | none =>
      rw [early] at ended
      cases ended
  | some middle =>
      rw [early] at ended
      obtain ⟨result, after⟩ := middle
      cases result with
      | error error =>
          cases ended
          exact before _ early
      | ok value => exact continued value after (before _ early) outcome ended

theorem Ensures.mono {action : Action α} {failed' : MachineError → Machine → Prop}
    {done' : α → Machine → Prop} (ensures : action.Ensures machine failed done)
    (failed_of : ∀ error after, failed error after → failed' error after)
    (done_of : ∀ value after, done value after → done' value after) :
    action.Ensures machine failed' done' :=
  fun outcome ended => (ensures outcome ended).mono failed_of done_of

/-- An action whose outcomes are those of another, treated in some way. -/
theorem Ensures.of_apply_eq {action : Action α} {action' : Action β}
    {treat : Except MachineError α × Machine → Except MachineError β × Machine}
    {failed' : MachineError → Machine → Prop} {done' : β → Machine → Prop}
    (treated : action'.apply machine = (action.apply machine).map treat)
    (ensures : action.Ensures machine failed done)
    (failed_of : ∀ error after, failed error after →
      Holds failed' done' (treat (.error error, after)))
    (done_of : ∀ value after, done value after → Holds failed' done' (treat (.ok value, after))) :
    action'.Ensures machine failed' done' := by
  intro outcome ended
  rw [treated] at ended
  obtain ⟨⟨result, after⟩, early, rfl⟩ := Option.map_eq_some_iff.mp ended
  cases result with
  | error error => exact failed_of error after (ensures _ early)
  | ok value => exact done_of value after (ensures _ early)

theorem Ensures.recorded {action : Action α}
    (ensures : action.Ensures machine
      (fun error after => failed error (after.remember error)) done) :
    (Action.recorded action).Ensures machine failed done :=
  ensures.of_apply_eq (apply_recorded action machine) (fun _ _ => id) fun _ _ => id

theorem Ensures.faulting {action : Action α}
    (ensures : action.Ensures machine
      (fun error after =>
        failed error (({ after with phase := .faulted } : Machine).remember error)) done) :
    (Machine.faulting action).Ensures machine failed done :=
  ensures.of_apply_eq (apply_faulting action machine) (fun _ _ => id) fun _ _ => id

theorem Ensures.attempt {action : Action α} {last : Except MachineError α → Machine → Prop}
    (ensures : action.Ensures machine (fun error after => last (.error error) after)
      (fun value after => last (.ok value) after)) :
    (Action.attempt action).Ensures machine failed last :=
  ensures.of_apply_eq (apply_attempt action machine) (fun _ _ => id) fun _ _ => id

theorem Ensures.afterwards {action : Action α} {restore : Machine → Machine}
    (ensures : action.Ensures machine (fun error after => failed error (restore after))
      (fun value after => done value (restore after))) :
    (Action.afterwards action restore).Ensures machine failed done :=
  ensures.of_apply_eq (apply_afterwards action restore machine) (fun _ _ => id) fun _ _ => id

/-- An action stays within a relation between machines, and a success gives something more. -/
def Keeps (relation : Machine → Machine → Prop) (action : Action α) (machine : Machine)
    (given : α → Machine → Prop) : Prop :=
  action.Ensures machine (fun _ after => relation machine after)
    (fun value after => relation machine after ∧ given value after)

variable {relation : Machine → Machine → Prop} {given : α → Machine → Prop}

theorem Keeps.bind [IsTrans Machine relation] {first : Action α} {next : α → Action β}
    {last : β → Machine → Prop} (before : first.Keeps relation machine given)
    (continued : ∀ value after, relation machine after → given value after →
      (next value).Keeps relation after last) :
    (first >>= next).Keeps relation machine last := by
  refine Ensures.bind before fun value middle kept => ?_
  refine (continued value middle kept.1 kept.2).mono (fun error after later => ?_)
    fun value after later => ⟨?_, later.2⟩
  · exact IsTrans.trans _ _ _ kept.1 later
  · exact IsTrans.trans _ _ _ kept.1 later.1

theorem Keeps.related {action : Action α} {result : Except MachineError α} {after : Machine}
    (kept : action.Keeps relation machine given)
    (ended : action.apply machine = some (result, after)) : relation machine after := by
  have holds := kept _ ended
  cases result with
  | error error => exact holds
  | ok value => exact holds.1

/-- What a success gives may be that it is the outcome. -/
theorem Keeps.ended {action : Action α} (kept : action.Keeps relation machine given) :
    action.Keeps relation machine fun value after =>
      action.apply machine = some (.ok value, after) := by
  rintro ⟨result, after⟩ ended
  have related := kept.related ended
  cases result with
  | error error => exact related
  | ok value => exact ⟨related, ended⟩

theorem Keeps.mono {action : Action α} {given' : α → Machine → Prop}
    (kept : action.Keeps relation machine given)
    (weaker : ∀ value after, relation machine after → given value after → given' value after) :
    action.Keeps relation machine given' :=
  Ensures.mono kept (fun _ _ => id) fun value after held =>
    ⟨held.1, weaker value after held.1 held.2⟩

theorem Keeps.pure [Std.Refl relation] {value : α} (held : given value machine) :
    (pure value : Action α).Keeps relation machine given :=
  ensures_of_eq_some rfl ⟨Std.Refl.refl machine, held⟩

theorem Keeps.get_bind {next : Machine → Action β} {last : β → Machine → Prop}
    (continued : (next machine).Keeps relation machine last) :
    (get >>= next : Action β).Keeps relation machine last := by
  rw [Keeps, Ensures, apply_bind]
  exact continued

theorem Keeps.set {after : Machine} (related : relation machine after) :
    (MonadStateOf.set after : Action PUnit).Keeps relation machine fun _ result =>
      result = after :=
  ensures_of_eq_some rfl ⟨related, rfl⟩

theorem Keeps.modify {change : Machine → Machine} (related : relation machine (change machine)) :
    (modify change : Action PUnit).Keeps relation machine fun _ result =>
      result = change machine :=
  ensures_of_eq_some rfl ⟨related, rfl⟩

theorem Keeps.throw [Std.Refl relation] {error : MachineError} :
    (throw error : Action α).Keeps relation machine given :=
  ensures_of_eq_some rfl (Std.Refl.refl machine)

theorem keeps_exhausted : (exhausted : Action α).Keeps relation machine given := by
  intro outcome ended
  cases ended

theorem keeps_lift {update : Update α} (kept : update.Keeps relation machine given) :
    (liftM update : Action α).Keeps relation machine given :=
  ensures_lift kept

theorem Keeps.attempt {action : Action α} (kept : action.Keeps relation machine given) :
    (Action.attempt action).Keeps relation machine fun _ _ => True :=
  Ensures.attempt (Ensures.mono kept (fun _ _ related => ⟨related, trivial⟩)
    fun _ _ held => ⟨held.1, trivial⟩)

/-- Remembering a failure stays within a relation that does not look at the record. -/
theorem Keeps.recorded {action : Action α} (kept : action.Keeps relation machine given)
    (remembered : ∀ after error, relation machine after →
      relation machine (after.remember error)) :
    (Action.recorded action).Keeps relation machine given :=
  Ensures.recorded (Ensures.mono kept (fun error after => remembered after error) fun _ _ => id)

theorem Keeps.afterwards [IsTrans Machine relation] {action : Action α}
    {restore : Machine → Machine} (kept : action.Keeps relation machine given)
    (restored : ∀ after, relation after (restore after)) :
    (Action.afterwards action restore).Keeps relation machine fun value last =>
      ∃ after, relation machine after ∧ last = restore after ∧ given value after :=
  Ensures.afterwards (Ensures.mono kept
    (fun _ after related => IsTrans.trans _ _ _ related (restored after))
    fun _ after held =>
      ⟨IsTrans.trans _ _ _ held.1 (restored after), after, held.1, rfl, held.2⟩)

theorem Keeps.changing {change : Machine → α × Machine}
    (related : relation machine (change machine).2) :
    (Machine.changing change).Keeps relation machine fun _ _ => True :=
  ensures_of_eq_some rfl ⟨related, trivial⟩

end Action

end StackMachine
