import StackMachine.Proofs.Machine.Calls

/-!
# Actions that agree where they end

One action approximates another when every outcome of the first is an outcome of the second.  All
that the machine does respects this order: when natives are replaced by ones that they approximate,
steps, runs and calls approximate what they become.  Vetted natives approximate the natives
themselves, so that a run with vetted natives is a run.
-/

namespace StackMachine

variable {α β : Type}

namespace Action

/-- Every outcome of the first action is one of the second. -/
def Approximates (first second : Action α) : Prop :=
  ∀ machine outcome, first.apply machine = some outcome → second.apply machine = some outcome

namespace Approximates

theorem refl (action : Action α) : action.Approximates action :=
  fun _ _ => id

theorem bind {first second : Action α} {next next' : α → Action β}
    (close : first.Approximates second)
    (continued : ∀ value, (next value).Approximates (next' value)) :
    (first >>= next).Approximates (second >>= next') := by
  intro machine outcome ended
  rw [apply_bind] at ended ⊢
  cases early : first.apply machine with
  | none =>
      rw [early] at ended
      cases ended
  | some middle =>
      rw [early] at ended
      rw [close machine middle early]
      obtain ⟨result, after⟩ := middle
      cases result with
      | error error => exact ended
      | ok value => exact continued value after outcome ended

/-- Actions that are followed by the same treatment of their outcomes. -/
theorem of_apply_eq {first second : Action α} {first' second' : Action β}
    {treat : Except MachineError α × Machine → Except MachineError β × Machine}
    (close : first.Approximates second)
    (first_eq : ∀ machine, first'.apply machine = (first.apply machine).map treat)
    (second_eq : ∀ machine, second'.apply machine = (second.apply machine).map treat) :
    first'.Approximates second' := by
  intro machine outcome ended
  rw [first_eq] at ended
  obtain ⟨middle, early, rfl⟩ := Option.map_eq_some_iff.mp ended
  rw [second_eq, close machine middle early]
  rfl

theorem attempt {first second : Action α} (close : first.Approximates second) :
    (Action.attempt first).Approximates (Action.attempt second) :=
  close.of_apply_eq (apply_attempt first) (apply_attempt second)

theorem afterwards {first second : Action α} (close : first.Approximates second)
    (restore : Machine → Machine) :
    (Action.afterwards first restore).Approximates (Action.afterwards second restore) :=
  close.of_apply_eq (apply_afterwards first restore) (apply_afterwards second restore)

theorem recorded {first second : Action α} (close : first.Approximates second) :
    (Action.recorded first).Approximates (Action.recorded second) :=
  close.of_apply_eq (apply_recorded first) (apply_recorded second)

theorem faulting {first second : Action α} (close : first.Approximates second) :
    (Machine.faulting first).Approximates (Machine.faulting second) :=
  close.of_apply_eq (apply_faulting first) (apply_faulting second)

end Approximates

end Action

/-- Natives that approximate natives. -/
def Invoker.Approximates (natives natives' : Invoker) : Prop :=
  ∀ entry arguments, (natives entry arguments).Approximates (natives' entry arguments)

namespace Machine

variable {natives natives' : Invoker}

/-! ## Steps and runs -/

theorem callConstant_approximates (close : natives.Approximates natives')
    (index : UInt32) (count : Nat) :
    (callConstant natives index count).Approximates (callConstant natives' index count) := by
  refine (Action.Approximates.refl _).bind fun key => (Action.Approximates.refl _).bind
    fun machine => ?_
  cases machine.natives.get? machine.heap key with
  | none => exact .refl _
  | some entry =>
      refine (Action.Approximates.refl _).bind fun _ => ?_
      refine Action.Approximates.bind ?_ fun result => .refl _
      exact ((Action.Approximates.refl _).bind fun _ => close entry _).afterwards _

theorem execute_approximates (close : natives.Approximates natives')
    (instruction : Instruction) :
    (execute natives instruction).Approximates (execute natives' instruction) := by
  cases instruction with
  | callNative index count => exact callConstant_approximates close index count.toNat
  | _ => exact .refl _

theorem stepWith_approximates (close : natives.Approximates natives') :
    (stepWith natives).Approximates (stepWith natives') := by
  have executed : (executeNext natives).Approximates (executeNext natives') := by
    refine (Action.Approximates.refl _).bind fun machine => (Action.Approximates.refl _).bind
      fun current => (Action.Approximates.refl _).bind fun instruction => ?_
    exact (execute_approximates close instruction).bind fun flow => .refl _
  refine (Action.Approximates.refl _).bind fun _ => (Action.Approximates.refl _).bind
    fun machine => ?_
  cases machine.phase with
  | ready =>
      cases machine.collector.wantsCollection with
      | false => exact executed.faulting
      | true => exact (Action.Approximates.refl _).bind fun _ => executed.faulting
  | _ => exact .refl _

theorem runFor_approximates (close : natives.Approximates natives')
    (count : Nat) : (runFor natives count).Approximates (runFor natives' count) := by
  induction count with
  | zero => exact .refl _
  | succ count induction =>
      refine (stepWith_approximates close).bind fun exit => ?_
      cases exit with
      | halted => exact .refl _
      | continued => exact induction

theorem runWith_approximates (close : natives.Approximates natives')
    (fuel limit : Nat) :
    (runWith natives fuel limit).Approximates (runWith natives' fuel limit) := by
  unfold runWith
  split
  · exact (runFor_approximates close fuel).bind fun exit => .refl _
  · exact runFor_approximates close limit

/-! ## Calls and natives -/

theorem performWith_approximates (close : natives.Approximates natives') (fuel : Nat)
    (call : Call) :
    (performWith natives fuel call).Approximates (performWith natives' fuel call) := by
  cases call with
  | step => exact (stepWith_approximates close).attempt
  | run limit => exact (runWith_approximates close fuel limit).attempt
  | callNative name arguments =>
      refine Action.Approximates.attempt (Action.Approximates.recorded ?_)
      refine (Action.Approximates.refl _).bind fun machine => ?_
      cases machine.natives.getBytes? machine.heap (Utf8.encode name.toList) with
      | none => exact .refl _
      | some entry => exact close entry arguments
  | _ => exact .refl _

variable {perform perform' : (call : Call) → Action call.Reply}

theorem script_approximates (close : ∀ call, (perform call).Approximates (perform' call)) :
    (script : Script) → (script.run perform).Approximates (script.run perform')
  | .finish _ => .refl _
  | .call request next => (close request).bind fun reply => script_approximates close (next reply)
  | .register _ _ _ next =>
    (Action.Approximates.refl _).bind fun outcome => script_approximates close (next outcome)

theorem runEntry_approximates (close : ∀ call, (perform call).Approximates (perform' call))
    (entry : NativeEntry) (arguments : List Value) :
    (runEntry perform entry arguments).Approximates (runEntry perform' entry arguments) := by
  have ran (arguments : List Value) : (runNative perform entry.native arguments).Approximates
      (runNative perform' entry.native arguments) := by
    cases entry.native with
    | builtin builtin => exact .refl _
    | host body => exact script_approximates close (body arguments)
  unfold runEntry
  cases entry.signature with
  | none => exact ran arguments
  | some signature =>
      refine (Action.Approximates.refl _).bind fun machine => Action.Approximates.afterwards ?_ _
      refine (Action.Approximates.refl _).bind fun converted => ?_
      refine (Action.Approximates.refl _).bind fun _ => ?_
      exact (ran converted).bind fun result => .refl _

theorem vet_approximates_vet (native : Native) {call call' : Action Value}
    (close : call.Approximates call') : (native.vet call).Approximates (native.vet call') := by
  cases native with
  | builtin builtin => exact close
  | host body => exact close.bind fun result => .refl _

theorem vet_approximates (native : Native) (call : Action Value) :
    (native.vet call).Approximates call := by
  cases native with
  | builtin builtin => exact .refl _
  | host body =>
      have checked (result : Value) : (do
          if result.LiveIn (← getThe Machine).heap then return result
          else Action.exhausted : Action Value).Approximates (pure result) := by
        intro machine outcome ended
        rw [Action.apply_bind] at ended
        change (if result.LiveIn machine.heap then pure result
          else Action.exhausted : Action Value).apply machine = some outcome at ended
        split at ended
        · exact ended
        · cases ended
      have close := (Action.Approximates.refl call).bind checked
      rwa [bind_pure] at close

theorem vetted_approximates_invoke (fuel : Nat) : (vetted fuel).Approximates (invoke fuel) := by
  induction fuel with
  | zero => exact fun _ _ => .refl _
  | succ fuel induction =>
      intro entry arguments
      have close := runEntry_approximates (fun call => performWith_approximates induction fuel call)
        entry arguments
      exact fun machine outcome ended =>
        close machine outcome (vet_approximates entry.native _ machine outcome ended)

end Machine

end StackMachine
