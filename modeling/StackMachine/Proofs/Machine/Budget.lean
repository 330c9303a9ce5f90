import StackMachine.Proofs.Machine.Reachability

/-!
# Step budgets

Fuel is no part of what a run does: with more of it a run has the outcomes it had.  A run therefore
has at most one outcome, and a budget of steps can be split at any point.  A run that stops at its
budget goes on as the run with the larger budget, and a run that halts or fails within its budget
does so within every larger one, and without a limit.
-/

namespace StackMachine

variable {α : Type}

namespace Action.Approximates

theorem trans {first second third : Action α} (close : first.Approximates second)
    (close' : second.Approximates third) : first.Approximates third :=
  fun machine outcome ended => close' machine outcome (close machine outcome ended)

theorem of_exhausted (action : Action α) : Action.exhausted.Approximates action := by
  intro machine outcome ended
  cases ended

end Action.Approximates

namespace Machine

/-! ## Splitting a run -/

/-- A run goes on from where its first steps lead, unless they end it. -/
theorem runFor_add (natives : Invoker) (first second : Nat) :
    runFor natives (first + second) = (do
      match ← runFor natives first with
      | .halted => return .halted
      | .stepLimit => runFor natives second) := by
  induction first with
  | zero => rw [Nat.zero_add, runFor, pure_bind]
  | succ first induction =>
      rw [Nat.succ_add, runFor, runFor, bind_assoc]
      congr 1
      funext exit
      cases exit with
      | halted => rw [pure_bind]
      | continued => exact induction

variable {natives : Invoker} {start middle after : Machine} {first second : Nat}
  {result : Except MachineError RunExit}

theorem apply_runFor_add_of_stepLimit
    (stopped : (runFor natives first).apply start = some (.ok .stepLimit, middle)) :
    (runFor natives (first + second)).apply start = (runFor natives second).apply middle := by
  rw [runFor_add, Action.apply_bind, stopped]

theorem apply_runFor_add_of_ended
    (ended : (runFor natives first).apply start = some (result, after))
    (finished : result ≠ .ok .stepLimit) :
    (runFor natives (first + second)).apply start = some (result, after) := by
  rw [runFor_add, Action.apply_bind, ended]
  cases result with
  | error error => rfl
  | ok exit =>
      cases exit with
      | halted => rfl
      | stepLimit => exact absurd rfl finished

/-! ## More fuel -/

/-- A run without a limit that ends within its fuel ends alike within more. -/
theorem runWith_approximates_of_le (natives : Invoker) {fuel fuel' : Nat} (enough : fuel ≤ fuel')
    (limit : Nat) : (runWith natives fuel limit).Approximates (runWith natives fuel' limit) := by
  obtain ⟨extra, rfl⟩ := Nat.exists_eq_add_of_le enough
  cases limit with
  | succ limit => exact .refl _
  | zero =>
      rw [runWith, runWith, if_pos rfl, if_pos rfl, runFor_add, bind_assoc]
      apply (Action.Approximates.refl _).bind
      intro exit
      cases exit with
      | halted =>
          rw [pure_bind]
          exact .refl _
      | stepLimit => exact .of_exhausted _

theorem performWith_approximates_of_le (natives : Invoker) {fuel fuel' : Nat}
    (enough : fuel ≤ fuel')
    (call : Call) :
    (performWith natives fuel call).Approximates (performWith natives fuel' call) := by
  cases call with
  | run limit => exact (runWith_approximates_of_le natives enough limit).attempt
  | _ => exact .refl _

/-- With more fuel a native has the outcomes it had. -/
theorem invoke_approximates_of_le {fuel fuel' : Nat} (enough : fuel ≤ fuel') :
    (invoke fuel).Approximates (invoke fuel') := by
  induction fuel generalizing fuel' with
  | zero => exact fun _ _ => .of_exhausted _
  | succ fuel induction =>
      obtain ⟨less, rfl⟩ := Nat.exists_eq_add_of_le enough
      have enough : fuel ≤ fuel + less := Nat.le_add_right fuel less
      have close (call : Call) : (performWith (invoke fuel) fuel call).Approximates
          (performWith (invoke (fuel + less)) (fuel + less) call) :=
        (performWith_approximates (induction enough) fuel call).trans
          (performWith_approximates_of_le _ enough call)
      rw [Nat.succ_add]
      exact fun entry arguments => runEntry_approximates close entry arguments

/-- With more fuel a run has the outcomes it had. -/
theorem run_approximates_of_le {fuel fuel' : Nat} (enough : fuel ≤ fuel') (limit : Nat) :
    (run fuel limit).Approximates (run fuel' limit) :=
  (runWith_approximates (invoke_approximates_of_le enough) fuel limit).trans
    (runWith_approximates_of_le _ enough limit)

/-! ## Outcomes of runs -/

/-- The outcome of a run up to a limit, given enough fuel. -/
def RunEnds (limit : Nat) (start : Machine)
    (outcome : Except MachineError RunExit × Machine) : Prop :=
  ∃ fuel, (run fuel limit).apply start = some outcome

/-- Two runs with outcomes have them with one amount of fuel. -/
theorem RunEnds.together {limit limit' : Nat} {start start' : Machine}
    {outcome outcome' : Except MachineError RunExit × Machine}
    (ended : RunEnds limit start outcome) (ended' : RunEnds limit' start' outcome') :
    ∃ fuel, (run fuel limit).apply start = some outcome ∧
      (run fuel limit').apply start' = some outcome' := by
  obtain ⟨fuel, ended⟩ := ended
  obtain ⟨fuel', ended'⟩ := ended'
  exact ⟨max fuel fuel',
    run_approximates_of_le (Nat.le_max_left fuel fuel') limit start outcome ended,
    run_approximates_of_le (Nat.le_max_right fuel fuel') limit' start' outcome' ended'⟩

/-- A run has one outcome. -/
theorem RunEnds.unique {limit : Nat} {outcome outcome' : Except MachineError RunExit × Machine}
    (ended : RunEnds limit start outcome) (ended' : RunEnds limit start outcome') :
    outcome = outcome' := by
  obtain ⟨fuel, found, found'⟩ := ended.together ended'
  exact Option.some.inj (found.symm.trans found')

theorem run_of_pos {limit : Nat} (positive : 0 < limit) (fuel : Nat) :
    run fuel limit = runFor (invoke fuel) limit := by
  rw [run, runWith, if_neg (Nat.ne_of_gt positive)]

/-- A run that stops at its budget goes on with what is left of a larger one. -/
theorem runEnds_add_iff_of_stepLimit {outcome : Except MachineError RunExit × Machine}
    (first_pos : 0 < first) (second_pos : 0 < second)
    (stopped : RunEnds first start (.ok .stepLimit, middle)) :
    RunEnds (first + second) start outcome ↔ RunEnds second middle outcome := by
  have split (fuel : Nat) (stopped : (run fuel first).apply start = some (.ok .stepLimit, middle)) :
      (run fuel (first + second)).apply start = (run fuel second).apply middle := by
    rw [run_of_pos first_pos] at stopped
    rw [run_of_pos (Nat.add_pos_left first_pos second), run_of_pos second_pos]
    exact apply_runFor_add_of_stepLimit stopped
  constructor
  · intro ended
    obtain ⟨fuel, stopped, ended⟩ := stopped.together ended
    exact ⟨fuel, (split fuel stopped).symm.trans ended⟩
  · intro ended
    obtain ⟨fuel, stopped, ended⟩ := stopped.together ended
    exact ⟨fuel, (split fuel stopped).trans ended⟩

/-- A run that ends within its budget ends alike within a larger one. -/
theorem RunEnds.add (ended : RunEnds first start (result, after))
    (finished : result ≠ .ok .stepLimit)
    (first_pos : 0 < first) (second : Nat) : RunEnds (first + second) start (result, after) := by
  obtain ⟨fuel, ended⟩ := ended
  rw [run_of_pos first_pos] at ended
  refine ⟨fuel, ?_⟩
  rw [run_of_pos (Nat.add_pos_left first_pos second)]
  exact apply_runFor_add_of_ended ended finished

theorem apply_run_zero_eq_some_iff {fuel : Nat} :
    (run fuel 0).apply start = some (result, after) ↔
      result ≠ .ok .stepLimit ∧ (runFor (invoke fuel) fuel).apply start = some (result, after) := by
  rw [run, runWith, if_pos rfl, Action.apply_bind]
  rcases (runFor (invoke fuel) fuel).apply start with _ | ⟨error | exit, reached⟩
  · simp
  · exact (and_iff_right_of_imp (by rintro ⟨⟩; exact nofun)).symm
  · cases exit with
    | halted => exact (and_iff_right_of_imp (by rintro ⟨⟩; exact nofun)).symm
    | stepLimit =>
        constructor
        · exact nofun
        · rintro ⟨finished, ⟨⟩⟩
          exact absurd rfl finished

/-- A run without a limit is one with a budget that it does not use up. -/
theorem runEnds_zero_iff :
    RunEnds 0 start (result, after) ↔
      result ≠ .ok .stepLimit ∧ ∃ limit, 0 < limit ∧ RunEnds limit start (result, after) := by
  constructor
  · rintro ⟨fuel, ended⟩
    obtain ⟨finished, ended⟩ := apply_run_zero_eq_some_iff.mp ended
    have more : (run fuel (fuel + 1)).apply start = some (result, after) := by
      have longer : 0 < fuel + 1 := Nat.zero_lt_succ fuel
      rw [run_of_pos longer]
      exact apply_runFor_add_of_ended ended finished
    exact ⟨finished, fuel + 1, Nat.zero_lt_succ fuel, fuel, more⟩
  · rintro ⟨finished, limit, positive, fuel, ended⟩
    have enough := run_approximates_of_le (Nat.le_add_left fuel limit) limit start _ ended
    rw [run_of_pos positive] at enough
    exact ⟨limit + fuel, apply_run_zero_eq_some_iff.mpr
      ⟨finished, apply_runFor_add_of_ended enough finished⟩⟩

/-- A run that stops at its budget goes on without a limit as it would have from the start. -/
theorem runEnds_zero_iff_of_stepLimit {outcome : Except MachineError RunExit × Machine}
    (first_pos : 0 < first) (stopped : RunEnds first start (.ok .stepLimit, middle)) :
    RunEnds 0 start outcome ↔ RunEnds 0 middle outcome := by
  obtain ⟨result, after⟩ := outcome
  rw [runEnds_zero_iff, runEnds_zero_iff]
  constructor
  · rintro ⟨finished, limit, positive, ended⟩
    have later := ended.add finished positive first
    rw [Nat.add_comm] at later
    exact ⟨finished, limit, positive,
      (runEnds_add_iff_of_stepLimit first_pos positive stopped).mp later⟩
  · rintro ⟨finished, limit, positive, ended⟩
    exact ⟨finished, first + limit, Nat.add_pos_left first_pos limit,
      (runEnds_add_iff_of_stepLimit first_pos positive stopped).mpr ended⟩

/-- Step budgets compose: where a run stops at its budget, a larger budget and no limit at all go on
from there; where it halts or fails, a larger budget changes nothing. -/
theorem run_budgets_compose (start : Machine) {first second : Nat} (first_pos : 0 < first)
    (second_pos : 0 < second) :
    (∀ middle, RunEnds first start (.ok .stepLimit, middle) → ∀ outcome,
        (RunEnds (first + second) start outcome ↔ RunEnds second middle outcome) ∧
        (RunEnds 0 start outcome ↔ RunEnds 0 middle outcome)) ∧
      ∀ result after, result ≠ .ok .stepLimit → RunEnds first start (result, after) → ∀ outcome,
        RunEnds (first + second) start outcome ↔ outcome = (result, after) := by
  constructor
  · intro middle stopped outcome
    exact ⟨runEnds_add_iff_of_stepLimit first_pos second_pos stopped,
      runEnds_zero_iff_of_stepLimit first_pos stopped⟩
  · intro result after finished ended outcome
    have larger := ended.add finished first_pos second
    constructor
    · exact fun found => found.unique larger
    · rintro rfl
      exact larger

/-- A machine that frees strings whenever a new one was made. -/
def eagerConfig : MachineConfig where
  builtins := false
  collector := { mode := .own, threshold := some 1 }

/-- Loads a program that makes and drops a string twice. -/
def droppingProgram : List (Nat × Request) :=
  [(0, .call (.loadProgram ⟨[[97]],
    [Instruction.pushString 0, .dup, .add, .pop, .pushString 0, .dup,
    .add, .pop, .halt].flatMap Instruction.encode⟩))]

theorem run_budgets_compose_across_collection :
    ∃ created start middle final, create eagerConfig = .ok created ∧
      serve invoke droppingProgram created = some start ∧
      RunEnds 4 start (.ok .stepLimit, middle) ∧ RunEnds 5 middle (.ok .halted, final) ∧
      middle.collector.totalFreed = 0 ∧ final.collector.totalFreed = 1 ∧
      RunEnds 9 start (.ok .halted, final) ∧ RunEnds 10 start (.ok .halted, final) ∧
      (RunEnds 0 start (.ok .halted, final) ↔ RunEnds 0 middle (.ok .halted, final)) := by
  have ran : ((create eagerConfig).toOption.bind fun created =>
      (serve invoke droppingProgram created).bind fun start =>
        ((run 0 4).apply start).bind fun early =>
          ((run 0 5).apply early.2).map fun late =>
            (early.1.toOption, late.1.toOption, early.2.collector.totalFreed,
              late.2.collector.totalFreed)) =
      some (some .stepLimit, some .halted, 0, 1) := by
    decide +kernel
  simp only [Option.bind_eq_some_iff, Option.map_eq_some_iff, Prod.exists, Prod.mk.injEq,
    toOption_eq_some_iff] at ran
  obtain ⟨created, made, start, loaded, _, middle, early, _, final, late, rfl, rfl, kept, freed⟩ :=
    ran
  have stopped : RunEnds 4 start (.ok .stepLimit, middle) := ⟨0, early⟩
  have ended : RunEnds 5 middle (.ok .halted, final) := ⟨0, late⟩
  obtain ⟨continued, unlimited⟩ := (run_budgets_compose start (by decide : 0 < 4)
    (by decide : 0 < 5)).1 middle stopped (.ok .halted, final)
  have whole : RunEnds 9 start (.ok .halted, final) := continued.mpr ended
  have larger := (run_budgets_compose start (by decide : 0 < 9) (by decide : 0 < 1)).2
    (.ok .halted) final (by decide) whole (.ok .halted, final)
  exact ⟨created, start, middle, final, made, loaded, stopped, ended, kept, freed, whole,
    larger.mpr rfl, unlimited⟩

end Machine

end StackMachine
