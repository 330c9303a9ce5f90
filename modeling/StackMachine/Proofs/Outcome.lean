import StackMachine.DecodeError

/-!
# Computations that may fail

A chain of computations succeeds exactly when each link does, and fails as the first link that does.
Two chains agree when their links do.
-/

namespace StackMachine

/-- A bind succeeds exactly when both of its parts do. -/
theorem bind_eq_ok_iff {ε α β : Type} {first : Except ε α} {next : α → Except ε β} {result : β} :
    (first >>= next) = .ok result ↔ ∃ value, first = .ok value ∧ next value = .ok result := by
  cases first with
  | error reason => simp [bind, Except.bind]
  | ok value => simp [bind, Except.bind]

/-- A bind fails exactly when its first part does, or its second part after the first. -/
theorem bind_eq_error_iff {ε α β : Type} {first : Except ε α} {next : α → Except ε β}
    {reason : ε} :
    (first >>= next) = .error reason ↔
      first = .error reason ∨ ∃ value, first = .ok value ∧ next value = .error reason := by
  cases first with
  | error found => simp [bind, Except.bind]
  | ok value => simp [bind, Except.bind]

theorem mapError_eq_ok_iff {ε ε' α : Type} {result : Except ε α} {change : ε → ε'} {value : α} :
    result.mapError change = .ok value ↔ result = .ok value := by
  cases result with
  | error error => exact ⟨nofun, nofun⟩
  | ok found => constructor <;> (rintro ⟨⟩; rfl)

theorem map_eq_ok_iff {ε α β : Type} {result : Except ε α} {change : α → β} {value : β} :
    result.map change = .ok value ↔ ∃ found, result = .ok found ∧ change found = value := by
  cases result <;> simp [Except.map]

theorem map_eq_error_iff {ε α β : Type} {result : Except ε α} {change : α → β} {reason : ε} :
    result.map change = .error reason ↔ result = .error reason := by
  cases result <;> simp [Except.map]

theorem toOption_eq_some_iff {ε α : Type} {result : Except ε α} {value : α} :
    result.toOption = some value ↔ result = .ok value := by
  cases result <;> simp [Except.toOption]

/-- Two results that fail for one reason or give related values. -/
inductive ResultsAgree {ε α : Type} (related : α → α → Prop) : Except ε α → Except ε α → Prop
  | error (reason : ε) : ResultsAgree related (.error reason) (.error reason)
  | ok {value value' : α} (same : related value value') :
      ResultsAgree related (.ok value) (.ok value')

namespace ResultsAgree

variable {ε α β : Type} {related : α → α → Prop} {result result' : Except ε α}

theorem refl (result : Except ε α) : ResultsAgree Eq result result := by
  cases result with
  | error reason => exact .error reason
  | ok value => exact .ok rfl

theorem bind {last : β → β → Prop} {next next' : α → Except ε β}
    (agree : ResultsAgree related result result')
    (continued : ∀ value value', related value value' →
      ResultsAgree last (next value) (next' value')) :
    ResultsAgree last (result >>= next) (result' >>= next') := by
  cases agree with
  | error reason => exact .error reason
  | ok same => exact continued _ _ same

theorem eq (agree : ResultsAgree Eq result result') : result = result' := by
  cases agree with
  | error reason => rfl
  | ok same => rw [same]

theorem map_eq {read read' : α → β} (agree : ResultsAgree related result result')
    (same : ∀ value value', related value value' → read value = read' value') :
    result.map read = result'.map read' := by
  cases agree with
  | error reason => rfl
  | ok held => exact congrArg Except.ok (same _ _ held)

end ResultsAgree

end StackMachine
