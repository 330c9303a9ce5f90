import StackMachine.Proofs.Machine.Interface

/-!
# Conversions and builtins keep machines intact

Converting arguments and results and running a builtin allocate strings and free none.  From live
values they make live values.  A value that is not live may pass through unconverted, so the results
are live only as far as the arguments were.
-/

namespace StackMachine

namespace Machine

variable {onlyBuiltins : Bool} {machine : Machine}

/-! ## Conversions -/

theorem keeps_coerce (type : ParameterType) (value : Value) :
    (coerce type value).Keeps (Extends onlyBuiltins) machine fun converted after =>
      value.LiveIn machine.heap → ∀ result ∈ converted, result.LiveIn after.heap := by
  refine .get_bind ?_
  cases type with
  | any =>
      refine .pure fun live result found => ?_
      cases found
      exact live
  | nil =>
      refine .pure fun _ result found => ?_
      obtain ⟨_, same⟩ := Option.ite_none_right_eq_some.mp found
      cases same
      exact Value.liveIn_of_string?_eq_none rfl
  | int | float | bool =>
      refine .pure fun _ result found => ?_
      obtain ⟨number, _, rfl⟩ := Option.map_eq_some_iff.mp found
      exact Value.liveIn_of_string?_eq_none rfl
  | string =>
      cases value with
      | string ref =>
          refine .pure fun live result found => ?_
          obtain ⟨_, same⟩ := Option.ite_none_right_eq_some.mp found
          cases same
          exact live
      | _ =>
          refine (keeps_newString _).bind fun converted after _ live => ?_
          refine .pure fun _ result found => ?_
          cases found
          exact live

theorem keeps_coerceFrom (name : String) (types : List ParameterType) (arguments : List Value)
    (position : Nat) (intact : machine.Intact onlyBuiltins) :
    (coerceFrom name position types arguments).Keeps (Extends onlyBuiltins) machine
      fun values after => (∀ argument ∈ arguments, argument.LiveIn machine.heap) →
        ∀ value ∈ values, value.LiveIn after.heap := by
  induction types generalizing position arguments machine with
  | nil => cases arguments <;> exact .pure id
  | cons type types induction =>
      cases arguments with
      | nil => exact .pure id
      | cons argument rest =>
          refine (keeps_coerce type argument).bind fun converted middle extended live => ?_
          obtain ⟨middle_intact, _, preserved⟩ := extended intact
          cases converted with
          | none => exact .throw
          | some value =>
              refine (induction rest (position + 1) middle_intact).bind
                fun values last later lives => ?_
              refine .pure fun arguments_live found member => ?_
              have rest_live : ∀ argument ∈ rest, argument.LiveIn middle.heap :=
                fun argument member =>
                  (arguments_live argument (List.mem_cons_of_mem _ member)).preserved preserved
              rcases List.mem_cons.mp member with rfl | member
              · have value_live := live (arguments_live argument List.mem_cons_self) found rfl
                exact value_live.preserved (later middle_intact).2.2
              · exact lives rest_live found member

theorem keeps_coerceArguments (signature : Signature) (name : String) (arguments : List Value)
    (intact : machine.Intact onlyBuiltins) :
    (coerceArguments signature name arguments).Keeps (Extends onlyBuiltins) machine
      fun values after => (∀ argument ∈ arguments, argument.LiveIn machine.heap) →
        ∀ value ∈ values, value.LiveIn after.heap := by
  refine (Update.Keeps.ofExcept _).bind fun _ after _ checked => ?_
  obtain ⟨_, rfl⟩ := checked
  exact keeps_coerceFrom name signature.parameters arguments 1 intact

theorem keeps_coerceResult (signature : Signature) (name : String) (value : Value) :
    (coerceResult signature name value).Keeps (Extends onlyBuiltins) machine fun result after =>
      value.LiveIn machine.heap → result.LiveIn after.heap := by
  unfold coerceResult
  split
  · exact .pure fun _ => Value.liveIn_of_string?_eq_none rfl
  · refine (keeps_coerce signature.result value).bind fun converted after _ live => ?_
    cases converted with
    | none => exact .throw
    | some result => exact .pure fun value_live => live value_live result rfl

/-! ## Builtins -/

theorem liveIn_headD {heap : StringHeap} {values : List Value}
    (live : ∀ value ∈ values, value.LiveIn heap) : (values.headD .nil).LiveIn heap := by
  cases values with
  | nil => exact Value.liveIn_of_string?_eq_none rfl
  | cons value rest => exact live value List.mem_cons_self

theorem keeps_builtin (builtin : Builtin) (arguments : List Value) :
    (builtin.run arguments).Keeps (Extends onlyBuiltins) machine fun result after =>
      (∀ argument ∈ arguments, argument.LiveIn machine.heap) → result.LiveIn after.heap := by
  refine .get_bind ?_
  cases builtin with
  | print =>
      refine (keeps_write _).bind fun _ after _ _ => ?_
      exact .pure fun _ => Value.liveIn_of_string?_eq_none rfl
  | length => exact .pure fun _ => Value.liveIn_of_string?_eq_none rfl
  | identity => exact .pure liveIn_headD
  | typeName | concat => exact (keeps_newString _).mono fun _ _ _ live _ => live

end Machine

end StackMachine
