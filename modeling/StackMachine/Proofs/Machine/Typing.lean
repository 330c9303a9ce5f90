import StackMachine.Proofs.Machine.Confinement
import StackMachine.Proofs.Text

/-!
# Natives see what they declare

A native with a signature is entered with as many arguments as the signature allows, those with a
parameter having its type; a call that cannot be brought into this form is refused for the number of
its arguments, or else for the first argument that has no conversion.  What such a native returns
has the type that it declares.  Arguments that fit a signature are left alone by it.
-/

namespace StackMachine

/-! ## Types of values -/

namespace Value

/-- A value has a declared type; a string has it only as long as it is live. -/
inductive HasType (heap : StringHeap) : ParameterType → Value → Prop
  | any (value : Value) : HasType heap .any value
  | nil : HasType heap .nil .nil
  | int (value : Int64) : HasType heap .int (.int value)
  | float (value : Binary64) : HasType heap .float (.float value)
  | bool (value : Bool) : HasType heap .bool (.bool value)
  | string {ref : StringRef} (live : heap.Live ref) : HasType heap .string (.string ref)

/-- The conversion of a value to a type is defined.  Numbers and truth values are read from the live
strings that spell them, and every value but a string that is gone has a text. -/
def Converts (heap : StringHeap) : ParameterType → Value → Prop
  | .any, _ => True
  | .nil, value => value = .nil
  | .int, .string ref | .float, .string ref =>
    ∃ bytes, heap.bytes? ref = some bytes ∧ ∃ number, Number.ofBytes? bytes = some number
  | .bool, .string ref =>
    ∃ word ∈ ["true", "false"], heap.bytes? ref = some (Utf8.encode word.toList)
  | .string, .string ref => heap.Live ref
  | .int, .nil | .int, .native _ | .float, .nil | .float, .native _ | .bool, .native _ => False
  | _, _ => True

variable {heap heap' : StringHeap} {type : ParameterType} {value : Value}

theorem HasType.preserved (typed : value.HasType heap type) (preserved : heap.Preserves heap') :
    value.HasType heap' type := by
  cases typed with
  | any => exact .any _
  | nil => exact .nil
  | int => exact .int _
  | float => exact .float _
  | bool => exact .bool _
  | string live => exact .string (live.preserved preserved)

theorem Converts.preserved (converts : value.Converts heap type)
    (preserved : heap.Preserves heap') : value.Converts heap' type := by
  cases value with
  | string ref =>
      cases type with
      | int | float =>
          obtain ⟨bytes, content, read⟩ := converts
          exact ⟨bytes, preserved ref bytes content, read⟩
      | bool =>
          obtain ⟨word, member, content⟩ := converts
          exact ⟨word, member, preserved ref _ content⟩
      | string => exact converts.preserved preserved
      | nil => cases converts
      | any => trivial
  | _ => cases type <;> exact converts

theorem numberIn?_string (ref : StringRef) :
    (∃ number, (Value.string ref).numberIn? heap = some number) ↔
      ∃ bytes, heap.bytes? ref = some bytes ∧ ∃ number, Number.ofBytes? bytes = some number := by
  simp only [numberIn?, string?, Option.bind_some, Option.bind_eq_some_iff]
  constructor
  · rintro ⟨number, bytes, content, read⟩
    exact ⟨bytes, content, number, read⟩
  · rintro ⟨bytes, content, number, read⟩
    exact ⟨number, bytes, content, read⟩

theorem converts_int_iff : value.Converts heap .int ↔
    ∃ number, value.toInt? heap = some number := by
  cases value with
  | string ref =>
      rw [toInt?, Converts, ← numberIn?_string]
      simp
  | _ => simp [toInt?, Converts]

theorem converts_float_iff :
    value.Converts heap .float ↔ ∃ number, value.toFloat? heap = some number := by
  cases value with
  | string ref =>
      rw [toFloat?, Converts, ← numberIn?_string]
      simp
  | _ => simp [toFloat?, Converts]

theorem converts_bool_iff :
    value.Converts heap .bool ↔ ∃ truth, value.toBool? heap = some truth := by
  cases value with
  | string ref =>
      simp only [Converts, List.mem_cons, List.not_mem_nil, or_false, exists_eq_or_imp,
        exists_eq_left, toBool?]
      cases heap.bytes? ref with
      | none => exact iff_of_false (not_or_intro nofun nofun) nofun
      | some bytes =>
          simp only [Option.bind_some, Option.some.injEq]
          split
          · rename_i same
            exact iff_of_true (.inl same) ⟨true, rfl⟩
          · split
            · rename_i same
              exact iff_of_true (.inr same) ⟨false, rfl⟩
            · rename_i neither nor
              exact iff_of_false (not_or_intro neither nor) nofun
  | _ => simp [toBool?, Converts]

end Value

namespace Machine

variable {machine after inside : Machine} {type : ParameterType} {value : Value}

/-! ## One conversion -/

theorem apply_newString {bytes : List UInt8} (short : StringHeap.checkLength bytes = .ok ())
    (machine : Machine) :
    (newString bytes).apply machine =
      (.ok (.string machine.heap.nextRef), { machine with
        heap := machine.heap.store bytes
        collector := (machine.collector.track machine.heap.nextRef machine.heap.nextSlot).2 }) := by
  rw [newString, Update.apply_recorded, Update.apply_bind, allocate, allocateWith,
    Update.apply_bind, short]
  rfl

theorem apply_coerce_string (plain : value.string? = none) (machine : Machine) :
    (coerce .string value).apply machine = (do
      let converted ← newString (Utf8.encode (value.text machine.heap))
      return some converted : Update (Option Value)).apply machine := by
  rw [coerce, Update.apply_get_bind]
  simp only
  split
  · cases plain
  · rfl

/-- What the conversion of a value comes to. -/
inductive Coerces (type : ParameterType) (value : Value) (machine : Machine) :
    Except MachineError (Option Value) × Machine → Prop
  | undefined (refused : ¬ value.Converts machine.heap type) :
      Coerces type value machine (.ok none, machine)
  | converted {converted : Value} {after : Machine} (defined : value.Converts machine.heap type)
      (typed : converted.HasType after.heap type) (same : type = .any → converted = value)
      (preserved : machine.heap.Preserves after.heap) :
      Coerces type value machine (.ok (some converted), after)

/-- A conversion gives a value of the type if it is defined, and nothing otherwise.  Only strings
are added to the heap. -/
theorem coerces (type : ParameterType) (value : Value) (machine : Machine) :
    Coerces type value machine ((coerce type value).apply machine) := by
  -- But for strings, the machine does not change.
  have unchanged {type : ParameterType} {result : Option Value} (particular : type ≠ .any)
      (defined : value.Converts machine.heap type ↔ ∃ converted, result = some converted)
      (typed : ∀ converted, result = some converted → converted.HasType machine.heap type) :
      Coerces type value machine (.ok result, machine) := by
    cases result with
    | none => exact .undefined (by simp [defined])
    | some converted =>
        exact .converted (defined.mpr ⟨_, rfl⟩) (typed _ rfl) (fun any => absurd any particular)
          (.refl _)
  cases type with
  | any => exact .converted trivial (.any value) (fun _ => rfl) (.refl _)
  | nil =>
      refine unchanged (by decide) ?_ ?_
      · cases value <;> simp [Value.Converts, Value.isNil]
      · intro converted found
        obtain ⟨_, same⟩ := Option.ite_none_right_eq_some.mp found
        cases same
        exact .nil
  | int =>
      refine unchanged (by decide) ?_ ?_
      · simp [Value.converts_int_iff]
      · intro converted found
        obtain ⟨number, _, rfl⟩ := Option.map_eq_some_iff.mp found
        exact .int number
  | float =>
      refine unchanged (by decide) ?_ ?_
      · simp [Value.converts_float_iff]
      · intro converted found
        obtain ⟨number, _, rfl⟩ := Option.map_eq_some_iff.mp found
        exact .float number
  | bool =>
      refine unchanged (by decide) ?_ ?_
      · rw [Value.converts_bool_iff]
        cases value.toBool? machine.heap <;> simp
      · intro converted found
        obtain ⟨truth, _, rfl⟩ := Option.map_eq_some_iff.mp found
        exact .bool truth
  | string =>
      cases value with
      | string ref =>
          refine unchanged (by decide) ?_ ?_
          · simp [Value.Converts, StringHeap.live_iff_contains]
          · intro converted found
            obtain ⟨live, same⟩ := Option.ite_none_right_eq_some.mp found
            cases same
            exact .string (StringHeap.live_iff_contains.mpr live)
      | _ =>
          rw [apply_coerce_string rfl, Update.apply_bind,
            apply_newString (Value.checkLength_text rfl _)]
          exact .converted trivial (.string (StringHeap.live_nextRef_store _ _))
            (fun any => absurd any (by decide)) (StringHeap.preserves_store _ _)

/-- A value that has the type already is left alone. -/
theorem apply_coerce_of_hasType (typed : value.HasType machine.heap type) :
    (coerce type value).apply machine = (.ok (some value), machine) := by
  cases typed with
  | @string ref live =>
      have contained := StringHeap.live_iff_contains.mp live
      change (Except.ok (if machine.heap.contains ref then some (Value.string ref) else none),
        machine) = _
      rw [if_pos contained]
  | _ => rfl

/-! ## Argument lists -/

end Machine

namespace Signature

/-- A number of arguments that a signature allows. -/
def Allows (signature : Signature) (count : Nat) : Prop :=
  signature.parameters.length ≤ count ∧
    (signature.variadic = false → count = signature.parameters.length)

/-- Values that a native with a signature may see. -/
structure Fits (signature : Signature) (heap : StringHeap) (values : List Value) : Prop where
  allowed : signature.Allows values.length
  typed : ∀ (index : Nat) (type : ParameterType) (value : Value),
    signature.parameters[index]? = some type → values[index]? = some value → value.HasType heap type

theorem Fits.preserved {signature : Signature} {heap heap' : StringHeap} {values : List Value}
    (fits : signature.Fits heap values) (preserved : heap.Preserves heap') :
    signature.Fits heap' values where
  allowed := fits.allowed
  typed index type value declared given :=
    (fits.typed index type value declared given).preserved preserved

end Signature

namespace Machine

/-- Every argument up to a position has a conversion to the type of its parameter. -/
def ConvertUpTo (heap : StringHeap) (types : List ParameterType) (arguments : List Value)
    (count : Nat) : Prop :=
  ∀ index < count, ∀ (type : ParameterType) (argument : Value), types[index]? = some type →
    arguments[index]? = some argument → argument.Converts heap type

/-- The wording of the failure of a conversion. -/
def conversionText (name : String) (position : Nat) (argument : Value) (type : ParameterType) :
    String :=
  "native `" ++ name ++ "` argument " ++ Numeral.text position ++ ": cannot convert " ++
    argument.typeName ++ " to " ++ type.name

/-- Values take the place of arguments: those with a parameter have its type, and those with a
parameter of any type or none are the arguments themselves. -/
structure Replaces (heap : StringHeap) (types : List ParameterType)
    (arguments values : List Value) :
    Prop where
  length : values.length = arguments.length
  typed : ∀ (index : Nat) (type : ParameterType) (value : Value), types[index]? = some type →
    values[index]? = some value → value.HasType heap type
  same : ∀ index : Nat, types[index]? = some .any ∨ types.length ≤ index →
    values[index]? = arguments[index]?

/-- What the conversion of arguments comes to, those up to the first one that fails being
converted. -/
inductive CoercesFrom (name : String) (position : Nat) (types : List ParameterType)
    (arguments : List Value) (before : StringHeap) :
    Except MachineError (List Value) × Machine → Prop
  | converted {values : List Value} {after : Machine}
      (defined : ConvertUpTo after.heap types arguments types.length)
      (replaces : Replaces after.heap types arguments values)
      (preserved : before.Preserves after.heap) :
      CoercesFrom name position types arguments before (.ok values, after)
  | refused {index place : Nat} {type : ParameterType} {argument : Value} {after : Machine}
      (place_eq : place = position + index) (declared : types[index]? = some type)
      (given : arguments[index]? = some argument) (undefined : ¬ argument.Converts after.heap type)
      (earlier : ConvertUpTo after.heap types arguments index)
      (preserved : before.Preserves after.heap) :
      CoercesFrom name position types arguments before
        (.error (.badArgument (conversionText name place argument type)), after)

theorem replaces_rest (heap : StringHeap) (arguments : List Value) :
    Replaces heap [] arguments arguments :=
  ⟨rfl, by simp, fun _ _ => rfl⟩

theorem replaces_nil (heap : StringHeap) (types : List ParameterType) : Replaces heap types [] [] :=
  ⟨rfl, by simp, fun _ _ => rfl⟩

theorem Replaces.cons {heap : StringHeap} {types : List ParameterType}
    {arguments values : List Value}
    {argument : Value} (typed : value.HasType heap type) (same : type = .any → value = argument)
    (tail : Replaces heap types arguments values) :
    Replaces heap (type :: types) (argument :: arguments) (value :: values) where
  length := congrArg (· + 1) tail.length
  typed index := by
    cases index with
    | zero =>
        rintro _ _ ⟨⟩ ⟨⟩
        exact typed
    | succ index => exact tail.typed index
  same index := by
    cases index with
    | zero =>
        rintro (any | past)
        · simp [same (Option.some.inj any)]
        · simp at past
    | succ index =>
        intro untouched
        exact tail.same index (untouched.imp id Nat.le_of_succ_le_succ)

theorem ConvertUpTo.cons {heap : StringHeap} {types : List ParameterType} {arguments : List Value}
    {argument : Value} {count : Nat} (first : argument.Converts heap type)
    (tail : ConvertUpTo heap types arguments count) :
    ConvertUpTo heap (type :: types) (argument :: arguments) (count + 1) := by
  intro index near
  cases index with
  | zero =>
      rintro _ _ ⟨⟩ ⟨⟩
      exact first
  | succ index => exact tail index (Nat.lt_of_succ_lt_succ near)

theorem coercesFrom (name : String) (types : List ParameterType) (arguments : List Value)
    (position : Nat) (machine : Machine) :
    CoercesFrom name position types arguments machine.heap
      ((coerceFrom name position types arguments).apply machine) := by
  induction types generalizing position arguments machine with
  | nil =>
      cases arguments <;> exact .converted (by simp [ConvertUpTo]) (replaces_rest _ _) (.refl _)
  | cons type types induction =>
      cases arguments with
      | nil => exact .converted (by simp [ConvertUpTo]) (replaces_nil _ _) (.refl _)
      | cons argument rest =>
          rw [coerceFrom, Update.apply_bind]
          have coerced := coerces type argument machine
          rcases outcome : (coerce type argument).apply machine with ⟨result, middle⟩
          rw [outcome] at coerced
          cases coerced with
          | undefined refused =>
              have place_eq : position = position + 0 := rfl
              exact .refused place_eq rfl rfl refused (by simp [ConvertUpTo]) (.refl _)
          | @converted value _ defined typed same preserved =>
              have tail := induction rest (position + 1) middle
              simp only [Update.apply_bind]
              rcases ended : (coerceFrom name (position + 1) types rest).apply middle with
                ⟨result, last⟩
              rw [ended] at tail
              cases tail with
              | converted all replaces grown =>
                  have defined := defined.preserved (preserved.trans grown)
                  exact .converted (.cons defined all) (.cons (typed.preserved grown) same replaces)
                    (preserved.trans grown)
              | @refused index place _ _ _ place_eq declared given undefined earlier grown =>
                  have defined := defined.preserved (preserved.trans grown)
                  have place_eq : place = position + (index + 1) := by omega
                  exact .refused place_eq declared given undefined (.cons defined earlier)
                    (preserved.trans grown)

/-- A list that fits is left alone. -/
theorem apply_coerceFrom_of_typed {types : List ParameterType} {values : List Value}
    (typed : ∀ (index : Nat) (type : ParameterType) (value : Value), types[index]? = some type →
      values[index]? = some value → value.HasType machine.heap type)
    (name : String) (position : Nat) :
    (coerceFrom name position types values).apply machine = (.ok values, machine) := by
  induction types generalizing position values with
  | nil => cases values <;> rfl
  | cons type types induction =>
      cases values with
      | nil => rfl
      | cons value rest =>
          have tail := induction (fun index => typed (index + 1)) (position + 1)
          rw [coerceFrom, Update.apply_bind, apply_coerce_of_hasType (typed 0 type value rfl rfl)]
          simp only [Update.apply_bind, tail]
          rfl

end Machine

namespace Signature

/-- The wording of the failure of a call with a wrong number of arguments. -/
def arityText (signature : Signature) (name : String) (count : Nat) : String :=
  "native `" ++ name ++ "` expects " ++ ((if signature.variadic then "at least " else "") ++
    Numeral.text signature.parameters.length) ++ " arguments, got " ++ Numeral.text count

/-- Why a call of a native is refused: for the number of its arguments, or else for the first of
them that has no conversion. -/
inductive Refuses (signature : Signature) (name : String) (heap : StringHeap)
    (arguments : List Value) : String → Prop
  | arity (wrong : ¬ signature.Allows arguments.length) :
      Refuses signature name heap arguments (signature.arityText name arguments.length)
  | argument {index : Nat} {type : ParameterType} {argument : Value}
      (allowed : signature.Allows arguments.length)
      (declared : signature.parameters[index]? = some type)
      (given : arguments[index]? = some argument) (undefined : ¬ argument.Converts heap type)
      (earlier : Machine.ConvertUpTo heap signature.parameters arguments index) :
      Refuses signature name heap arguments (Machine.conversionText name (index + 1) argument type)

theorem checkArity_cases (signature : Signature) (name : String) (count : Nat) :
    signature.Allows count ∧ signature.checkArity name count = .ok () ∨
      ¬ signature.Allows count ∧
        signature.checkArity name count =
          .error (.badArgument (signature.arityText name count)) := by
  unfold checkArity Allows arityText
  cases signature.variadic with
  | true =>
      simp only [if_true, Bool.true_eq_false, false_implies, and_true]
      split
      · exact .inl ⟨‹_›, rfl⟩
      · exact .inr ⟨‹_›, rfl⟩
  | false =>
      simp only [Bool.false_eq_true, if_false, true_implies]
      split
      · exact .inl ⟨by omega, rfl⟩
      · exact .inr ⟨by omega, rfl⟩

end Signature

namespace Machine

/-- What the conversion of the arguments of a call comes to. -/
inductive CoercesArguments (signature : Signature) (name : String) (arguments : List Value)
    (before : StringHeap) : Except MachineError (List Value) × Machine → Prop
  | converted {values : List Value} {after : Machine} (fits : signature.Fits after.heap values)
      (replaces : Replaces after.heap signature.parameters arguments values)
      (defined : ConvertUpTo after.heap signature.parameters arguments signature.parameters.length)
      (preserved : before.Preserves after.heap) :
      CoercesArguments signature name arguments before (.ok values, after)
  | refused {reason : String} {after : Machine}
      (refuses : signature.Refuses name after.heap arguments reason)
      (preserved : before.Preserves after.heap) :
      CoercesArguments signature name arguments before (.error (.badArgument reason), after)

theorem coercesArguments (signature : Signature) (name : String) (arguments : List Value)
    (machine : Machine) :
    CoercesArguments signature name arguments machine.heap
      ((coerceArguments signature name arguments).apply machine) := by
  rw [coerceArguments, Update.apply_bind]
  rcases signature.checkArity_cases name arguments.length with ⟨allowed, passed⟩ | ⟨wrong, failed⟩
  · rw [passed]
    have coerced := coercesFrom name signature.parameters arguments 1 machine
    change CoercesArguments _ _ _ _
      ((coerceFrom name 1 signature.parameters arguments).apply machine)
    rcases outcome : (coerceFrom name 1 signature.parameters arguments).apply machine with
      ⟨result, after⟩
    rw [outcome] at coerced
    cases coerced with
    | converted defined replaces preserved =>
        exact .converted ⟨replaces.length ▸ allowed, replaces.typed⟩ replaces defined preserved
    | refused place_eq declared given undefined earlier preserved =>
        rw [place_eq, Nat.add_comm]
        exact .refused (.argument allowed declared given undefined earlier) preserved
  · rw [failed]
    exact .refused (.arity wrong) (.refl _)

/-- Values that fit a signature, and only those, are left alone by it. -/
theorem fits_iff_apply_coerceArguments (signature : Signature) (name : String) (values : List Value)
    (machine : Machine) :
    signature.Fits machine.heap values ↔
      (coerceArguments signature name values).apply machine = (.ok values, machine) := by
  constructor
  · intro fits
    rw [coerceArguments, Update.apply_bind]
    rcases signature.checkArity_cases name values.length with ⟨_, passed⟩ | ⟨wrong, _⟩
    · rw [passed]
      exact apply_coerceFrom_of_typed fits.typed name 1
    · exact absurd fits.allowed wrong
  · intro unchanged
    have coerced := coercesArguments signature name values machine
    rw [unchanged] at coerced
    cases coerced with
    | converted fits => exact fits

/-! ## Calls -/

variable {entry : NativeEntry} {signature : Signature} {arguments values : List Value}

/-- Natives with a signature are entered with values that fit it. -/
theorem Enters.fits (entered : Enters entry arguments machine values inside)
    (signed : entry.signature = some signature) : signature.Fits inside.heap values := by
  cases entered with
  | plain unsigned => cases unsigned.symm.trans signed
  | @converted found _ after named coerced =>
      cases named.symm.trans signed
      have outcome := coercesArguments signature entry.name arguments machine
      rw [coerced] at outcome
      cases outcome with
      | converted fits => exact fits

/-- Runs the function of a native on converted arguments and converts its result. -/
def runConverted (fuel : Nat) (entry : NativeEntry) (signature : Signature) (values : List Value) :
    Action Value := do
  let result ← runNative (performWith (invoke fuel) fuel) entry.native values
  coerceResult signature entry.name result

/-- The machine at the end of a call, without the converted arguments. -/
def dropScratch (start after : Machine) : Machine :=
  { after with scratch := after.scratch.take start.scratch.length }

theorem apply_invoke_of_signature (signed : entry.signature = some signature) (fuel : Nat)
    (arguments : List Value) (machine : Machine) :
    (invoke (fuel + 1) entry arguments).apply machine =
      (Action.afterwards (do
        let values ← coerceArguments signature entry.name arguments
        modify fun (after : Machine) => { after with scratch := after.scratch ++ values }
        runConverted fuel entry signature values) (dropScratch machine)).apply machine := by
  rw [invoke, runEntry, signed]
  rfl

/-- What becomes of a call of a native with a signature.  Its function runs on values that fit the
signature and take the place of the arguments, or else the call is refused. -/
inductive Guarded (entry : NativeEntry) (signature : Signature) (arguments : List Value)
    (machine : Machine) : Prop
  | entered {values : List Value} {inside : Machine}
      (enters : Enters entry arguments machine values inside)
      (fits : signature.Fits inside.heap values)
      (replaces : Replaces inside.heap signature.parameters arguments values)
      (defined : ConvertUpTo inside.heap signature.parameters arguments signature.parameters.length)
      (preserved : machine.heap.Preserves inside.heap)
      (runs : ∀ fuel, (invoke (fuel + 1) entry arguments).apply machine =
        ((runConverted fuel entry signature values).afterwards (dropScratch machine)).apply inside)
  | refused {reason : String} {after : Machine}
      (refuses : signature.Refuses entry.name after.heap arguments reason)
      (preserved : machine.heap.Preserves after.heap)
      (fails : ∀ fuel, (invoke (fuel + 1) entry arguments).apply machine =
        some (.error (.badArgument reason), after))

theorem guarded (signed : entry.signature = some signature) (arguments : List Value)
    (machine : Machine) : Guarded entry signature arguments machine := by
  have outcome := coercesArguments signature entry.name arguments machine
  rcases coerced :
      (coerceArguments signature entry.name arguments).apply machine with ⟨result, after⟩
  rw [coerced] at outcome
  cases outcome with
  | @converted values _ fits replaces defined preserved =>
      refine .entered (.converted signed coerced) fits replaces defined preserved fun fuel => ?_
      rw [apply_invoke_of_signature signed, Action.apply_afterwards, Action.apply_bind, apply_lift,
        coerced]
      rfl
  | @refused reason _ refuses preserved =>
      have refuses :
          signature.Refuses entry.name (dropScratch machine after).heap arguments reason :=
        refuses
      refine .refused refuses preserved fun fuel => ?_
      rw [apply_invoke_of_signature signed, Action.apply_afterwards, Action.apply_bind, apply_lift,
        coerced]
      rfl

/-- A result that is converted has the type declared. -/
theorem ensures_coerceResult (signature : Signature) (name : String) (value : Value) :
    (coerceResult signature name value).Ensures machine (fun _ _ => True) fun result after =>
      result.HasType after.heap signature.result := by
  unfold coerceResult
  split
  · rename_i empty
    rw [Update.Ensures, empty]
    exact .nil
  · have coerced := coerces signature.result value machine
    rw [Update.Ensures, Update.apply_bind]
    rcases outcome : (coerce signature.result value).apply machine with ⟨result, after⟩
    rw [outcome] at coerced
    cases coerced with
    | undefined => trivial
    | converted _ typed => exact typed

/-- A result of the function of a native is converted before it is returned. -/
theorem ensures_runConverted (fuel : Nat) (entry : NativeEntry) (signature : Signature)
    (values : List Value) :
    (runConverted fuel entry signature values).Ensures machine (fun _ _ => True) fun result after =>
      result.HasType after.heap signature.result := by
  have ran : (runNative (performWith (invoke fuel) fuel) entry.native values).Ensures machine
      (fun _ _ => True) fun _ _ => True := by
    rintro ⟨_ | _, _⟩ _ <;> trivial
  exact ran.bind fun result _ _ =>
    Action.ensures_lift (ensures_coerceResult signature entry.name result)

theorem ensures_invoke_hasType (signed : entry.signature = some signature) (fuel : Nat)
    (arguments : List Value) (machine : Machine) :
    (invoke fuel entry arguments).Ensures machine (fun _ _ => True) fun result after =>
      result.HasType after.heap signature.result := by
  cases fuel with
  | zero =>
      rintro _ ⟨⟩
  | succ fuel =>
      cases guarded signed arguments machine with
      | refused _ _ fails => exact Action.ensures_of_eq_some (fails fuel) trivial
      | @entered values inside _ _ _ _ _ runs =>
          rw [Action.Ensures, runs]
          exact Action.Ensures.afterwards (ensures_runConverted fuel entry signature values)

/-- The builtins that look at an argument by its position have a parameter. -/
theorem parameters_ne_nil_of_mem_table {name : String} {text : Option String} {builtin : Builtin}
    (member : (name, text, builtin) ∈ Builtin.table) (looks : builtin ≠ .print) :
    ∃ shape signature, text = some shape ∧ Signature.read shape = .ok signature ∧
      signature.parameters ≠ [] := by
  simp only [Builtin.table, List.mem_cons, Prod.mk.injEq, List.not_mem_nil, or_false] at member
  rcases member with ⟨-, -, rfl⟩ | ⟨-, rfl, -⟩ | ⟨-, rfl, -⟩ | ⟨-, rfl, -⟩ | ⟨-, rfl, -⟩ |
    ⟨-, rfl, -⟩ | ⟨-, rfl, -⟩
  · exact absurd rfl looks
  · exact ⟨_, ⟨[.string], false, .int⟩, rfl, rfl, List.cons_ne_nil _ _⟩
  · exact ⟨_, ⟨[.any], false, .string⟩, rfl, rfl, List.cons_ne_nil _ _⟩
  · exact ⟨_, ⟨[.any], false, .int⟩, rfl, rfl, List.cons_ne_nil _ _⟩
  · exact ⟨_, ⟨[.any], false, .float⟩, rfl, rfl, List.cons_ne_nil _ _⟩
  · exact ⟨_, ⟨[.any], false, .string⟩, rfl, rfl, List.cons_ne_nil _ _⟩
  · exact ⟨_, ⟨[.string, .string], true, .string⟩, rfl, rfl, List.cons_ne_nil _ _⟩

/-- The result of a native takes the place of the arguments on the stack. -/
def replaceArguments (base : Nat) (result : Value) : Action Flow := do
  modify fun (machine : Machine) => { machine with stack := machine.stack.truncate base }
  pushing result

/-- The host calls the native that it names. -/
theorem apply_callNative {name : String}
    (found : machine.natives.getBytes? machine.heap (Utf8.encode name.toList) = some entry)
    (fuel : Nat) (arguments : List Value) :
    (callNative fuel name arguments).apply machine =
      (Action.recorded (invoke fuel entry arguments)).apply machine := by
  rw [callNative, callNativeWith, Action.apply_recorded, Action.apply_get_bind, found,
    Action.apply_recorded]

/-- A program calls the native that a constant names on the operands on top of the stack. -/
theorem apply_execute_callNative {index : UInt32} {count : UInt8} {key : StringRef}
    (constant : machine.program.constants[index.toNat]? = some key)
    (registered : machine.natives.get? machine.heap key = some entry)
    (enough : machine.stack.require Opcode.callNative.mnemonic count.toNat = .ok ()) (fuel : Nat) :
    (execute (invoke fuel) (.callNative index count)).apply machine =
      (enterNative (invoke fuel) entry (machine.stack.top count.toNat) machine.inNative >>=
        replaceArguments (machine.stack.depth - count.toNat)).apply machine := by
  have known : (Machine.constant index).apply machine = (.ok key, machine) := by
    rw [Machine.constant, Update.apply_get_bind, constant]
    rfl
  rw [execute, callConstant, Action.apply_bind, apply_lift, known]
  simp only
  rw [Action.apply_get_bind, registered]
  simp only
  rw [Action.apply_bind, apply_lift, enough]
  rfl

/-- Signatures guard natives, whoever calls them.  The function of a native runs only on arguments
in the number that its signature allows, each with a parameter having its type and the others
unchanged, and any other call is refused as a bad argument; a result has the type declared.
Arguments that were converted once are not converted again.  The builtins that look at an argument
by its position are given one. -/
theorem signature_guards_native :
    (∀ (entry : NativeEntry) signature, entry.signature = some signature → ∀ arguments machine,
      Guarded entry signature arguments machine ∧
        ∀ fuel value after, (invoke fuel entry arguments).apply machine = some (.ok value, after) →
          value.HasType after.heap signature.result) ∧
    (∀ (signature : Signature) name values (machine : Machine),
      signature.Fits machine.heap values ↔
        (coerceArguments signature name values).apply machine = (.ok values, machine)) ∧
    (∀ signature name arguments values machine after,
      (coerceArguments signature name arguments).apply machine = (.ok values, after) →
        ∀ later : Machine, after.heap.Preserves later.heap →
          (coerceArguments signature name values).apply later = (.ok values, later)) ∧
    (∀ name text builtin, (name, text, builtin) ∈ Builtin.table → builtin ≠ .print →
      ∃ shape signature, text = some shape ∧ Signature.read shape = .ok signature ∧
        ∀ arguments machine values inside,
          Enters ⟨name, .builtin builtin, some signature⟩ arguments machine values inside →
            values ≠ []) ∧
    (∀ (machine : Machine) name entry fuel arguments,
      machine.natives.getBytes? machine.heap (Utf8.encode name.toList) = some entry →
        (callNative fuel name arguments).apply machine =
          (Action.recorded (invoke fuel entry arguments)).apply machine) ∧
    ∀ (machine : Machine) index key entry count fuel,
      machine.program.constants[index.toNat]? = some key →
      machine.natives.get? machine.heap key = some entry →
      machine.stack.require Opcode.callNative.mnemonic count.toNat = .ok () →
        (execute (invoke fuel) (.callNative index count)).apply machine =
          (enterNative (invoke fuel) entry (machine.stack.top count.toNat) machine.inNative >>=
            replaceArguments (machine.stack.depth - count.toNat)).apply machine := by
  refine ⟨?_, ?_, ?_, ?_, ?_, ?_⟩
  · intro entry signature signed arguments machine
    refine ⟨guarded signed arguments machine, fun fuel value after returned => ?_⟩
    exact ensures_invoke_hasType signed fuel arguments machine _ returned
  · exact fits_iff_apply_coerceArguments
  · intro signature name arguments values machine after coerced later preserved
    have outcome := coercesArguments signature name arguments machine
    rw [coerced] at outcome
    cases outcome with
    | converted fits =>
        exact (fits_iff_apply_coerceArguments signature name values later).mp
          (fits.preserved preserved)
  · intro name text builtin member looks
    obtain ⟨shape, signature, text_eq, read, some_parameter⟩ :=
      parameters_ne_nil_of_mem_table member looks
    refine ⟨shape, signature, text_eq, read, fun arguments machine values inside entered => ?_⟩
    have enough : signature.parameters.length ≤ values.length := (entered.fits rfl).allowed.1
    exact List.ne_nil_of_length_pos ((List.length_pos_iff.mpr some_parameter).trans_le enough)
  · intro machine name entry fuel arguments found
    exact apply_callNative found fuel arguments
  · intro machine index key entry count fuel constant registered enough
    exact apply_execute_callNative constant registered enough fuel

/-- An integer, nil and a truth value are joined as strings. -/
theorem signature_guards_native_joining_texts :
    ∃ machine entry signature value after, create {} = .ok machine ∧
      machine.natives.getBytes? machine.heap (Utf8.encode "concat".toList) = some entry ∧
      entry.signature = some signature ∧
      Guarded entry signature [.int 1, .nil, .bool true] machine ∧
      (callNative 1 "concat" [.int 1, .nil, .bool true]).apply machine = some (.ok value, after) ∧
      value.HasType after.heap signature.result ∧
      after.bytes? value = some (Utf8.encode "1niltrue".toList) := by
  have ran : ((create {}).toOption.bind fun machine =>
      (machine.natives.getBytes? machine.heap (Utf8.encode "concat".toList)).bind fun entry =>
        entry.signature.bind fun signature =>
          ((callNative 1 "concat" [.int 1, .nil, .bool true]).apply machine).bind fun
            | (.ok value, after) => after.bytes? value
            | (.error _, _) => none) = some (Utf8.encode "1niltrue".toList) := by
    decide +kernel
  simp only [Option.bind_eq_some_iff] at ran
  obtain ⟨machine, created, entry, found, signature, signed, ⟨result, after⟩, called, content⟩ :=
    ran
  have created := toOption_eq_some_iff.mp created
  obtain ⟨guards, _, _, _, host, _⟩ := signature_guards_native
  obtain ⟨guarded, typed⟩ := guards entry signature signed [.int 1, .nil, .bool true] machine
  cases result with
  | error => cases content
  | ok value =>
      refine ⟨machine, entry, signature, value, after, created, found, signed, guarded, called, ?_,
        content⟩
      rw [host machine "concat" entry 1 _ found, Action.apply_recorded] at called
      obtain ⟨⟨_ | _, _⟩, invoked, same⟩ := Option.map_eq_some_iff.mp called
      · cases same
      · cases same
        exact typed 1 value after invoked

end Machine

end StackMachine
