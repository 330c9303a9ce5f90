import StackMachine.Machine.Interface

/-!
# Converting arguments and results

A native with a signature is given arguments of the types it declares, and its result is converted
to the type it declares. A conversion is undefined for some values; only a conversion to a string
changes the machine, by allocating the string.
-/

namespace StackMachine

namespace Value

/-- The number that a live string spells. -/
def numberIn? (heap : StringHeap) (value : Value) : Option Number :=
  (value.string?.bind heap.bytes?).bind Number.ofBytes?

/-- The conversion to an integer. Floats lose their fraction and saturate. -/
def toInt? (heap : StringHeap) (value : Value) : Option Int64 :=
  match value with
  | int value => some value
  | float value => some value.toInt64
  | bool value => some (if value then 1 else 0)
  | string _ =>
    (value.numberIn? heap).map fun number =>
      match number with
      | .int value => value
      | .float value => value.toInt64
  | nil | native _ => none

/-- The conversion to a float. -/
def toFloat? (heap : StringHeap) (value : Value) : Option Binary64 :=
  match value with
  | int value => some (.ofInt value.toInt)
  | float value => some value
  | bool value => some (.ofInt (if value then 1 else 0))
  | string _ => (value.numberIn? heap).map Number.toFloat
  | nil | native _ => none

/-- The conversion to a boolean. -/
def toBool? (heap : StringHeap) (value : Value) : Option Bool :=
  match value with
  | bool value => some value
  | int value => some (value != 0)
  | float value => some (!value.isZero)
  | nil => some false
  | string ref =>
    (heap.bytes? ref).bind fun bytes =>
      if bytes = Utf8.encode "true".toList then some true
      else if bytes = Utf8.encode "false".toList then some false
      else none
  | native _ => none

end Value

namespace Machine

/-- Converts a value to a type, if the conversion is defined. -/
def coerce (type : ParameterType) (value : Value) : Update (Option Value) := do
  let machine ← get
  match type with
  | .any => return some value
  | .nil => return if value.isNil then some .nil else none
  | .int => return (value.toInt? machine.heap).map .int
  | .float => return (value.toFloat? machine.heap).map .float
  | .bool => return (value.toBool? machine.heap).map .bool
  | .string =>
    match value with
    | .string ref => return if machine.heap.contains ref then some value else none
    | other => do
      let converted ← newString (Utf8.encode (other.text machine.heap))
      return some converted

/-- Converts the arguments from a position on. Arguments without a parameter stay as they are. -/
def coerceFrom (name : String) :
    (position : Nat) → List ParameterType → List Value → Update (List Value)
  | position, type :: types, argument :: rest => do
    match ← coerce type argument with
    | some value =>
      let values ← coerceFrom name (position + 1) types rest
      return value :: values
    | none =>
      throw (.badArgument ("native `" ++ name ++ "` argument " ++ Numeral.text position ++
        ": cannot convert " ++ argument.typeName ++ " to " ++ type.name))
  | _, _, rest => return rest

/-- Checks the number of arguments of a native and converts them. -/
def coerceArguments (signature : Signature) (name : String) (arguments : List Value) :
    Update (List Value) := do
  Update.ofExcept (signature.checkArity name arguments.length)
  coerceFrom name 1 signature.parameters arguments

/-- Converts the result of a native; a native without a result gives nil whatever it says. -/
def coerceResult (signature : Signature) (name : String) (value : Value) : Update Value := do
  if signature.result = .nil then return .nil
  match ← coerce signature.result value with
  | some converted => return converted
  | none =>
    throw (.badArgument ("native `" ++ name ++ "` returned " ++ value.typeName ++
      ", declared " ++ signature.result.name))

end Machine

end StackMachine
