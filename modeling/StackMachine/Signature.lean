import StackMachine.MachineError
import StackMachine.Text.Whitespace

/-!
# Signatures of natives

A signature lists the types of the parameters, whether more arguments may follow, and the type of
the result. It is written as comma-separated type codes, a final `*` for further arguments, and an
arrow with the code of the result, which is `a` when there is no arrow. White space counts for
nothing.
-/

namespace StackMachine

/-- The type of a parameter or a result. -/
inductive ParameterType where
  | int
  | float
  | string
  | bool
  | nil
  | any
deriving DecidableEq, Repr

namespace ParameterType

/-- The character that stands for a type. -/
def code : ParameterType → Char
  | int => 'i'
  | float => 'f'
  | string => 's'
  | bool => 'b'
  | nil => 'n'
  | any => 'a'

/-- The type that a character stands for. -/
def ofCode? (c : Char) : Option ParameterType :=
  [int, float, string, bool, nil, any].find? fun type => type.code == c

/-- The name of a type in messages. -/
def name : ParameterType → String
  | int => "int"
  | float => "float"
  | string => "string"
  | bool => "bool"
  | nil => "nil"
  | any => "any"

@[simp]
theorem ofCode?_code (type : ParameterType) : ofCode? type.code = some type := by
  cases type <;> rfl

end ParameterType

/-- The types of a native. -/
structure Signature where
  /-- The types of the parameters. -/
  parameters : List ParameterType
  /-- Whether further arguments may follow, of any type. -/
  variadic : Bool
  /-- The type of the result. -/
  result : ParameterType
deriving DecidableEq, Repr

namespace Signature

/-! ## Reading -/

/-- The texts before and after the first arrow. -/
def splitArrow? : List Char → Option (List Char × List Char)
  | [] => none
  | '-' :: '>' :: rest => some ([], rest)
  | c :: rest => (splitArrow? rest).map fun (before, after) => (c :: before, after)

/-- The texts between commas. -/
def splitCommas : List Char → List (List Char)
  | [] => [[]]
  | c :: rest =>
    if c = ',' then [] :: splitCommas rest
    else
      match splitCommas rest with
      | first :: others => (c :: first) :: others
      | [] => [[c]]

/-- The result type after an arrow. -/
def readResult : List Char → Except String ParameterType
  | [c] =>
    match ParameterType.ofCode? c with
    | some type => .ok type
    | none => .error "unknown return type"
  | _ => .error "expected one return type after `->`"

/-- The parameter types that texts between commas spell, and whether they end with a star. -/
def readParameters : List (List Char) → Except String (List ParameterType × Bool)
  | [] => .ok ([], false)
  | [['*']] => .ok ([], true)
  | ['*'] :: _ => .error "`*` must be the last parameter"
  | [c] :: rest =>
    match ParameterType.ofCode? c with
    | none => .error "unknown parameter type"
    | some type => (readParameters rest).map fun (types, variadic) => (type :: types, variadic)
  | _ => .error "parameters are single type codes"

/-- The signature that a text without white space spells. -/
def readCompact (text : List Char) : Except String Signature := do
  let (front, result) ←
    match splitArrow? text with
    | some (front, after) =>
      let result ← readResult after
      pure (front, result)
    | none => pure (text, .any)
  let (parameters, variadic) ← readParameters (if front.isEmpty then [] else splitCommas front)
  return ⟨parameters, variadic, result⟩

/-- The signature that a text spells. -/
def read (text : String) : Except MachineError Signature :=
  match readCompact (text.toList.filter fun c => !Text.isWhiteSpace c) with
  | .ok signature => .ok signature
  | .error reason => .error (.badArgument ("invalid signature `" ++ text ++ "`: " ++ reason))

/-! ## Writing -/

/-- The parameters as texts between commas. -/
def parameterTexts (signature : Signature) : List (List Char) :=
  signature.parameters.map (fun type => [type.code]) ++ if signature.variadic then [['*']] else []

/-- The text of a signature. -/
def text (signature : Signature) : String :=
  String.ofList (List.intercalate [','] signature.parameterTexts ++
    ['-', '>', signature.result.code])

/-! ## Arity -/

/-- Fails unless a native is given a number of arguments that its signature allows. -/
def checkArity (signature : Signature) (name : String) (count : Nat) :
    Except MachineError Unit :=
  let required := signature.parameters.length
  if (if signature.variadic then required ≤ count else count = required) then .ok ()
  else
    let expected := (if signature.variadic then "at least " else "") ++ Numeral.text required
    .error (.badArgument ("native `" ++ name ++ "` expects " ++ expected ++
      " arguments, got " ++ Numeral.text count))

end Signature

end StackMachine
