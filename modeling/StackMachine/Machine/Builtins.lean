import StackMachine.Machine.Interface

/-!
# The builtin natives

A missing argument counts as nil; the signatures of the builtins see to it that none is missing.
-/

namespace StackMachine

namespace Machine

/-- The content of a string, or the text of any other value. -/
def contentOf (machine : Machine) (value : Value) : List UInt8 :=
  match machine.bytes? value with
  | some bytes => bytes
  | none => Utf8.encode (value.text machine.heap)

/-- The texts of values with a space between neighbours. -/
def joinedText (heap : StringHeap) (values : List Value) : List Char :=
  List.intercalate [' '] (values.map (Value.text heap))

end Machine

namespace Builtin

/-- What a builtin does with its arguments. -/
def run (builtin : Builtin) (arguments : List Value) : Update Value := do
  let machine ← get
  let first := arguments.headD .nil
  match builtin with
  | print =>
    Machine.write (Utf8.encode (Machine.joinedText machine.heap arguments ++ ['\n']))
    return .nil
  | length => return .int (Int64.ofNat ((machine.bytes? first).getD []).length)
  | identity => return first
  | typeName => Machine.newString (Utf8.encode first.typeName.toList)
  | concat => Machine.newString (arguments.flatMap machine.contentOf)

end Builtin

end StackMachine
