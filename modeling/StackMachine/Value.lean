import StackMachine.Binary64.Text
import StackMachine.StringHeap
import StackMachine.Text.Utf8
import StackMachine.Text.Whitespace

/-!
# Values

The values of the machine are nil, booleans, 64-bit integers, binary64 numbers, strings on the heap
and handles of the host. This module holds their kinds, their text and the reading of numbers from
text.
-/

namespace StackMachine

/-- A token of the host that the machine carries and never looks into. -/
structure NativeHandle where
  /-- The bits of the token. -/
  raw : UInt64
deriving DecidableEq, Repr

namespace NativeHandle

/-- The address that a handle may stand for. -/
def address (handle : NativeHandle) : UInt64 := handle.raw

/-- The handle that stands for an address. -/
def ofAddress (address : UInt64) : NativeHandle := ⟨address⟩

end NativeHandle

/-- A value. -/
inductive Value where
  | nil
  | bool (value : Bool)
  | int (value : Int64)
  | float (value : Binary64)
  | string (ref : StringRef)
  | native (handle : NativeHandle)
deriving DecidableEq, Repr

/-- A value that arithmetic applies to. -/
inductive Number where
  | int (value : Int64)
  | float (value : Binary64)
deriving DecidableEq, Repr

namespace Number

/-- The nearest binary64 number. -/
def toFloat : Number → Binary64
  | int value => .ofInt value.toInt
  | float value => value

/-- The number as a value. -/
def toValue : Number → Value
  | int value => .int value
  | float value => .float value

end Number

namespace Value

/-- The name of the kind of a value. -/
def typeName : Value → String
  | nil => "nil"
  | bool _ => "bool"
  | int _ => "int"
  | float _ => "float"
  | string _ => "string"
  | native _ => "native"

/-- Whether a value counts as true: all but nil, false and the zeros do. -/
def isTruthy : Value → Bool
  | nil => false
  | bool value => value
  | int value => value != 0
  | float value => !value.isZero
  | string _ | native _ => true

/-- The number that a value is. -/
def number? : Value → Option Number
  | int value => some (.int value)
  | float value => some (.float value)
  | _ => none

/-- The string that a value refers to. -/
def string? : Value → Option StringRef
  | string ref => some ref
  | _ => none

/-- Whether a value is nil. -/
def isNil : Value → Bool
  | nil => true
  | _ => false

/-- Whether two values are the same: strings by handle, floats numerically, and integers and floats
never. -/
def isSame : Value → Value → Bool
  | nil, nil => true
  | bool left, bool right => left == right
  | int left, int right => left == right
  | float left, float right => left.equal right
  | string left, string right => left == right
  | native left, native right => left == right
  | _, _ => false

/-! ## Text -/

/-- The text of a value, as it is printed. -/
def text (heap : StringHeap) : Value → List Char
  | nil => "nil".toList
  | bool value => (if value then "true" else "false").toList
  | int value => Numeral.integer value.toInt
  | float value => value.displayText
  | string ref =>
    match heap.bytes? ref with
    | some bytes => Utf8.decodeLossy bytes
    | none => "<freed string>".toList
  | native handle => "<native 0x".toList ++ Numeral.hexadecimal handle.raw.toNat ++ ['>']

/-- The text of a value with its kind, for diagnosis. Strings have none, since handles are not
shown. -/
def diagnostic? : Value → Option (List Char)
  | nil => some "Nil".toList
  | bool value => some ("Bool(".toList ++ (if value then "true" else "false").toList ++ [')'])
  | int value => some ("Int(".toList ++ Numeral.integer value.toInt ++ [')'])
  | float value => some ("Float(".toList ++ value.text ++ [')'])
  | string _ => none
  | native handle =>
    some ("Native(NativeHandle(0x".toList ++ Numeral.hexadecimal handle.raw.toNat ++ "))".toList)

end Value

/-! ## Numbers in text -/

namespace Number

/-- The number that a text without blanks spells after its sign: a hexadecimal integer after `0x`,
a decimal integer, or a float when there is a point or an exponent or the integer needs more than
64 bits. -/
def ofMagnitude? (negative : Bool) (text : List Char) : Option Number :=
  let signed (magnitude : Nat) : Int := if negative then -magnitude else magnitude
  match text with
  | '0' :: 'x' :: digits | '0' :: 'X' :: digits =>
    (Numeral.natural? 16 digits).bind fun value =>
      (Numeral.int64OfInt? (signed value)).map int
  | _ =>
    (DecimalNumeral.read? text).map fun numeral =>
      let decimal := numeral.toDecimal
      match Numeral.int64OfInt? (signed decimal.significand) with
      | some value =>
        if numeral.isInteger then int value else float (.ofDecimal negative decimal)
      | none => float (.ofDecimal negative decimal)

/-- The number that a text spells, blanks around it and a sign in front being allowed. -/
def ofText? (text : List Char) : Option Number :=
  match Text.trimBy Text.isAsciiBlank text with
  | '-' :: magnitude => ofMagnitude? true magnitude
  | '+' :: magnitude => ofMagnitude? false magnitude
  | magnitude => ofMagnitude? false magnitude

/-- The number that a byte string spells. Numerals are ASCII, so each byte is read as one
character, and a byte outside ASCII is in no numeral. -/
def ofBytes? (bytes : List UInt8) : Option Number :=
  ofText? (bytes.map fun byte => Char.ofNat byte.toNat)

end Number

end StackMachine
