import StackMachine.Listing

/-!
# Programs and their images

A program is a pool of byte strings and code. It is well formed when its code decodes without
failure, every pool operand is inside the pool and every jump leads to the start of an instruction.

The image of a program is the magic number, a version byte, the number of strings, each string
after its length, the length of the code and the code. Loading accepts the images of well-formed
programs and nothing else.
-/

namespace StackMachine

/-- A string pool and code. -/
structure Program where
  /-- The constants that pool operands refer to. -/
  strings : List (List UInt8)
  /-- The encoded instructions. -/
  code : List UInt8
deriving DecidableEq, Repr

namespace Program

/-- The constant at a pool index. -/
def string? (program : Program) (index : UInt32) : Option (List UInt8) :=
  program.strings[index.toNat]?

/-- The instructions of a program. -/
def listing (program : Program) : Listing :=
  Listing.ofCode program.code

/-! ## Well-formedness -/

/-- The fault of an instruction whose pool operand is past a pool of a given length. -/
def poolFault? (length : Nat) : Nat × Instruction → Option DecodeError
  | (offset, instruction) =>
    match instruction.poolIndex? with
    | some index =>
      if index.toNat < length then none
      else some (.stringIndexOutOfRange index length offset)
    | none => none

/-- The fault of a jump that leads to none of the given offsets. -/
def jumpFault? (starts : List Nat) : Nat × Instruction → Option DecodeError
  | (offset, instruction) =>
    match instruction.jumpTarget? with
    | some target =>
      if starts.contains target.toNat then none else some (.badJumpTarget target offset)
    | none => none

/-- The first fault of a program: by offset among pool operands and decoding, and only then the
first jump astray. -/
def fault? (program : Program) : Option DecodeError :=
  let listing := program.listing
  let starts := listing.instructions.map Prod.fst
  (listing.instructions.findSome? (poolFault? program.strings.length)).or
    (listing.failure.or (listing.instructions.findSome? (jumpFault? starts)))

/-- Accepts a well-formed program. -/
def verify (program : Program) : Except DecodeError Unit :=
  match program.fault? with
  | some fault => .error fault
  | none => .ok ()

/-! ## Images -/

/-- The bytes an image starts with. -/
def magic : List UInt8 := [0x50, 0x49, 0x4c, 0x41]

/-- The version of the image layout. -/
def version : UInt8 := 1

/-- The number of bytes that a magic number and a version take. -/
def headerLength : Nat := magic.length + 1

/-- Whether bytes start with the magic number. -/
def hasMagic (bytes : List UInt8) : Bool :=
  magic.isPrefixOf bytes

/-- A number as four bytes. -/
def word (value : Nat) : List UInt8 :=
  LittleEndian.bytes 4 value

/-- A byte string after its length. -/
def block (bytes : List UInt8) : List UInt8 :=
  word bytes.length ++ bytes

/-- The image of a program. -/
def image (program : Program) : List UInt8 :=
  magic ++ version :: (word program.strings.length ++ program.strings.flatMap block ++
    block program.code)

/-- A place in an image: how many bytes are behind it and which are ahead. -/
structure Cursor where
  /-- The number of bytes read. -/
  offset : Nat
  /-- The bytes not read yet. -/
  rest : List UInt8

namespace Cursor

/-- The cursor after `count` more bytes. -/
def advance (cursor : Cursor) (count : Nat) : Cursor :=
  ⟨cursor.offset + count, cursor.rest.drop count⟩

/-- Reads a number of four bytes. -/
def word (what : String) (cursor : Cursor) : Except DecodeError (UInt32 × Cursor) :=
  if cursor.rest.length < 4 then .error (.unexpectedEnd what cursor.offset)
  else .ok (UInt32.ofNat (LittleEndian.number (cursor.rest.take 4)), cursor.advance 4)

/-- Reads as many bytes as a length read before says. -/
def bytes (what : String) (length : UInt32) (cursor : Cursor) :
    Except DecodeError (List UInt8 × Cursor) :=
  if cursor.rest.length < length.toNat then
    .error (.lengthPastEnd what length cursor.offset cursor.rest.length)
  else .ok (cursor.rest.take length.toNat, cursor.advance length.toNat)

/-- Reads a length and as many bytes. -/
def block (what : String) (cursor : Cursor) : Except DecodeError (List UInt8 × Cursor) := do
  let (length, cursor) ← cursor.word (what ++ " length")
  cursor.bytes what length

/-- Reads a number of strings. -/
def strings : Nat → Cursor → Except DecodeError (List (List UInt8) × Cursor)
  | 0, cursor => .ok ([], cursor)
  | count + 1, cursor => do
    let (string, cursor) ← cursor.block "string"
    let (rest, cursor) ← strings count cursor
    return (string :: rest, cursor)

end Cursor

/-- Reads the part of an image after its version. -/
def readBody (cursor : Cursor) : Except DecodeError Program := do
  let (count, cursor) ← cursor.word "string count"
  let (strings, cursor) ← cursor.strings count.toNat
  let (code, cursor) ← cursor.block "code"
  if cursor.rest.isEmpty then return ⟨strings, code⟩
  else throw (.trailingBytes cursor.rest.length)

/-- Reads an image without judging the program in it. -/
def read (bytes : List UInt8) : Except DecodeError Program :=
  if bytes.length < headerLength then .error (.tooShort bytes.length headerLength)
  else if !hasMagic bytes then .error .badMagic
  else
    match bytes.drop magic.length with
    | [] => .error (.tooShort bytes.length headerLength)
    | found :: rest =>
      if found = version then readBody ⟨headerLength, rest⟩
      else .error (.unsupportedVersion found)

/-- Loads the image of a well-formed program. -/
def load (bytes : List UInt8) : Except DecodeError Program := do
  let program ← read bytes
  program.verify
  return program

end Program

end StackMachine
