import StackMachine.Program

/-!
# Building programs

A builder collects code and pool strings. A pool string is found by its content, so the first
appearance decides its index. A jump to an offset not yet known is emitted with target zero and
patched when its label is bound.
-/

namespace StackMachine

/-- A program under construction. -/
structure Builder where
  /-- The code emitted so far. -/
  code : List UInt8 := []
  /-- The pool so far. -/
  strings : List (List UInt8) := []
deriving DecidableEq, Repr

/-- A jump whose target is not known yet. -/
structure Label where
  /-- The position in the code of the four target bytes. -/
  position : Nat
deriving DecidableEq, Repr

namespace Builder

/-- The offset of the next instruction. -/
def offset (builder : Builder) : UInt32 :=
  UInt32.ofNat builder.code.length

/-- The program built so far. -/
def program (builder : Builder) : Program :=
  ⟨builder.strings, builder.code⟩

/-- Adds a pool string, whether or not its content is there already. -/
def pushString (builder : Builder) (bytes : List UInt8) : UInt32 × Builder :=
  (UInt32.ofNat builder.strings.length,
    { builder with strings := builder.strings ++ [bytes] })

/-- The index of the first pool string with a given content, which is added when absent. -/
def intern (builder : Builder) (bytes : List UInt8) : UInt32 × Builder :=
  match builder.strings.idxOf? bytes with
  | some index => (UInt32.ofNat index, builder)
  | none => builder.pushString bytes

/-- Appends an instruction. -/
def emit (builder : Builder) (instruction : Instruction) : Builder :=
  { builder with code := builder.code ++ instruction.encode }

/-- Appends an instruction that takes the index of a pool string. -/
def emitInterned (builder : Builder) (bytes : List UInt8) (instruction : UInt32 → Instruction) :
    Builder :=
  let (index, builder) := builder.intern bytes
  builder.emit (instruction index)

/-- Appends a jump, made for an unknown target, and gives the label to bind. -/
def emitPending (builder : Builder) (jump : UInt32 → Instruction) : Label × Builder :=
  let builder := builder.emit (jump 0)
  (⟨builder.code.length - 4⟩, builder)

/-- Directs the jump of a label to the current offset. -/
def bind (builder : Builder) (label : Label) : Builder :=
  { builder with
    code := builder.code.take label.position ++
      LittleEndian.bytes 4 builder.offset.toNat ++ builder.code.drop (label.position + 4) }

end Builder

end StackMachine
