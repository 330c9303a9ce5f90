import StackMachine.DecodeError

/-!
# Reasons assembly text is refused

A fault is found on a line, counted from one; a program that assembles and is not well formed is
refused on line zero.
-/

namespace StackMachine

/-- What is wrong with assembly text. -/
inductive AssemblyFault where
  | unknownMnemonic (word : String)
  | missingOperand (mnemonic : String)
  | unexpectedOperand (operand : String)
  | invalidInt (word : String)
  | invalidFloat (word : String)
  | invalidBool (word : String)
  | expectedString
  | unterminatedString
  | invalidEscape
  | duplicateLabel (name : String)
  | undefinedLabel (name : String)
  /-- The program assembled is not well formed. -/
  | malformed (reason : DecodeError)
deriving DecidableEq, Repr

namespace AssemblyFault

/-- The wording of a fault. -/
def message : AssemblyFault → String
  | unknownMnemonic word => "unknown mnemonic `" ++ word ++ "`"
  | missingOperand mnemonic => "`" ++ mnemonic ++ "` is missing an operand"
  | unexpectedOperand operand => "unexpected operand `" ++ operand ++ "`"
  | invalidInt word => "invalid integer `" ++ word ++ "`"
  | invalidFloat word => "invalid float `" ++ word ++ "`"
  | invalidBool word => "invalid boolean `" ++ word ++ "`"
  | expectedString => "expected a string operand"
  | unterminatedString => "unterminated string literal"
  | invalidEscape => "invalid escape sequence"
  | duplicateLabel name => "label `" ++ name ++ "` defined twice"
  | undefinedLabel name => "undefined label `" ++ name ++ "`"
  | malformed reason => reason.message

end AssemblyFault

/-- A fault and the line it is found on. -/
structure AssemblyError where
  /-- The line, counted from one, or zero for the text as a whole. -/
  line : Nat
  /-- What is wrong there. -/
  fault : AssemblyFault
deriving DecidableEq, Repr

/-- The wording of an error. -/
def AssemblyError.message (error : AssemblyError) : String :=
  "line " ++ Numeral.text error.line ++ ": " ++ error.fault.message

end StackMachine
