import Smil.Span
import Smil.Text.Decimal
import Smil.Text.Lines

/-!
# Errors

An error is a cause with the place it belongs to. The wording of every cause stands in
`Cause.message`; `Error.render` adds the place and, once a source line is attached, that line
with a caret under the offending column.
-/

namespace Smil

/-- The largest text, in bytes, that an operator may produce. -/
def maxTextBytes : Nat := 0x1000_0000

/-- Why reading, compiling or running failed. -/
inductive Cause where
  | unexpectedToken (token : String)
  | expectedToken (expected got : String)
  | expectedOperand (got : String)
  | expectedValue (got : String)
  | unterminated (construct : String)
  | invalidTarget (target : String)
  | missingTarget
  | invalidOperation (left operator right : String)
  | divisionByZero
  | missingInputs (expected got : Nat)
  | stackUnderflow
  | textTooLarge
  | programTooLarge (limit : String)
  | output (detail : String)
  | runtime (detail : String)
deriving DecidableEq, Repr, Inhabited

/-- Coarse classes of causes. -/
inductive Cause.Category where
  | syntactic
  | assignability
  | invalidOperation
  | divideByZero
  | missingInput
  | runtime
deriving DecidableEq, Repr, Inhabited

namespace Cause

/-- The class of a cause. -/
def category : Cause → Cause.Category
  | unexpectedToken _ | expectedToken .. | expectedOperand _ | expectedValue _
  | unterminated _ => .syntactic
  | invalidTarget _ | missingTarget => .assignability
  | invalidOperation .. => .invalidOperation
  | divisionByZero => .divideByZero
  | missingInputs .. => .missingInput
  | stackUnderflow | textTooLarge | programTooLarge _ | output _ | runtime _ => .runtime

/-- The wording of a cause. -/
def message : Cause → String
  | unexpectedToken token => "unexpected token '" ++ token ++ "'"
  | expectedToken expected got => "expected '" ++ expected ++ "', got '" ++ got ++ "'"
  | expectedOperand got => "expected a variable, input or length operand, got '" ++ got ++ "'"
  | expectedValue got => "expected a value, got " ++ got
  | unterminated construct => "unterminated " ++ construct
  | invalidTarget target => target ++ " is not assignable"
  | missingTarget => "nothing to assign to"
  | invalidOperation left operator right =>
    "invalid operation: " ++ left ++ " " ++ operator ++ " " ++ right
  | divisionByZero => "division by zero"
  | missingInputs expected got =>
    "missing inputs: program needs " ++ Text.decimal expected ++ ", got " ++ Text.decimal got
  | stackUnderflow => "evaluation stack is empty"
  | textTooLarge => "string result is larger than " ++ Text.decimal maxTextBytes ++ " bytes"
  | programTooLarge limit => "program too large: " ++ limit
  | output detail => "failed to write output: " ++ detail
  | runtime detail => detail

end Cause

/-- A cause, its place if it has one, and the source line to show with it. -/
structure Error where
  cause : Cause
  span : Option Span
  sourceLine : Option String
deriving DecidableEq, Repr, Inhabited

namespace Error

/-- An error at a place. -/
def placed (cause : Cause) (span : Span) : Error :=
  ⟨cause, some span, none⟩

/-- An error that belongs to no place in the source. -/
def unplaced (cause : Cause) : Error :=
  ⟨cause, none, none⟩

/-- Attaches the source line that the error points at, if the source has it. -/
def withSource (e : Error) (source : String) : Error :=
  match e.span with
  | some span =>
    if span.line = 0 then e
    else { e with sourceLine := (Text.lines source)[span.line - 1]? }
  | none => e

/-- The source line and, on the next line, a caret under `column`. -/
def excerpt (line : String) (column : Nat) : String :=
  "\n  | " ++ line ++ "\n  | " ++ String.ofList (List.replicate (column - 1) ' ') ++ "^"

/-- The text of an error: its place, its message and the attached source line. -/
def render (e : Error) : String :=
  match e.span with
  | none => e.cause.message
  | some span =>
    "(" ++ Text.decimal span.line ++ ":" ++ Text.decimal span.column ++ "): " ++ e.cause.message ++
      match e.sourceLine with
      | none => ""
      | some line => excerpt line span.column

end Error

end Smil
