import Smil.Error

/-!
# Faults of the machine

Bytecode that no program compiles to can misuse the machine. Each way of doing so is a fault; it
stops the run as an error with the fault's wording.
-/

namespace Smil

/-- How bytecode can misuse the machine. -/
inductive Fault where
  | pastEnd
  | invalidOpcode (b : UInt8)
  | invalidMode (b : UInt8)
  | unknownName (index : Nat)
  | operandUnderflow
  | missingArguments
  | jumpBeforeStart
  | danglingHandle (h : Nat)
deriving DecidableEq, Repr, Inhabited

namespace Fault

/-- The wording of a fault. -/
def message : Fault → String
  | pastEnd => "ran past the end of the bytecode"
  | invalidOpcode b => "invalid opcode " ++ Text.decimal b.toNat
  | invalidMode b => "invalid assign mode " ++ Text.decimal b.toNat
  | unknownName index => "no variable name at index " ++ Text.decimal index
  | operandUnderflow => "operand stack underflow"
  | missingArguments => "print is missing arguments"
  | jumpBeforeStart => "loop jumps before start"
  | danglingHandle h => "no object at handle " ++ Text.decimal h

/-- A fault as the cause of an error. -/
def cause (f : Fault) : Cause :=
  .runtime f.message

end Fault

end Smil
