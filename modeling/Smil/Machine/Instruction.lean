import Smil.Bytecode.Chunk
import Smil.Machine.Fault

/-!
# Instructions

The machine reads a whole instruction, operands and names included, before it does anything. The
offset of the next instruction is where the reading ends.
-/

namespace Smil

open Bytecode

/-- An instruction with its operands. -/
inductive Instruction where
  | load (name : String)
  | loadNamed
  | assign (mode : AssignMode)
  | binary (op : Operator)
  | length
  | print (count : Nat)
  | hello
  | helloWorld
  | stackPush
  | stackPop (name : String)
  | stackPopNamed
  | stackClear
  | pop
  | jumpIfNotPositive (distance : Nat)
  | loop (distance : Nat)
  | exit (code : UInt8)
  | finish
deriving DecidableEq, Repr, Inhabited

namespace Instruction

/-- The byte at an offset. -/
def byteAt (c : Chunk) (offset : Nat) : Except Fault UInt8 :=
  match c.code[offset]? with
  | some b => .ok b
  | none => .error .pastEnd

/-- The two bytes at an offset as a number. -/
def wordAt (c : Chunk) (offset : Nat) : Except Fault Nat := do
  let high ← byteAt c offset
  let low ← byteAt c (offset + 1)
  return high.toNat * 256 + low.toNat

/-- The name whose index stands at an offset. -/
def nameAt (c : Chunk) (offset : Nat) : Except Fault String := do
  let index ← wordAt c offset
  match c.names[index]? with
  | some name => .ok name
  | none => .error (.unknownName index)

/-- The opcode at an offset. -/
def opcodeAt (c : Chunk) (offset : Nat) : Except Fault Opcode := do
  let b ← byteAt c offset
  match Opcode.ofByte? b with
  | some op => .ok op
  | none => .error (.invalidOpcode b)

/-- The assignment mode at an offset. -/
def modeAt (c : Chunk) (offset : Nat) : Except Fault AssignMode := do
  let b ← byteAt c offset
  match AssignMode.ofByte? b with
  | some mode => .ok mode
  | none => .error (.invalidMode b)

/-- The instruction at an offset and the offset behind it. -/
def fetch (c : Chunk) (ip : Nat) : Except Fault (Instruction × Nat) := do
  match ← opcodeAt c ip with
  | .load => return (.load (← nameAt c (ip + 1)), ip + 3)
  | .loadNamed => return (.loadNamed, ip + 1)
  | .assign => return (.assign (← modeAt c (ip + 1)), ip + 2)
  | .binary op => return (.binary op, ip + 1)
  | .length => return (.length, ip + 1)
  | .print => return (.print (← wordAt c (ip + 1)), ip + 3)
  | .hello => return (.hello, ip + 1)
  | .helloWorld => return (.helloWorld, ip + 1)
  | .stackPush => return (.stackPush, ip + 1)
  | .stackPop => return (.stackPop (← nameAt c (ip + 1)), ip + 3)
  | .stackPopNamed => return (.stackPopNamed, ip + 1)
  | .stackClear => return (.stackClear, ip + 1)
  | .pop => return (.pop, ip + 1)
  | .jumpIfNotPositive => return (.jumpIfNotPositive (← wordAt c (ip + 1)), ip + 3)
  | .loop => return (.loop (← wordAt c (ip + 1)), ip + 3)
  | .exit => return (.exit (← byteAt c (ip + 1)), ip + 2)
  | .finish => return (.finish, ip + 1)

end Instruction

end Smil
