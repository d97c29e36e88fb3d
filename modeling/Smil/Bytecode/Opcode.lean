import Smil.Operator

/-!
# Opcodes

Each instruction starts with one byte. The bytes are numbered without a gap from zero.
-/

namespace Smil.Bytecode

/-- What an instruction does. Operands follow the opcode: two bytes for a name index, a count or a
jump, the high one first, and one byte for a mode or a status. -/
inductive Opcode where
  /-- Pushes the variable with the given name index. -/
  | load
  /-- Pops an object and pushes the variable that its text names. -/
  | loadNamed
  /-- Pops the target, then the value; stores it in the given mode and pushes the target. -/
  | assign
  /-- Pops the right side, then the left; pushes the result. -/
  | binary (op : Operator)
  /-- Pops an object and pushes the length of its text. -/
  | length
  /-- Pops the given number of objects and prints them. -/
  | print
  /-- Pops an object and greets its text. -/
  | hello
  /-- Greets the world. -/
  | helloWorld
  /-- Pops an object onto the evaluation stack. -/
  | stackPush
  /-- Pops the evaluation stack into the variable with the given name index. -/
  | stackPop
  /-- Pops an object and then the evaluation stack into the variable that its text names. -/
  | stackPopNamed
  /-- Empties the evaluation stack. -/
  | stackClear
  /-- Drops an object. -/
  | pop
  /-- Pops an object and jumps forward if its integer is not positive. -/
  | jumpIfNotPositive
  /-- Jumps backward. -/
  | loop
  /-- Ends the program with the given status. -/
  | exit
  /-- Ends the program. -/
  | finish
deriving DecidableEq, Repr, Inhabited

namespace Opcode

/-- The byte of an opcode. -/
def toByte : Opcode → UInt8
  | load => 0
  | loadNamed => 1
  | assign => 2
  | binary .add => 3
  | binary .subtract => 4
  | binary .multiply => 5
  | binary .divide => 6
  | binary .modulo => 7
  | binary .and => 8
  | binary .or => 9
  | length => 10
  | print => 11
  | hello => 12
  | helloWorld => 13
  | stackPush => 14
  | stackPop => 15
  | stackPopNamed => 16
  | stackClear => 17
  | pop => 18
  | jumpIfNotPositive => 19
  | loop => 20
  | exit => 21
  | finish => 22

/-- The opcode of a byte, if it has one. -/
def ofByte? (b : UInt8) : Option Opcode :=
  match b.toNat with
  | 0 => some load
  | 1 => some loadNamed
  | 2 => some assign
  | 3 => some (binary .add)
  | 4 => some (binary .subtract)
  | 5 => some (binary .multiply)
  | 6 => some (binary .divide)
  | 7 => some (binary .modulo)
  | 8 => some (binary .and)
  | 9 => some (binary .or)
  | 10 => some length
  | 11 => some print
  | 12 => some hello
  | 13 => some helloWorld
  | 14 => some stackPush
  | 15 => some stackPop
  | 16 => some stackPopNamed
  | 17 => some stackClear
  | 18 => some pop
  | 19 => some jumpIfNotPositive
  | 20 => some loop
  | 21 => some exit
  | 22 => some finish
  | _ => none

/-- The byte of an opcode is read back as that opcode. -/
theorem ofByte?_toByte (op : Opcode) : ofByte? op.toByte = some op := by
  cases op with
  | binary op => cases op <;> rfl
  | _ => rfl

/-- The opcode as it is listed. -/
def text : Opcode → String
  | load => "Variable"
  | loadNamed => "NamedVariable"
  | assign => "Assign"
  | binary .add => "Add"
  | binary .subtract => "Subtract"
  | binary .multiply => "Multiply"
  | binary .divide => "Divide"
  | binary .modulo => "Modulo"
  | binary .and => "And"
  | binary .or => "Or"
  | length => "Length"
  | print => "Print"
  | hello => "Hello"
  | helloWorld => "HelloWorld"
  | stackPush => "StackPush"
  | stackPop => "StackPop"
  | stackPopNamed => "StackPopNamed"
  | stackClear => "StackClear"
  | pop => "Pop"
  | jumpIfNotPositive => "JumpIfNotPositive"
  | loop => "Loop"
  | exit => "Exit"
  | finish => "Return"

end Opcode

/-- How an assignment turns the value into the object it stores. -/
inductive AssignMode where
  /-- The value itself. -/
  | copy
  /-- One if the value is truthy, else zero. -/
  | truthy
  /-- Zero if the value is truthy, else one. -/
  | negated
deriving DecidableEq, Repr, Inhabited

namespace AssignMode

/-- The byte of a mode. -/
def toByte : AssignMode → UInt8
  | copy => 0
  | truthy => 1
  | negated => 2

/-- The mode of a byte, if it has one. -/
def ofByte? (b : UInt8) : Option AssignMode :=
  match b.toNat with
  | 0 => some copy
  | 1 => some truthy
  | 2 => some negated
  | _ => none

/-- The byte of a mode is read back as that mode. -/
theorem ofByte?_toByte (m : AssignMode) : ofByte? m.toByte = some m := by
  cases m <;> rfl

/-- The mode as it is listed. -/
def text : AssignMode → String
  | copy => "Copy"
  | truthy => "Truthy"
  | negated => "Not"

end AssignMode

end Smil.Bytecode
