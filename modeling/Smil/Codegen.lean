import Smil.Bytecode.Chunk
import Smil.Error
import Smil.Expr.Display

/-!
# Code generation

Code is appended to a chunk. A value leaves exactly one object on the operand stack and a
statement none:

* variable: `load i`
* named variable: name, `loadNamed`
* assignment: value, target, `assign mode`
* operator: left, right, opcode
* loop: condition, `jumpIfNotPositive else`, then-body, condition, `jumpIfNotPositive end`,
  `loop then`, else-body

An error stops the generation, and what has been appended until then stays in the chunk.
-/

namespace Smil.Codegen

open Bytecode

/-- Appends code to a chunk, or fails and keeps what it has appended. -/
abbrev Gen := EStateM Error Chunk

/-- Appends an opcode. -/
def emit (op : Opcode) (span : Span) : Gen Unit :=
  modify fun c => c.write op span

/-- Appends a byte. -/
def emitByte (b : UInt8) (span : Span) : Gen Unit :=
  modify fun c => c.writeByte b span

/-- Appends two bytes. -/
def emitWord (w : UInt16) (span : Span) : Gen Unit :=
  modify fun c => c.writeWord w span

/-- The number of bytes so far. -/
def offset : Gen Nat :=
  return (← get).size

/-- A number as two bytes, or the error that it does not fit. -/
def word (n : Nat) (limit : String) (span : Span) : Gen UInt16 :=
  match Chunk.word? n with
  | some w => return w
  | none => throw (.placed (.programTooLarge limit) span)

/-- The index of a name. -/
def nameIndex (name : String) (span : Span) : Gen UInt16 := do
  match ← modifyGet fun c => c.addName name with
  | some index => return index
  | none => throw (.placed (.programTooLarge "too many variables") span)

/-- Pushes a variable. -/
def load (name : String) (span : Span) : Gen Unit := do
  let index ← nameIndex name span
  emit .load span
  emitWord index span

/-- Appends a forward jump whose distance is still open, and returns where the distance stands. -/
def openJump (span : Span) : Gen Nat := do
  emit .jumpIfNotPositive span
  let hole ← offset
  emitWord 0xFFFF span
  return hole

/-- Points an open jump to the end of the code. -/
def closeJump (hole : Nat) (span : Span) : Gen Unit := do
  if ← modifyGet fun c => c.patchJump hole then return ()
  else throw (.placed (.programTooLarge "jump too long") span)

/-- Appends a jump back to `start`. The distance counts from behind the jump. -/
def jumpBack (start : Nat) (span : Span) : Gen Unit := do
  emit .loop span
  let distance ← word ((← offset) - start + 2) "loop body too long" span
  emitWord distance span

/-- The mode of an assignment: each inverted side turns the truth value around once. -/
def assignMode (target value : Expr) : AssignMode :=
  match target.isInverted, value.isInverted with
  | false, false => .copy
  | true, true => .truthy
  | _, _ => .negated

/-- Appends the code of a value. -/
def value : Expr → Gen Unit
  | .input index span => load (inputName index) span
  | .var name _ span => load name span
  | .namedVar name span => do
    value name
    emit .loadNamed span
  | .assign target source span => do
    value source
    value target
    emit .assign span
    emitByte (assignMode target source).toByte span
  | .binary left op right span => do
    value left
    value right
    emit (.binary op) span
  | .pop (.var name _ _) span => do
    let index ← nameIndex name span
    emit .stackPop span
    emitWord index span
  | .pop (.namedVar name _) span => do
    value name
    emit .stackPopNamed span
  | .pop target _ => throw (.placed (.invalidTarget target.display) target.span)
  | .lengthOf operand span => do
    value operand
    emit .length span
  | e => throw (.placed (.expectedValue e.display) e.span)

/-- Appends the code of several values in order. -/
def values : List Expr → Gen Unit
  | [] => return ()
  | e :: es => do
    value e
    values es

/-- Greets the first input if the program has inputs, else the world. -/
def greeting (inputCount : Nat) (span : Span) : Gen Unit := do
  if inputCount > 0 then
    load (inputName 0) span
    emit .hello span
  else
    emit .helloWorld span

mutual

/-- Appends the code of a statement. An expression that is none generates nothing. -/
def statement (inputCount : Nat) : Expr → Gen Unit
  | .assign target source span => do
    value (.assign target source span)
    emit .pop span
  | .pop target span => do
    value (.pop target span)
    emit .pop span
  | .print args span => do
    values args
    let count ← word args.length "too many print arguments" span
    emit .print span
    emitWord count span
  | .hello span => greeting inputCount span
  | .exit code span => do
    emit .exit span
    emitByte code.toUInt32.toUInt8 span
  | .push e span => do
    value e
    emit .stackPush span
  | .clear span => emit .stackClear span
  | .loop condition thenBody elseBody span => do
    value condition
    let skipThen ← openJump span
    let start ← offset
    statements inputCount thenBody
    value condition
    let skipElse ← openJump span
    jumpBack start span
    closeJump skipThen span
    statements inputCount elseBody
    closeJump skipElse span
  | .comment .. | .nop _ | .unknown _ | .input .. | .var .. | .namedVar .. | .binary ..
  | .lengthOf .. => return ()

/-- Appends the code of statements in order. -/
def statements (inputCount : Nat) : List Expr → Gen Unit
  | [] => return ()
  | stmt :: stmts => do
    statement inputCount stmt
    statements inputCount stmts

end

/-- The place of the last statement. -/
def lastSpan (stmts : List Expr) : Span :=
  (stmts.getLast?.map Expr.span).getD Span.nowhere

/-- Appends the code of a program and takes the chunk, leaving an empty one. -/
def program (p : Program) : Gen Chunk := do
  statements p.inputCount p.statements
  emit .finish (lastSpan p.statements)
  modifyGet fun c => (c, Chunk.empty)

/-- The chunk of a program. -/
def compile (p : Program) : Except Error Chunk :=
  match program p Chunk.empty with
  | .ok chunk _ => .ok chunk
  | .error e _ => .error e

end Smil.Codegen
