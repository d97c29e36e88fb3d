import Smil.Expr.Display
import Smil.Proofs.Memory

/-!
# Evaluation of trees

The meaning of a program without bytecode. A value evaluates to the handle of an object, and
statements act on the memory. Evaluation stops early at an exit or at the first error, which is
placed at the node that raised it.

Loops may run forever, so evaluation has a fuel: the number of rounds that each loop may take. An
evaluation that needs more is unfinished.
-/

namespace Smil.Eval

/-- Why an evaluation stopped before its end. -/
inductive Halt where
  /-- An exit with a status. -/
  | exit (code : UInt8)
  /-- An error of the program. -/
  | failed (e : Error)
  /-- A loop that takes more rounds than there is fuel for. -/
  | unfinished
deriving DecidableEq, Repr, Inhabited

/-- An evaluation acts on the memory and may stop early. -/
abbrev Evaluation := EStateM Halt Memory

/-- Stops with an error at a place. -/
def fail {α : Type} (cause : Cause) (span : Span) : Evaluation α :=
  throw (.failed (.placed cause span))

/-- The object behind a handle, as it is now. -/
def object (h : Handle) : Evaluation Value :=
  return (← get).object h

/-- The handle of a variable, which is created as the integer zero on first use. -/
def variableHandle (name : String) : Evaluation Handle :=
  modifyGet (Memory.variableHandle name)

/-- Creates an object. -/
def create (v : Value) : Evaluation Handle :=
  modifyGet (Memory.create v)

/-- What an assignment stores: with one inverted side, whether the value is not truthy; with two,
whether it is; and otherwise the value. -/
def assigned (targetInverted sourceInverted : Bool) (v : Value) : Value :=
  match targetInverted, sourceInverted with
  | false, false => v
  | true, true => .ofBool v.isTruthy
  | _, _ => .ofBool (!v.isTruthy)

/-- Pops the evaluation stack into a variable, which then is the popped object. -/
def popInto (name : String) (span : Span) : Evaluation Handle := do
  match ← modifyGet Memory.pop with
  | none => fail .stackUnderflow span
  | some h =>
    modify (Memory.rebind name h)
    return h

/-- Writes a line. -/
def writeLine (line : String) (span : Span) : Evaluation Unit := do
  if ← modifyGet (Memory.writeLine line) then return ()
  else fail (.output Sink.fullDetail) span

/-- Evaluates a value to the handle of its object. -/
def value : Expr → Evaluation Handle
  | .input index _ => variableHandle (inputName index)
  | .var name _ _ => variableHandle name
  | .namedVar name _ => do
    let h ← value name
    variableHandle (← object h).toText
  | .assign target source _ => do
    let s ← value source
    let t ← value target
    let v ← object s
    modify (Memory.store t (assigned target.isInverted source.isInverted v))
    return t
  | .binary left op right span => do
    let l ← value left
    let r ← value right
    match Value.operate op (← object l) (← object r) with
    | .ok v => create v
    | .error cause => fail cause span
  | .pop (.var name _ _) span => popInto name span
  | .pop (.namedVar name _) span => do
    let h ← value name
    popInto (← object h).toText span
  | .lengthOf operand _ => do
    let h ← value operand
    create (.integer (Int64.ofNat (← object h).length))
  | e => fail (.expectedValue e.display) e.span

/-- Evaluates values in order. -/
def values : List Expr → Evaluation (List Handle)
  | [] => return []
  | e :: es => do
    let h ← value e
    return h :: (← values es)

/-- Whether the integer of a value is positive. -/
def isPositive (e : Expr) : Evaluation Bool := do
  let h ← value e
  return 0 < (← object h).toInteger

/-- Runs `body`, and again for as long as `condition` holds after it. -/
def repeatWhile (condition : Evaluation Bool) (body : Evaluation Unit) : Nat → Evaluation Unit
  | 0 => throw .unfinished
  | fuel + 1 => do
    body
    if ← condition then repeatWhile condition body fuel else return ()

mutual

/-- Carries out a statement. What is no statement does nothing. -/
def statement (inputCount fuel : Nat) : Expr → Evaluation Unit
  | .assign target source span => discard (value (.assign target source span))
  | .pop target span => discard (value (.pop target span))
  | .print args span => do
    let handles ← values args
    let m ← get
    writeLine (" ".intercalate (handles.map fun h => (m.object h).toText)) span
  | .hello span =>
    if inputCount > 0 then do
      let h ← variableHandle (inputName 0)
      writeLine ("Hello, " ++ (← object h).toText ++ "!") span
    else
      writeLine "Hello, world!" span
  | .exit code _ => throw (.exit code.toUInt32.toUInt8)
  | .push e _ => do
    let h ← value e
    modify (Memory.push h)
  | .clear _ => modify Memory.clear
  | .loop condition thenBody elseBody _ => do
    if ← isPositive condition then
      repeatWhile (isPositive condition) (statements inputCount fuel thenBody) fuel
    else
      statements inputCount fuel elseBody
  | .comment .. | .nop _ | .unknown _ | .input .. | .var .. | .namedVar .. | .binary ..
  | .lengthOf .. => return ()

/-- Carries out statements in order. -/
def statements (inputCount fuel : Nat) : List Expr → Evaluation Unit
  | [] => return ()
  | stmt :: stmts => do
    statement inputCount fuel stmt
    statements inputCount fuel stmts

end

/-- The result of a program that came to its end or to an exit: the output is flushed. -/
def flushed (m : Memory) (c : Completion) : Except Error Completion × Memory :=
  if m.out.flushFails then (.error (.unplaced (.output Sink.flushDetail)), m) else (.ok c, m)

/-- Evaluates a program. There is no result if the fuel does not suffice. -/
def program (fuel : Nat) (p : Program) (m : Memory) :
    Option (Except Error Completion × Memory) :=
  match statements p.inputCount fuel p.statements m with
  | .ok () m => some (flushed m .finished)
  | .error (.exit code) m => some (flushed m (.exit code))
  | .error (.failed e) m => some (.error e, m)
  | .error .unfinished _ => none

end Smil.Eval
