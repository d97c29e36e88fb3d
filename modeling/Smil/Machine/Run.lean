import Smil.Machine.Basic
import Smil.Machine.Instruction
import Smil.Value.Operate

/-!
# Running bytecode

A step reads an instruction and carries it out. A run repeats steps until the program finishes,
exits or fails; since programs may loop forever, it takes a budget of steps and has no result
when the budget is used up. An error is placed at the source of the instruction that raised it.
-/

namespace Smil

open Bytecode

/-- How a run ended: at the end of the program or at an exit with a status. -/
inductive Completion where
  | finished
  | exit (code : UInt8)
deriving DecidableEq, Repr, Inhabited

namespace Machine

/-- What follows an instruction: the next one, or the end. -/
inductive Progress where
  | goto (ip : Nat)
  | stop (c : Completion)
deriving DecidableEq, Repr, Inhabited

/-- The object that an assignment stores. -/
def stored (mode : AssignMode) (v : Value) : Value :=
  match mode with
  | .copy => v
  | .truthy => .ofBool v.isTruthy
  | .negated => .ofBool (!v.isTruthy)

/-- Pops two objects and pushes the result of an operator. -/
def operate (op : Operator) : Action Unit := do
  let b ← pop
  let a ← pop
  match Value.operate op (← read a) (← read b) with
  | .ok v => create v
  | .error cause => throw cause

/-- Pops the target and the value of an assignment, stores and pushes the target. -/
def assign (mode : AssignMode) : Action Unit := do
  let target ← pop
  let source ← pop
  let v ← read source
  store target (stored mode v)
  push target

/-- Prints the last `count` operands on one line. -/
def print (count : Nat) : Action Unit := do
  let args ← popMany count
  let values ← args.mapM read
  writeLine (" ".intercalate (values.map Value.toText))

/-- Carries out an instruction; `next` is the offset behind it. -/
def execute (i : Instruction) (next : Nat) : Action Progress :=
  match i with
  | .load name => do
    load name
    return .goto next
  | .loadNamed => do
    load (← popText)
    return .goto next
  | .assign mode => do
    assign mode
    return .goto next
  | .binary op => do
    operate op
    return .goto next
  | .length => do
    let v ← read (← pop)
    create (.integer (Int64.ofNat v.length))
    return .goto next
  | .print count => do
    print count
    return .goto next
  | .hello => do
    let name ← popText
    writeLine ("Hello, " ++ name ++ "!")
    return .goto next
  | .helloWorld => do
    writeLine "Hello, world!"
    return .goto next
  | .stackPush => do
    let h ← pop
    modify fun m => { m with stack := m.stack.push h }
    return .goto next
  | .stackPop name => do
    rebind name (← popStack)
    return .goto next
  | .stackPopNamed => do
    let name ← popText
    rebind name (← popStack)
    return .goto next
  | .stackClear => do
    modify fun m => { m with stack := m.stack.clear }
    return .goto next
  | .pop => do
    discard pop
    return .goto next
  | .jumpIfNotPositive distance => do
    let v ← read (← pop)
    return .goto (if v.toInteger ≤ 0 then next + distance else next)
  | .loop distance =>
    if distance ≤ next then return .goto (next - distance) else fault .jumpBeforeStart
  | .exit code => return .stop (.exit code)
  | .finish => return .stop .finished

/-- Reads and carries out the instruction at `ip`. -/
def step (chunk : Chunk) (ip : Nat) : Action Progress :=
  match Instruction.fetch chunk ip with
  | .ok (i, next) => execute i next
  | .error f => fault f

/-- Repeats steps from `ip` on. -/
def runFrom (chunk : Chunk) : Nat → Nat → Machine → Option (Except Error Completion × Machine)
  | 0, _, _ => none
  | budget + 1, ip, m =>
    match step chunk ip m with
    | .ok (.goto ip) m => runFrom chunk budget ip m
    | .ok (.stop c) m => some (.ok c, m)
    | .error cause m => some (.error ⟨cause, chunk.spans[ip]?, none⟩, m)

/-- A failing flush turns a completed run into an error; an error of the run itself stands. -/
def flushed (m : Machine) : Except Error Completion → Except Error Completion
  | .ok c => if m.out.flushFails then .error (.unplaced (.output Sink.flushDetail)) else .ok c
  | .error e => .error e

/-- Runs a chunk from its start on an empty operand stack. -/
def run (budget : Nat) (chunk : Chunk) (m : Machine) :
    Option (Except Error Completion × Machine) :=
  match runFrom chunk budget 0 { m with operands := [] } with
  | some (result, m) => some (m.flushed result, m)
  | none => none

end Machine

end Smil
