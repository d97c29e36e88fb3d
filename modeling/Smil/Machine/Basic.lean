import Smil.Machine.Fault
import Smil.Machine.Sink
import Smil.Sigil
import Smil.Store.Heap
import Smil.Store.Stack
import Smil.Store.Table

/-!
# The machine

The operand stack holds handles of objects on the heap. Variables are handles too, so an
assignment overwrites the object that a name refers to; only a pop makes a name refer to another
object. Heap, names, evaluation stack and output outlive a run.
-/

namespace Smil

/-- The state of the machine; the operand stack has its top first. -/
structure Machine where
  operands : List Handle
  heap : Heap
  symbols : Table Handle
  stack : Stack Handle
  out : Sink
deriving Inhabited

/-- An action on the machine, which may fail. -/
abbrev Action := EStateM Cause Machine

namespace Machine

/-- A machine without objects that writes to `out`. -/
def new (out : Sink) : Machine :=
  ⟨[], .empty, .empty, .empty, out⟩

/-- A machine without objects on the same output. -/
def reset (m : Machine) : Machine :=
  new m.out

/-- Takes what has been written. -/
def drain (m : Machine) : String × Machine :=
  let (bytes, out) := m.out.drain
  (Text.ofUtf8 bytes, { m with out })

/-- The handle of a variable, which is created as the integer zero on first use. -/
def variableHandle (name : String) (m : Machine) : Handle × Machine :=
  let (h, heap, symbols) :=
    m.symbols.getOrInsert name (fun heap => heap.alloc (.integer 0)) m.heap
  (h, { m with heap, symbols })

/-- The value of a variable, if it exists. -/
def valueOf (m : Machine) (name : String) : Option Value :=
  (m.symbols.lookup name).bind m.heap.get?

/-- Stores arguments in the input variables from `index` on. -/
def bindFrom : Nat → List String → Machine → Machine
  | _, [], m => m
  | index, arg :: args, m =>
    let (h, m) := m.variableHandle (inputName index)
    bindFrom (index + 1) args { m with heap := m.heap.set h (.ofInput arg) }

/-- Binds the arguments of a program that needs `required` of them. -/
def bindInputs (required : Nat) (inputs : List String) (m : Machine) : Except Error Machine :=
  if inputs.length < required then .error (.unplaced (.missingInputs required inputs.length))
  else .ok (m.bindFrom 0 inputs)

/-- Stops with a fault. -/
def fault {α : Type} (f : Fault) : Action α :=
  throw f.cause

/-- Pushes a handle onto the operand stack. -/
def push (h : Handle) : Action Unit :=
  modify fun m => { m with operands := h :: m.operands }

/-- Pops a handle from the operand stack. -/
def pop : Action Handle := do
  match (← get).operands with
  | [] => fault .operandUnderflow
  | h :: rest =>
    modify fun m => { m with operands := rest }
    return h

/-- Pops the last `count` operands; they come in the order in which they were pushed. -/
def popMany (count : Nat) : Action (List Handle) := do
  let operands := (← get).operands
  if operands.length < count then
    fault .missingArguments
  else
    modify fun m => { m with operands := operands.drop count }
    return (operands.take count).reverse

/-- The object behind a handle. -/
def read (h : Handle) : Action Value := do
  match (← get).heap.get? h with
  | some v => return v
  | none => fault (.danglingHandle h.index)

/-- Overwrites the object behind a handle. -/
def store (h : Handle) (v : Value) : Action Unit := do
  if (← get).heap.contains h then
    modify fun m => { m with heap := m.heap.set h v }
  else
    fault (.danglingHandle h.index)

/-- Creates an object and pushes its handle. -/
def create (v : Value) : Action Unit :=
  modify fun m =>
    let (h, heap) := m.heap.alloc v
    { m with heap, operands := h :: m.operands }

/-- Pushes the handle of a variable. -/
def load (name : String) : Action Unit := do
  let h ← modifyGet (variableHandle name)
  push h

/-- Pops an object and yields its text. -/
def popText : Action String := do
  return (← read (← pop)).toText

/-- Pops the evaluation stack. -/
def popStack : Action Handle := do
  match ← modifyGet fun m => (m.stack.pop.1, { m with stack := m.stack.pop.2 }) with
  | some h => return h
  | none => throw .stackUnderflow

/-- Makes a name refer to an object, and pushes the object's handle. -/
def rebind (name : String) (h : Handle) : Action Unit := do
  modify fun m =>
    match m.symbols.update name h with
    | (some _, symbols) => { m with symbols }
    | (none, symbols) =>
      let (_, _, symbols) := symbols.getOrInsert name (fun u => (h, u)) ()
      { m with symbols }
  push h

/-- Writes a line. -/
def writeLine (line : String) : Action Unit := do
  let ok ← modifyGet fun m =>
    let (ok, out) := m.out.write (line ++ "\n").toUTF8
    (ok, { m with out })
  if ok then return () else throw (.output Sink.fullDetail)

end Machine

end Smil
