/-!
# The evaluation stack

The stack of the language's push and pop. It grows by a fixed number of slots and never shrinks:
popping and clearing only move the top, so slots above it may hold old values.
-/

namespace Smil

/-- By how many slots a full stack grows. -/
def stackGrowth : Nat := 16

/-- Slots, of which those below `top` are in use. -/
structure Stack (α : Type) where
  slots : Array (Option α)
  top : Nat
deriving Repr

namespace Stack

variable {α : Type}

/-- The empty stack. -/
def empty : Stack α := ⟨Array.replicate stackGrowth none, 0⟩

instance : Inhabited (Stack α) := ⟨empty⟩

/-- The number of values. -/
def size (s : Stack α) : Nat :=
  s.top

/-- Whether there is no value. -/
def isEmpty (s : Stack α) : Bool :=
  s.top == 0

/-- The number of slots. -/
def capacity (s : Stack α) : Nat :=
  s.slots.size

/-- The slots with room for one more value. -/
def grown (slots : Array (Option α)) (top : Nat) : Array (Option α) :=
  if top = slots.size then slots ++ Array.replicate stackGrowth none else slots

/-- Adds a value on top. -/
def push (s : Stack α) (a : α) : Stack α :=
  ⟨(grown s.slots s.top).setIfInBounds s.top (some a), s.top + 1⟩

/-- Takes the value on top. The top is lowered before its slot is looked at, also if the slot turns
out to be empty. -/
def pop (s : Stack α) : Option α × Stack α :=
  match s.top with
  | 0 => (none, s)
  | top + 1 => (s.slots[top]?.join, ⟨s.slots, top⟩)

/-- The value on top and the stack without it, if there is such a value. -/
def pop? (s : Stack α) : Option (α × Stack α) :=
  s.pop.1.map fun a => (a, s.pop.2)

/-- Takes all values off and keeps the slots. -/
def clear (s : Stack α) : Stack α :=
  { s with top := 0 }

/-- The values from bottom to top. -/
def toList (s : Stack α) : List α :=
  (s.slots.toList.take s.top).filterMap id

end Stack

end Smil
