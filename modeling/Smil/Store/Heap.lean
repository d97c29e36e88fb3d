import Smil.Value.Basic

/-!
# The heap

Every object that a program creates has a place of its own and keeps it. Variables and stack
slots hold handles, so storing through a handle is seen wherever the handle is held.
-/

namespace Smil

/-- A place on the heap. -/
structure Handle where
  index : Nat
deriving DecidableEq, Repr, Inhabited

/-- The objects in the order of their creation. -/
structure Heap where
  objects : Array Value
deriving Repr

namespace Heap

/-- The heap without objects. -/
def empty : Heap := ⟨#[]⟩

instance : Inhabited Heap := ⟨empty⟩

/-- The number of objects. -/
def size (heap : Heap) : Nat :=
  heap.objects.size

/-- Whether a handle belongs to an object. -/
def contains (heap : Heap) (h : Handle) : Bool :=
  h.index < heap.size

/-- Creates an object. -/
def alloc (heap : Heap) (v : Value) : Handle × Heap :=
  (⟨heap.size⟩, ⟨heap.objects.push v⟩)

/-- The object behind a handle. -/
def get? (heap : Heap) (h : Handle) : Option Value :=
  heap.objects[h.index]?

/-- Overwrites the object behind a handle; without such an object nothing changes. -/
def set (heap : Heap) (h : Handle) (v : Value) : Heap :=
  ⟨heap.objects.setIfInBounds h.index v⟩

end Heap

end Smil
