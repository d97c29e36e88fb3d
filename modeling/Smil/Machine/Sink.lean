import Smil.Text.Utf8

/-!
# Output sinks

A sink takes the bytes that a program writes. It may have room for a limited number of bytes: a
longer write is cut there and fails. Failing at a flush loses nothing.
-/

namespace Smil

/-- Bytes written and not yet taken, the room that is left (`none` if it is not limited), and
whether flushing fails. -/
structure Sink where
  written : ByteArray
  room : Option Nat
  flushFails : Bool

namespace Sink

/-- A sink that takes everything. -/
def unlimited : Sink := ⟨.empty, none, false⟩

instance : Inhabited Sink := ⟨unlimited⟩

/-- A sink for `limit` bytes in all. -/
def limited (limit : Nat) : Sink := ⟨.empty, some limit, false⟩

/-- Why a write fails. -/
def fullDetail : String := "sink is full"

/-- Why a flush fails. -/
def flushDetail : String := "flush failed"

/-- Writes bytes as far as there is room. The answer is whether all were written. -/
def write (s : Sink) (bytes : ByteArray) : Bool × Sink :=
  match s.room with
  | none => (true, { s with written := s.written ++ bytes })
  | some room =>
    if bytes.size ≤ room then
      (true, { s with written := s.written ++ bytes, room := some (room - bytes.size) })
    else
      (false, { s with written := s.written ++ bytes.extract 0 room, room := some 0 })

/-- Takes what has been written. -/
def drain (s : Sink) : ByteArray × Sink :=
  (s.written, { s with written := .empty })

end Sink

end Smil
