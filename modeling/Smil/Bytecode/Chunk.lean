import Smil.Bytecode.Opcode
import Smil.Span

/-!
# Chunks of bytecode

A chunk is a run of bytes, the place in the source that each byte comes from, and the names that
its instructions refer to by index. Chunks are written at the end; the only change behind it is
to give a forward jump its distance.
-/

namespace Smil.Bytecode

/-- Bytes with their places, and a table of names. -/
structure Chunk where
  code : Array UInt8
  spans : Array Span
  names : Array String
deriving DecidableEq, Repr

namespace Chunk

/-- The chunk without code. -/
def empty : Chunk := ⟨#[], #[], #[]⟩

instance : Inhabited Chunk := ⟨empty⟩

/-- The number of bytes. -/
def size (c : Chunk) : Nat :=
  c.code.size

/-- Adds a byte. -/
def writeByte (c : Chunk) (b : UInt8) (span : Span) : Chunk :=
  { c with code := c.code.push b, spans := c.spans.push span }

/-- Adds an opcode. -/
def write (c : Chunk) (op : Opcode) (span : Span) : Chunk :=
  c.writeByte op.toByte span

/-- Adds two bytes, the high one first. -/
def writeWord (c : Chunk) (w : UInt16) (span : Span) : Chunk :=
  (c.writeByte (w >>> 8).toUInt8 span).writeByte w.toUInt8 span

/-- The index as two bytes, if it fits. -/
def word? (n : Nat) : Option UInt16 :=
  if n < 65536 then some (UInt16.ofNat n) else none

/-- The index of a name, which is added to the table unless it is there. There is none for a name
beyond the last that two bytes can address, although the table has grown by it. -/
def addName (c : Chunk) (name : String) : Option UInt16 × Chunk :=
  match c.names.idxOf? name with
  | some i => (word? i, c)
  | none => (word? c.names.size, { c with names := c.names.push name })

/-- The two bytes at an offset, if they are there. -/
def word (c : Chunk) (offset : Nat) : Option UInt16 :=
  match c.code[offset]?, c.code[offset + 1]? with
  | some high, some low => some (high.toUInt16 <<< 8 ||| low.toUInt16)
  | _, _ => none

/-- Overwrites the two bytes at an offset. -/
def setWord (c : Chunk) (offset : Nat) (w : UInt16) : Chunk :=
  let code := c.code.setIfInBounds offset (w >>> 8).toUInt8
  { c with code := code.setIfInBounds (offset + 1) w.toUInt8 }

/-- Points the jump whose distance stands at `offset` to the end of the chunk. The answer is whether
the distance fits into two bytes; if not, the chunk stays as it was. -/
def patchJump (c : Chunk) (offset : Nat) : Bool × Chunk :=
  if offset + 2 ≤ c.size ∧ c.size - offset - 2 < 65536 then
    (true, c.setWord offset (UInt16.ofNat (c.size - offset - 2)))
  else
    (false, c)

end Chunk

end Smil.Bytecode
