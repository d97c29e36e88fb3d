/-!
# Places in a source

A position counts what has been read: bytes of UTF-8, lines from one, and columns in characters
from one. A span is a range of bytes with the line and column of its start.
-/

namespace Smil

/-- A range of bytes in a source, with the line and column at which it starts. -/
structure Span where
  start : Nat
  stop : Nat
  line : Nat
  column : Nat
deriving DecidableEq, Repr, Inhabited

/-- The span of code that stands nowhere in a source. -/
def Span.nowhere : Span := ⟨0, 0, 0, 0⟩

/-- How far a source has been read. -/
structure Position where
  offset : Nat
  line : Nat
  column : Nat
deriving DecidableEq, Repr, Inhabited

namespace Position

/-- The start of a source. -/
def start : Position := ⟨0, 1, 1⟩

/-- The position after one more character. -/
def after (p : Position) (c : Char) : Position :=
  if c = '\n' then ⟨p.offset + c.utf8Size, p.line + 1, 1⟩
  else ⟨p.offset + c.utf8Size, p.line, p.column + 1⟩

/-- The position after a run of characters. -/
def afterAll (p : Position) (cs : List Char) : Position :=
  cs.foldl after p

/-- The span from one position to a later one. -/
def spanTo (p q : Position) : Span :=
  ⟨p.offset, q.offset, p.line, p.column⟩

end Position

end Smil
