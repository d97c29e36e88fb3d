import Smil.Text.Blank
import Smil.Token

/-!
# Reading a source

A cursor is what is left of a source together with the position reached. Tokens are cut off one
at a time, because names and comments are read as plain characters in between. Cutting never
fails: it yields an unknown token for two characters that are no sigil, and an empty token that
consumes nothing where fewer than two characters are left.
-/

namespace Smil

/-- The unread rest of a source and the position at which it starts. -/
structure Cursor where
  rest : List Char
  position : Position
deriving Repr, Inhabited

namespace Cursor

/-- The cursor at the start of a source. -/
def ofString (source : String) : Cursor :=
  ⟨source.toList, Position.start⟩

/-- The empty span at the next unread character. -/
def here (c : Cursor) : Span :=
  c.position.spanTo c.position

/-- Reads characters up to the first that fails `p`. -/
def skipWhile (p : Char → Bool) (c : Cursor) : Cursor :=
  let passed := c.rest.takeWhile p
  ⟨c.rest.dropWhile p, c.position.afterAll passed⟩

/-- Reads `n` characters, or all if there are fewer. -/
def skip (n : Nat) (c : Cursor) : Cursor :=
  ⟨c.rest.drop n, c.position.afterAll (c.rest.take n)⟩

/-- Reads one character. -/
def next? (c : Cursor) : Option (Char × Cursor) :=
  match c.rest with
  | [] => none
  | ch :: rest => some (ch, ⟨rest, c.position.after ch⟩)

/-- The white space between tokens. -/
def isGap (c : Char) : Bool :=
  c == ' ' || c == '\t' || c == '\r' || c == '\n'

/-- Cuts off the next `n` characters as a token. -/
def cut (n : Nat) (kind : Token.Kind) (c : Cursor) : Token × Cursor :=
  let after := c.skip n
  (⟨kind, String.ofList (c.rest.take n), c.position.spanTo after.position⟩, after)

/-- The kind of two characters. -/
def pairKind (a b : Char) : Token.Kind :=
  match Sigil.ofPair? a b with
  | some s => .sigil s
  | none => .unknown

/-- The token that starts right at the cursor. -/
def scan (c : Cursor) : Token × Cursor :=
  match c.rest with
  | '<' :: '/' :: '3' :: _ => c.cut 3 (.sigil .programEnd)
  | a :: b :: _ => c.cut 2 (pairKind a b)
  | _ => (⟨.endOfInput, "", c.here⟩, c)

/-- The next token, after any white space. -/
def token (c : Cursor) : Token × Cursor :=
  (c.skipWhile isGap).scan

/-- The next token, without reading it. -/
def peek (c : Cursor) : Token :=
  c.token.1

/-- Reads the rest of the line and its newline, which is not part of the result. -/
def readLine (c : Cursor) : String × Cursor :=
  let line := c.rest.takeWhile (· != '\n')
  let c := c.skip (line.length + 1)
  (String.ofList line, c)

end Cursor

end Smil
