/-!
# Lines of a text

A line ends at a newline, which is not part of it, and neither is one carriage return right
before that newline. Text after the last newline is a line of its own unless it is empty.
-/

namespace Smil.Text

/-- Drops one carriage return from the front of a line that is held in reverse. -/
def dropReturn : List Char → List Char
  | '\r' :: line => line
  | line => line

/-- Splits the characters into lines. `line` is the unfinished line and `done` the finished ones,
both in reverse. -/
def linesFrom : List Char → List Char → List (List Char) → List (List Char)
  | [], [], done => done.reverse
  | [], line, done => (line.reverse :: done).reverse
  | c :: rest, line, done =>
    if c = '\n' then
      linesFrom rest [] ((dropReturn line).reverse :: done)
    else
      linesFrom rest (c :: line) done

/-- The lines of a text. -/
def lines (s : String) : List String :=
  (linesFrom s.toList [] []).map String.ofList

end Smil.Text
