import Smil.Text.Cluster

/-!
# Backspaces

A backspace in a line takes back the cluster before it that has not been taken back yet, and
nothing if there is none. The size of a cluster is remembered in a single byte, so a cluster of
256 bytes or more loses only what that byte counts.
-/

namespace Smil.Text

/-- The backspace character. -/
def backspace : Char := '\x08'

/-- A line while it is read: its characters in reverse, and the size of each cluster that can be
taken back, the last one first. -/
structure Draft where
  chars : List Char
  sizes : List UInt8
deriving Inhabited

/-- Drops `n` bytes from the front of the characters; a character that is not covered whole is
kept. -/
def dropBytes : Nat → List Char → List Char
  | _, [] => []
  | n, c :: cs => if c.utf8Size ≤ n then dropBytes (n - c.utf8Size) cs else c :: cs

namespace Draft

/-- The line before anything is read. -/
def empty : Draft :=
  ⟨[], []⟩

/-- Takes back the last cluster. -/
def takeBack (d : Draft) : Draft :=
  match d.sizes with
  | [] => d
  | n :: sizes => ⟨dropBytes n.toNat d.chars, sizes⟩

/-- Adds a cluster. -/
def add (d : Draft) (cluster : List Char) : Draft :=
  ⟨cluster.reverse ++ d.chars, (String.ofList cluster).utf8ByteSize.toUInt8 :: d.sizes⟩

/-- Reads a cluster, which may be a backspace. -/
def read (d : Draft) (cluster : List Char) : Draft :=
  if cluster = [backspace] then d.takeBack else d.add cluster

end Draft

/-- A line after its backspaces have been carried out. -/
def applyBackspaces (line : String) : String :=
  String.ofList ((clusters line.toList).foldl Draft.read Draft.empty).chars.reverse

end Smil.Text
