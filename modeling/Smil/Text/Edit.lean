/-!
# Editing texts

Lengths and cuts count characters. A count that comes from the program is a signed 64-bit
integer; a cut below zero keeps nothing and one beyond the end keeps everything.
-/

namespace Smil.Text

/-- The first `n` characters. -/
def keep (s : String) (n : Nat) : String :=
  (s.take n).copy

/-- Removes the occurrences of `pattern` from left to right. `skip` characters of an occurrence
already found are still to be passed over, and `kept` holds in reverse what stays. -/
def removeFrom (pattern : List Char) : Nat → List Char → List Char → List Char
  | _, [], kept => kept.reverse
  | skip + 1, _ :: rest, kept => removeFrom pattern skip rest kept
  | 0, c :: rest, kept =>
    if pattern.isPrefixOf (c :: rest) then
      removeFrom pattern (pattern.length - 1) rest kept
    else
      removeFrom pattern 0 rest (c :: kept)

/-- Removes every occurrence of `pattern` that does not overlap an earlier one. An empty pattern
removes nothing. -/
def removeAll (s pattern : String) : String :=
  if pattern.isEmpty then s
  else String.ofList (removeFrom pattern.toList 0 s.toList [])

/-- Keeps the first `length - n` characters. -/
def dropTail (s : String) (n : Int64) : String :=
  keep s (Int64.ofIntClamp (s.length - n.toInt)).toNatClampNeg

/-- `n` copies, built by doubling. -/
def replicate (s : String) (n : Nat) : String :=
  if n = 0 then ""
  else
    let half := replicate s (n / 2)
    if n % 2 = 0 then half ++ half else half ++ half ++ s
termination_by n

/-- Keeps the first `length / n` characters, the quotient being cut toward zero. -/
def fraction (s : String) (n : Int64) : String :=
  keep s (Int64.ofNat s.length / n).toNatClampNeg

/-- Moves `n` characters from the front to the end, `n` being taken modulo the length. A negative
count moves characters from the end to the front. -/
def rotateLeft (s : String) (n : Int64) : String :=
  let offset := (n.toInt % (s.length : Int)).toNat
  (s.drop offset).copy ++ keep s offset

end Smil.Text
