import Smil.Text.Blank

/-!
# Decimal numerals

Integers are written in decimal and read back in two ways. The exact reader accepts a whole
numeral in the signed 64-bit range and nothing else. The leading reader takes the digits that a
text starts with, stops at the first other character and saturates at the largest integer.
Both cap the value while they read, so a long run of digits costs no more than its length.
-/

namespace Smil.Text

/-- The largest signed 64-bit integer. -/
def maxInt64 : Nat := 0x7FFF_FFFF_FFFF_FFFF

/-- The decimal text of an integer, with a minus sign in front of a negative one. -/
def decimal (n : Int) : String :=
  if n < 0 then "-" ++ Nat.repr n.natAbs else Nat.repr n.natAbs

/-- The ten decimal digits of ASCII. -/
def isDigit (c : Char) : Bool :=
  '0' ≤ c && c ≤ '9'

/-- The number a digit stands for. -/
def digitValue (c : Char) : Nat :=
  c.toNat - '0'.toNat

/-- The value of a run of digits, cut at `cap`. -/
def valueUpTo (cap : Nat) (digits : List Char) : Nat :=
  digits.foldl (fun value d => min cap (10 * value + digitValue d)) 0

/-- Splits one sign off the front: whether it was a minus, and what follows. -/
def splitSign : List Char → Bool × List Char
  | '-' :: rest => (true, rest)
  | '+' :: rest => (false, rest)
  | cs => (false, cs)

/-- Reads a whole numeral: an optional sign, then one digit or more. The value has to lie in the
signed 64-bit range. -/
def readInt64? (cs : List Char) : Option Int64 :=
  let (negative, digits) := splitSign cs
  if digits.isEmpty || !digits.all isDigit then
    none
  else
    let value := valueUpTo (maxInt64 + 2) digits
    if negative then
      if value ≤ maxInt64 + 1 then some (Int64.ofInt (-(value : Int))) else none
    else
      if value ≤ maxInt64 then some (Int64.ofNat value) else none

/-- Reads the integer that a text starts with after white space and an optional sign. Without
digits it is zero, and a value beyond the largest integer becomes the largest integer before
the sign is applied. -/
def leadingInt64 (cs : List Char) : Int64 :=
  let (negative, rest) := splitSign (trimStart cs)
  let value := Int64.ofNat (valueUpTo maxInt64 (rest.takeWhile isDigit))
  if negative then -value else value

end Smil.Text
