/-!
# Reading bytes as text

Output is a sequence of bytes and a full sink may cut it inside a character. Reading such bytes
writes the replacement character once for each longest ill-formed piece: either a start of a
character that breaks off, or a single byte that starts none.
-/

namespace Smil.Text

/-- Stands for an ill-formed piece. -/
def replacement : Char := '�'

/-- How many continuation bytes follow a leading byte, and the range of the first of them. The
ranges leave out overlong forms, surrogates and code points beyond the last plane. -/
def continuation? (b : UInt8) : Option (Nat × UInt8 × UInt8) :=
  if 0xC2 ≤ b && b ≤ 0xDF then some (1, 0x80, 0xBF)
  else if b == 0xE0 then some (2, 0xA0, 0xBF)
  else if b == 0xED then some (2, 0x80, 0x9F)
  else if 0xE1 ≤ b && b ≤ 0xEF then some (2, 0x80, 0xBF)
  else if b == 0xF0 then some (3, 0x90, 0xBF)
  else if b == 0xF4 then some (3, 0x80, 0x8F)
  else if 0xF1 ≤ b && b ≤ 0xF3 then some (3, 0x80, 0xBF)
  else none

/-- The bits that a leading byte contributes when `n` bytes follow it. -/
def leadingBits (n : Nat) (b : UInt8) : Nat :=
  b.toNat % (1 <<< (6 - n))

/-- A character of which some bytes have been read: `code` so far, `missing` bytes to come, the
next of them between `low` and `high`. -/
structure Unfinished where
  code : Nat
  missing : Nat
  low : UInt8
  high : UInt8

/-- Starts a character at byte `b`, or replaces the byte. -/
def startChar (text : String) (b : UInt8) : String × Option Unfinished :=
  if b < 0x80 then
    (text.push (Char.ofNat b.toNat), none)
  else
    match continuation? b with
    | some (n, low, high) => (text, some ⟨leadingBits n b, n, low, high⟩)
    | none => (text.push replacement, none)

/-- Takes one more byte into the text read so far. -/
def readByte : String × Option Unfinished → UInt8 → String × Option Unfinished
  | (text, none), b => startChar text b
  | (text, some u), b =>
    if u.low ≤ b && b ≤ u.high then
      let code := u.code * 64 + b.toNat % 64
      if u.missing ≤ 1 then (text.push (Char.ofNat code), none)
      else (text, some ⟨code, u.missing - 1, 0x80, 0xBF⟩)
    else
      startChar (text.push replacement) b

/-- Reads bytes that need not be well-formed. -/
def patchUtf8 (bytes : ByteArray) : String :=
  match bytes.foldl readByte ("", none) with
  | (text, none) => text
  | (text, some _) => text.push replacement

/-- Reads bytes as UTF-8 and replaces what is ill-formed. -/
def ofUtf8 (bytes : ByteArray) : String :=
  match String.fromUTF8? bytes with
  | some text => text
  | none => patchUtf8 bytes

end Smil.Text
