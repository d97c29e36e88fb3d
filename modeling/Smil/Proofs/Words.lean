import Smil.Text.Decimal

/-!
# Steps in machine words

A machine has sizes in unsigned 64-bit words, counts in signed ones and texts in bytes, and some of
its steps are not defined everywhere: a sum of sizes may be no word, a divisor may be zero, the
quotient of the least integer by minus one is out of range, a range to stay within may be empty, an
index may be beyond the end, and there may be no room for a text. Where such a step is not defined
the machine stops.

What the machine computes is written once more in these steps wherever it matters that all of them
are defined.
-/

namespace Smil

namespace Word

/-! ### Sizes -/

/-- The sum of two sizes, if it is a word. -/
def sum (m n : Nat) : Option Nat :=
  if m + n < 1 <<< 64 then some (m + n) else none

/-- The product of two sizes, if it is a word. -/
def product (m n : Nat) : Option Nat :=
  if m * n < 1 <<< 64 then some (m * n) else none

/-- The difference of two sizes, if it is not negative. -/
def sizeDifference (m n : Nat) : Option Nat :=
  if n ≤ m then some (m - n) else none

/-- The remainder of two sizes, if the divisor is not zero. -/
def sizeRemainder (m n : Nat) : Option Nat :=
  if n = 0 then none else some (m % n)

/-! ### Integers -/

/-- A divisor, if it is not zero. -/
def divisor (n : Int64) : Option Int64 :=
  if n = 0 then none else some n

/-- The quotient of two integers, if there is one and it is in range. -/
def quotient (m n : Int64) : Option Int64 := do
  let n ← divisor n
  if m = Int64.minValue ∧ n = -1 then none else some (m / n)

/-- The remainder that is not negative, if the quotient exists. -/
def remainder (m n : Int64) : Option Int64 := do
  let n ← divisor n
  if m = Int64.minValue ∧ n = -1 then none else some (Int64.ofInt (m.toInt % n.toInt))

/-- The integer from `low` to `high` that is nearest to `n`, if there is any. -/
def clamp (low high n : Int64) : Option Int64 :=
  if high < low then none
  else some (if n < low then low else if high < n then high else n)

/-- The opposite of an integer, if it is in range. -/
def opposite (n : Int64) : Option Int64 :=
  if n = Int64.minValue then none else some (-n)

/-- The product of two integers, or the end of the range that it lies beyond. -/
def saturatingProduct (m n : Int64) : Int64 :=
  Int64.ofIntClamp (m.toInt * n.toInt)

/-- The sum of two integers, or the end of the range that it lies beyond. -/
def saturatingSum (m n : Int64) : Int64 :=
  Int64.ofIntClamp (m.toInt + n.toInt)

/-- A natural number in range is not wrapped. -/
theorem toInt_ofNat_of_le {n : Nat} (h : n ≤ Text.maxInt64) : (Int64.ofNat n).toInt = n := by
  unfold Text.maxInt64 at h
  exact Int64.toInt_ofNat_of_lt (by omega)

/-- A natural number is not the least integer, which is negative. -/
theorem ofNat_ne_minValue {n : Nat} (h : n ≤ Text.maxInt64) : Int64.ofNat n ≠ Int64.minValue := by
  rw [ne_eq, ← Int64.toInt_inj, toInt_ofNat_of_le h, Int64.toInt_minValue]
  omega

/-- A sum in range is not wrapped. -/
theorem toInt_add_of_range {a b : Int64} (hlow : Int64.minValue.toInt ≤ a.toInt + b.toInt)
    (hhigh : a.toInt + b.toInt ≤ Int64.maxValue.toInt) : (a + b).toInt = a.toInt + b.toInt := by
  rw [Int64.toInt_minValue] at hlow
  rw [Int64.toInt_maxValue] at hhigh
  rw [Int64.toInt_add, Int.bmod_eq_of_le (by omega) (by omega)]

/-- What saturates becomes the nearest integer in range. -/
theorem toInt_ofIntClamp_eq (x : Int) :
    (Int64.ofIntClamp x).toInt = max Int64.minValue.toInt (min Int64.maxValue.toInt x) := by
  have hrange := Int64.maxValue.minValue_le_toInt
  unfold Int64.ofIntClamp
  split
  · rename_i hlow
    split
    · rename_i hhigh
      rw [Int64.toInt_ofIntLE, Int.min_eq_right hhigh, Int.max_eq_right hlow]
    · rename_i hhigh
      rw [Int.min_eq_left (Int.le_of_not_le hhigh), Int.max_eq_right hrange]
  · rename_i hlow
    rw [Int.max_eq_left (Int.le_trans (Int.min_le_right _ _) (Int.le_of_not_le hlow))]

/-! ### Bits and bytes -/

/-- A word with its bits moved to the left, if by less than its width. Bits that leave the word are
lost. -/
def shifted (h count : UInt32) : Option UInt32 :=
  if count < 32 then some (h <<< count) else none

/-- The difference of two bytes, if it is not negative. -/
def difference (m n : UInt8) : Option UInt8 :=
  if m < n then none else some (m - n)

/-- The bytes with one of them replaced, if it is there. -/
def replaced (bytes : Array UInt8) (i : Nat) (b : UInt8) : Option (Array UInt8) :=
  if i < bytes.size then some (bytes.setIfInBounds i b) else none

/-! ### Texts -/

/-- A text, if there is room for it. -/
def place (s : String) : Option String :=
  if s.utf8ByteSize ≤ Text.maxInt64 then some s else none

/-- The text from a byte on, if a character begins there or the text ends. -/
def textFrom (s : String) (i : Nat) : Option String :=
  if h : String.Pos.Raw.IsValid s ⟨i⟩ then some (s.sliceFrom (s.pos ⟨i⟩ h)).copy else none

/-- Between two parts of a text a character begins or the text ends. -/
theorem textFrom_append (s t : String) : textFrom (s ++ t) s.utf8ByteSize = some t := by
  have hvalid : String.Pos.Raw.IsValid (s ++ t) ⟨s.utf8ByteSize⟩ :=
    String.Pos.Raw.isValid_iff_exists_append.mpr ⟨s, t, rfl, rfl⟩
  rw [textFrom, dif_pos hvalid, Option.some_inj]
  exact String.Pos.splits_append_rawEndPos.copy_sliceFrom_eq

end Word

namespace Text

/-- The bytes of a text. -/
def bytesOf (s : String) : List UInt8 :=
  s.toUTF8.data.toList

/-- The bytes of a text are those of its characters. -/
theorem bytesOf_ofList (cs : List Char) :
    bytesOf (String.ofList cs) = cs.flatMap String.utf8EncodeChar := by
  rw [bytesOf, String.toUTF8_eq_toByteArray, String.toByteArray_ofList, List.utf8Encode,
    List.data_toByteArray]

/-- Two texts in a row have their bytes in a row. -/
theorem bytesOf_append (a b : String) : bytesOf (a ++ b) = bytesOf a ++ bytesOf b := by
  simp [bytesOf]

/-- The size of a text is the number of its bytes. -/
theorem length_bytesOf (s : String) : (bytesOf s).length = s.utf8ByteSize :=
  rfl

end Text

end Smil
