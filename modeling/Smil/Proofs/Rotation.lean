import Mathlib.Data.List.Rotate
import Smil.Proofs.OperatorWords

/-!
# Rotations

A text is rotated by a signed 64-bit count, which is taken modulo the length of the text. Behind it
stands the rotation of a list by any integer: the character at an index is the one as many places
further on, counted around the end. Rotations by integers add up, and a multiple of the length
rotates nothing; so the integers act on the lists of every length.

Counts inherit these laws as far as their sums and opposites are counts again.
-/

namespace Smil.Text

variable {cs : List Char} {s : String}

/-! ### Rotations by integers -/

/-- The list rotated to the left by an integer. -/
def turn (cs : List Char) (k : Int) : List Char :=
  cs.rotate (k % cs.length).toNat

/-- Turning loses no character. -/
@[simp]
theorem length_turn (cs : List Char) (k : Int) : (turn cs k).length = cs.length :=
  List.length_rotate cs _

/-- Only the count modulo the length matters. -/
theorem turn_congr {k m : Int} (h : k % cs.length = m % cs.length) : turn cs k = turn cs m := by
  rw [turn, turn, h]

/-- Turning by a natural number is the rotation of lists. -/
theorem turn_natCast (cs : List Char) (k : Nat) : turn cs k = cs.rotate k := by
  rw [turn, ← Int.natCast_emod, Int.toNat_natCast, List.rotate_mod]

/-- The remainder by a length that is not zero is a natural number. -/
theorem natCast_toNat_emod (hcs : cs ≠ []) (k : Int) :
    ((k % cs.length).toNat : Int) = k % cs.length := by
  have hlength : (cs.length : Int) ≠ 0 := by
    rw [Int.natCast_ne_zero]
    exact fun h => hcs (List.length_eq_zero_iff.mp h)
  exact Int.toNat_of_nonneg (Int.emod_nonneg k hlength)

/-- Turning twice is turning by the sum. -/
theorem turn_turn (cs : List Char) (k m : Int) : turn (turn cs k) m = turn cs (k + m) := by
  by_cases hcs : cs = []
  · rw [hcs, turn, turn, turn, List.rotate_nil, List.rotate_nil, List.rotate_nil]
  · calc turn (turn cs k) m
        = cs.rotate ((k % cs.length).toNat + (m % cs.length).toNat) := by
          rw [turn, length_turn, turn, List.rotate_rotate]
      _ = turn cs (k % cs.length + m % cs.length) := by
          rw [← turn_natCast, Int.natCast_add, natCast_toNat_emod hcs, natCast_toNat_emod hcs]
      _ = turn cs (k + m) := turn_congr (Int.add_emod k m cs.length).symm

/-- Whole turns change nothing. -/
theorem turn_of_dvd {k : Int} (h : (cs.length : Int) ∣ k) : turn cs k = cs := by
  rw [turn, Int.emod_eq_zero_of_dvd h, Int.toNat_zero, List.rotate_zero]

/-- The character at an index is the one as many places further on, counted around the end. -/
theorem getElem?_turn {j : Nat} (hj : j < cs.length) (k : Int) :
    (turn cs k)[j]? = cs[((j + k) % cs.length).toNat]? := by
  have hcs : cs ≠ [] := List.ne_nil_of_length_pos (Nat.zero_lt_of_lt hj)
  rw [turn, List.getElem?_rotate hj]
  congr 1
  rw [← Int.natCast_inj, natCast_toNat_emod hcs, Int.natCast_emod, Int.natCast_add,
    natCast_toNat_emod hcs, Int.add_emod_emod]

/-! ### Rotations by counts -/

/-- A text is rotated as the list of its characters is turned, whatever the sign of the count. -/
theorem toList_rotateLeft (s : String) (n : Int64) :
    (rotateLeft s n).toList = turn s.toList n.toInt := by
  rw [rotateLeft, String.toList_append, keep, String.toList_copy_drop, String.toList_copy_take,
    turn, String.length_toList]
  by_cases hs : s.toList = []
  · rw [hs, List.drop_nil, List.take_nil, List.rotate_nil, List.nil_append]
  · have hpositive : 0 < s.toList.length := List.length_pos_of_ne_nil hs
    rw [String.length_toList] at hpositive
    have hlt := Int.emod_lt_of_pos n.toInt (Int.natCast_pos.mpr hpositive)
    rw [List.rotate_eq_drop_append_take]
    rw [String.length_toList]
    omega

/-- Rotating keeps the number of characters. -/
theorem length_rotateLeft (s : String) (n : Int64) : (rotateLeft s n).length = s.length := by
  rw [← String.length_toList, toList_rotateLeft, length_turn, String.length_toList]

end Smil.Text

namespace Smil.Value

open Text (turn rotateLeft)

variable {s : String}

/-- A text that is not empty can be rotated, and it stays such a text. -/
theorem rotated_of_ne (hs : s ≠ "") (n : Int64) :
    rotated s n = .ok (rotateLeft s n) ∧ rotateLeft s n ≠ "" := by
  constructor
  · rw [rotated, if_neg (mt String.isEmpty_iff.mp hs)]
  · rw [ne_eq, ← String.length_eq_zero_iff, Text.length_rotateLeft, String.length_eq_zero_iff]
    exact hs

/-- The operator turns a text that is not empty. -/
theorem rotated_eq_turn (hs : s ≠ "") (n : Int64) :
    rotated s n = .ok (String.ofList (turn s.toList n.toInt)) := by
  rw [(rotated_of_ne hs n).1, ← Text.toList_rotateLeft, String.ofList_toList]

/-- Two rotations in a row. -/
theorem rotated_bind_rotated (hs : s ≠ "") (a b : Int64) :
    (rotated s a >>= fun t => rotated t b) =
      .ok (String.ofList (turn s.toList (a.toInt + b.toInt))) := by
  obtain ⟨hfirst, hne⟩ := rotated_of_ne hs a
  calc (rotated s a >>= fun t => rotated t b)
      = rotated (rotateLeft s a) b := by simp only [hfirst, bind, Except.bind]
    _ = .ok (String.ofList (turn (rotateLeft s a).toList b.toInt)) := rotated_eq_turn hne b
    _ = .ok (String.ofList (turn s.toList (a.toInt + b.toInt))) := by
      rw [Text.toList_rotateLeft, Text.turn_turn]

/-- Rotation of a text that is not empty is an action of the counts. Counts add up as long as their
sum is a count, a multiple of the length rotates nothing, and the opposite count turns back. The
character at an index is the one at the sum of index and count, modulo the length and without
overflow; a machine that takes the remainder of 64-bit integers rotates in the same way. -/
theorem rotated_action (s : String) (hs : s ≠ "") :
    (∀ a b : Int64, Int64.minValue.toInt ≤ a.toInt + b.toInt →
      a.toInt + b.toInt ≤ Int64.maxValue.toInt →
      (rotated s a >>= fun t => rotated t b) = rotated s (a + b)) ∧
    (∀ n : Int64, (s.length : Int) ∣ n.toInt → rotated s n = .ok s) ∧
    (∀ n : Int64, n ≠ Int64.minValue → (rotated s n >>= fun t => rotated t (-n)) = .ok s) ∧
    ∀ n : Int64, ∃ t, rotated s n = .ok t ∧ t.length = s.length ∧
      (∀ j, j < s.length → t.toList[j]? = s.toList[((j + n.toInt) % s.length).toNat]?) ∧
      (s.utf8ByteSize ≤ Text.maxInt64 → rotatedInWords s n = some (.ok t)) := by
  refine ⟨?_, ?_, ?_, ?_⟩
  · intro a b hlow hhigh
    rw [rotated_bind_rotated hs, rotated_eq_turn hs, Word.toInt_add_of_range hlow hhigh]
  · intro n hn
    rw [← String.length_toList] at hn
    rw [rotated_eq_turn hs, Text.turn_of_dvd hn, String.ofList_toList]
  · intro n hn
    have hlow := n.le_toInt
    have hhigh := n.toInt_lt
    rw [ne_eq, ← Int64.toInt_inj, Int64.toInt_minValue] at hn
    have hopposite : (-n).toInt = -n.toInt := by
      rw [Int64.toInt_neg, Int.bmod_eq_of_le (by omega) (by omega)]
    rw [rotated_bind_rotated hs, hopposite, Int.add_right_neg,
      Text.turn_of_dvd (Int.dvd_zero _), String.ofList_toList]
  · intro n
    obtain ⟨hrotated, -⟩ := rotated_of_ne hs n
    refine ⟨rotateLeft s n, hrotated, Text.length_rotateLeft s n, ?_, ?_⟩
    · intro j hj
      rw [← String.length_toList] at hj
      rw [Text.toList_rotateLeft, Text.getElem?_turn hj, String.length_toList]
    · intro hsize
      rw [rotatedInWords_eq hsize, hrotated]

/-- Characters of one to three bytes, turned by counts of both signs and by the least one. -/
theorem rotated_action_mixed :
    "aé漢" ≠ "" ∧
      (rotated "aé漢" (-7) >>= fun t => rotated t Int64.maxValue) =
        rotated "aé漢" 9223372036854775800 ∧
      rotated "aé漢" 9223372036854775806 = .ok "aé漢" ∧
      (rotated "aé漢" 5 >>= fun t => rotated t (-5)) = .ok "aé漢" ∧
      ∃ t, rotated "aé漢" Int64.minValue = .ok t ∧ t.toList[0]? = some 'é' := by
  have hs : "aé漢" ≠ "" := by decide
  obtain ⟨hsum, hmultiple, hopposite, hindex⟩ := rotated_action "aé漢" hs
  obtain ⟨t, ht, -, hcharacter, -⟩ := hindex Int64.minValue
  exact ⟨hs, hsum (-7) Int64.maxValue (by decide) (by decide),
    hmultiple 9223372036854775806 (by decide), hopposite 5 (by decide), t, ht,
    hcharacter 0 (by decide)⟩

end Smil.Value
