import Smil.Value.Operate

/-!
# Sizes of edited texts

Cuts and rotations count characters, while the limit of a text counts bytes. A cut keeps a front
part and so never has more bytes than the text; a rotation moves characters and keeps all of them;
and copies made by doubling are the copies in a row.
-/

namespace Smil.Text

/-- A character has one to four bytes. -/
theorem utf8ByteSize_bounds (s : String) :
    s.length ≤ s.utf8ByteSize ∧ s.utf8ByteSize ≤ 4 * s.length := by
  suffices hchars : ∀ cs : List Char, cs.length ≤ (String.ofList cs).utf8ByteSize ∧
      (String.ofList cs).utf8ByteSize ≤ 4 * cs.length by
    have hs := hchars s.toList
    rwa [String.length_toList, String.ofList_toList] at hs
  intro cs
  induction cs with
  | nil => simp
  | cons c cs ih =>
    have hpositive := c.utf8Size_pos
    have hfour := c.utf8Size_le_four
    rw [String.ofList_cons, String.utf8ByteSize_append, String.utf8ByteSize_singleton,
      List.length_cons]
    omega

/-! ### Cuts -/

/-- A text is what is kept in front and what is left behind it. -/
theorem keep_append_drop (s : String) (n : Nat) : keep s n ++ (s.drop n).copy = s := by
  rw [← String.toList_inj, String.toList_append, keep, String.toList_copy_take,
    String.toList_copy_drop, List.take_append_drop]

/-- A front part has no more bytes than the text. -/
theorem utf8ByteSize_keep_le (s : String) (n : Nat) :
    (keep s n).utf8ByteSize ≤ s.utf8ByteSize := by
  have hsize := congrArg String.utf8ByteSize (keep_append_drop s n)
  rw [String.utf8ByteSize_append] at hsize
  omega

/-- Keeping more characters than there are is keeping all. -/
theorem keep_min_length (s : String) (n : Nat) : keep s (min n s.length) = keep s n := by
  rw [← String.toList_inj, keep, keep, String.toList_copy_take, String.toList_copy_take,
    ← String.length_toList]
  exact List.take_eq_take_min.symm

/-- A rotation keeps every character. -/
theorem utf8ByteSize_rotateLeft (s : String) (n : Int64) :
    (rotateLeft s n).utf8ByteSize = s.utf8ByteSize := by
  have hsize := congrArg String.utf8ByteSize
    (keep_append_drop s (n.toInt % (s.length : Int)).toNat)
  rw [String.utf8ByteSize_append] at hsize
  rw [rotateLeft, String.utf8ByteSize_append]
  omega

/-! ### Copies -/

/-- Doubling makes the copies in a row. -/
theorem replicate_eq_join (s : String) (n : Nat) :
    replicate s n = String.join (List.replicate n s) := by
  fun_induction replicate s n with
  | case1 => rfl
  | case2 n _ half _ ih =>
    have hsum : n / 2 + n / 2 = n := by omega
    calc half ++ half
        = String.join (List.replicate (n / 2) s) ++ String.join (List.replicate (n / 2) s) := by
          rw [← ih]
      _ = String.join (List.replicate n s) := by
          rw [← String.join_append, List.replicate_append_replicate, hsum]
  | case3 n _ half _ ih =>
    have hsum : n / 2 + n / 2 + 1 = n := by omega
    calc half ++ half ++ s
        = String.join (List.replicate (n / 2 + n / 2) s) ++ s := by
          rw [← List.replicate_append_replicate, String.join_append, ← ih]
      _ = String.join (List.replicate (n / 2 + n / 2) s ++ [s]) := by
          rw [String.join_append, String.join_cons, String.join_nil, String.append_empty]
      _ = String.join (List.replicate n s) := by
          rw [← List.replicate_succ', hsum]

/-- One more copy is put in front. -/
theorem replicate_succ (s : String) (n : Nat) : replicate s (n + 1) = s ++ replicate s n := by
  rw [replicate_eq_join, replicate_eq_join, List.replicate_succ, String.join_cons]

/-- No copies are the empty text. -/
theorem replicate_zero (s : String) : replicate s 0 = "" := by
  rw [replicate_eq_join, List.replicate_zero, String.join_nil]

/-- Copies have their bytes times their number. -/
theorem utf8ByteSize_replicate (s : String) (n : Nat) :
    (replicate s n).utf8ByteSize = s.utf8ByteSize * n := by
  induction n with
  | zero => rw [replicate_zero, String.utf8ByteSize_empty, Nat.mul_zero]
  | succ n ih =>
    rw [replicate_succ, String.utf8ByteSize_append, ih, Nat.mul_succ, Nat.add_comm]

end Smil.Text

namespace Smil.Value

/-- What is repeated is the copies, where a count that is not positive stands for none. -/
theorem repeated_eq_ok {s copies : String} {n : Int64} (h : repeated s n = .ok copies) :
    copies = Text.replicate s n.toNatClampNeg ∧ copies.utf8ByteSize ≤ maxTextBytes := by
  unfold repeated at h
  split at h
  · rename_i hnone
    cases h
    rw [Int64.toNatClampNeg_eq_zero_iff.mpr hnone, Text.replicate_zero]
    exact ⟨rfl, Nat.zero_le _⟩
  · split at h
    · cases h
    · rename_i hsize
      cases h
      rw [Text.utf8ByteSize_replicate]
      exact ⟨rfl, Nat.le_of_not_lt hsize⟩

end Smil.Value
