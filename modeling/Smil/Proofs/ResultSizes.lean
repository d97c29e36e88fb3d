import Smil.Proofs.Removal

/-!
# The size of an operator's result

Only joining and repeating look at the limit of a text. The other operators need not: removing,
cutting and rotating never add to the bytes of a text, whatever characters it has. So a result is
within every bound that holds of the operands and is not below the limit.
-/

namespace Smil

section Mapping

variable {ε α β : Type} {f : α → β} {x : Except ε α}

/-- A result is mapped to a result. -/
theorem map_eq_ok_iff {b : β} : x.map f = .ok b ↔ ∃ a, x = .ok a ∧ f a = b := by
  cases x <;> simp [Except.map]

/-- An error stays as it is. -/
theorem map_eq_error_iff {e : ε} : x.map f = .error e ↔ x = .error e := by
  cases x <;> simp [Except.map]

end Mapping

namespace Value

/-- The value is an integer, or a text with this number of bytes at most. -/
def AtMost (bound : Nat) : Value → Prop
  | integer _ => True
  | text s => s.utf8ByteSize ≤ bound

variable {bound : Nat} {op : Operator} {a b v : Value} {s t u : String} {n : Int64}

/-- Joined texts have been measured. -/
theorem size_of_joined (h : joined s t = .ok u) : u.utf8ByteSize ≤ maxTextBytes := by
  unfold joined at h
  split at h
  · cases h
  · rename_i hsize
    rw [← Except.ok.inj h, String.utf8ByteSize_append]
    exact Nat.le_of_not_lt hsize

/-- With an integer at its side a text does not grow, or it is measured. -/
theorem size_of_textAndInteger {invalid : Cause} (hbound : maxTextBytes ≤ bound)
    (h : textAndInteger op s n invalid = .ok t) (hs : s.utf8ByteSize ≤ bound) :
    t.utf8ByteSize ≤ bound := by
  cases op with
  | add | and | or => cases h
  | subtract =>
    rw [← Except.ok.inj h]
    exact Nat.le_trans (Text.utf8ByteSize_keep_le s _) hs
  | multiply =>
    change repeated s n = .ok t at h
    exact Nat.le_trans (repeated_eq_ok h).2 hbound
  | divide =>
    change divided s n = .ok t at h
    unfold divided at h
    split at h
    · cases h
    · rw [← Except.ok.inj h]
      exact Nat.le_trans (Text.utf8ByteSize_keep_le s _) hs
  | modulo =>
    change rotated s n = .ok t at h
    unfold rotated at h
    split at h
    · cases h
    · rw [← Except.ok.inj h, Text.utf8ByteSize_rotateLeft]
      exact hs

/-- A text that results from values of some size is not larger, unless it is within the limit. -/
theorem size_of_texts (hbound : maxTextBytes ≤ bound) (h : texts op a b = .ok t)
    (ha : a.AtMost bound) (hb : b.AtMost bound) : t.utf8ByteSize ≤ bound := by
  unfold texts at h
  split at h
  · exact Nat.le_trans (size_of_joined h) hbound
  · split at h
    · split at h
      · rw [← Except.ok.inj h]
        exact Nat.le_trans (Text.utf8ByteSize_removeAll_le _ _) ha
      · cases h
    · exact size_of_textAndInteger hbound h ha
    · exact size_of_textAndInteger hbound h hb
    · cases h

/-- An operator keeps within every bound that is not below the limit. -/
theorem atMost_of_operate (hbound : maxTextBytes ≤ bound) (h : operate op a b = .ok v)
    (ha : a.AtMost bound) (hb : b.AtMost bound) : v.AtMost bound := by
  unfold operate at h
  split at h
  · obtain ⟨n, -, rfl⟩ := map_eq_ok_iff.mp h
    trivial
  · obtain ⟨t, ht, rfl⟩ := map_eq_ok_iff.mp h
    exact size_of_texts hbound ht ha hb

end Value

end Smil
