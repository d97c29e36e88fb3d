import Smil.Proofs.OperatorWords

/-!
# Front parts and copies

Subtracting a count from a text and dividing a text by a count both keep a front part. The machine
computes how much to keep with a difference that saturates and a quotient that is cut toward zero,
and then stays between zero and the length. In exact arithmetic the difference may have any size and
the quotient is rounded down. Both keep the same characters: a difference saturates only beyond the
length of every text, and the two roundings of a quotient differ only below zero.

Copies of a text add up with their counts, and dropping as many characters as some of the copies
have leaves the others.
-/

namespace Smil.Text

variable {s : String}

/-! ### Front parts -/

/-- The first characters of a text, as many as the count says: none if it is negative, and all if
the text has no more. -/
def frontPart (s : String) (count : Int) : String :=
  String.ofList (s.toList.take (max 0 (min (s.length : Int) count)).toNat)

/-- Keeping a number of characters is a front part, whatever the sign of the count. -/
theorem keep_toNat (s : String) (count : Int) : keep s count.toNat = frontPart s count := by
  rw [← keep_min_length, frontPart, ← String.toList_inj, String.toList_ofList, keep,
    String.toList_copy_take]
  congr 1
  omega

/-- Counts count the same if they agree between zero and the length. -/
theorem frontPart_congr {m n : Int}
    (h : max 0 (min (s.length : Int) m) = max 0 (min (s.length : Int) n)) :
    frontPart s m = frontPart s n := by
  rw [frontPart, frontPart, h]

/-- The difference saturates only where all of the text is kept. -/
theorem dropTail_eq_frontPart (hs : s.length ≤ maxInt64) (n : Int64) :
    dropTail s n = frontPart s (s.length - n.toInt) := by
  have hhigh := n.toInt_lt
  rw [dropTail, Int64.toNatClampNeg, keep_toNat]
  apply frontPart_congr
  rw [Word.toInt_ofIntClamp_eq, Int64.toInt_minValue, Int64.toInt_maxValue]
  unfold maxInt64 at hs
  omega

/-- A quotient of a length that is cut toward zero differs from the quotient that is rounded down
only below zero. -/
theorem max_zero_tdiv (length : Nat) (n : Int) :
    max 0 ((length : Int).tdiv n) = max 0 ((length : Int).fdiv n) := by
  rcases Int.le_total 0 n with hn | hn
  · rw [Int.tdiv_eq_ediv_of_nonneg (Int.natCast_nonneg length), Int.fdiv_eq_ediv_of_nonneg _ hn]
  · have htdiv := Int.tdiv_nonpos_of_nonneg_of_nonpos (Int.natCast_nonneg length) hn
    have hfdiv := Int.fdiv_nonpos_of_nonneg_of_nonpos (Int.natCast_nonneg length) hn
    omega

/-- Dividing keeps a front part. The quotient may as well be rounded down as cut toward zero, since
a negative count keeps nothing. -/
theorem fraction_eq_frontPart (hs : s.length ≤ maxInt64) (n : Int64) :
    fraction s n = frontPart s ((s.length : Int).fdiv n.toInt) := by
  rw [fraction, Int64.toNatClampNeg, keep_toNat,
    Int64.toInt_div_of_ne_left _ _ (Word.ofNat_ne_minValue hs), Word.toInt_ofNat_of_le hs]
  apply frontPart_congr
  have hround := max_zero_tdiv s.length n.toInt
  omega

/-- The front part of a joined text as long as its first half is the first half. -/
theorem frontPart_append (s t : String) : frontPart (s ++ t) s.length = s := by
  have hcount : (max 0 (min ((s ++ t).length : Int) s.length)).toNat = s.toList.length := by
    rw [String.length_append, String.length_toList]
    omega
  rw [frontPart, hcount, String.toList_append, List.take_left, String.ofList_toList]

/-- Dropping as many characters as the second of two texts has leaves the first. -/
theorem dropTail_append {t : String} (hlength : (s ++ t).length ≤ maxInt64) {count : Int64}
    (hcount : count.toInt = t.length) : dropTail (s ++ t) count = s := by
  have hfirst : ((s ++ t).length : Int) - t.length = s.length := by
    rw [String.length_append]
    omega
  rw [dropTail_eq_frontPart hlength, hcount, hfirst, frontPart_append]

/-! ### Copies -/

/-- Copies can be made in two portions. -/
theorem replicate_add (s : String) (m n : Nat) :
    replicate s (m + n) = replicate s m ++ replicate s n := by
  rw [replicate_eq_join, replicate_eq_join, replicate_eq_join, ← String.join_append,
    List.replicate_append_replicate]

/-- Copies have their characters times their number. -/
theorem length_replicate (s : String) (n : Nat) : (replicate s n).length = n * s.length := by
  induction n with
  | zero => rw [replicate_zero, String.length_empty, Nat.zero_mul]
  | succ n ih => rw [replicate_succ, String.length_append, ih, Nat.succ_mul, Nat.add_comm]

end Smil.Text

namespace Smil.Value

open Text (frontPart dropTail)

variable {s t : String} {a b n : Int64}

/-- Copies that are not too large are made. -/
theorem repeated_of_size (h : s.utf8ByteSize * n.toNatClampNeg ≤ maxTextBytes) :
    repeated s n = .ok (Text.replicate s n.toNatClampNeg) := by
  unfold repeated
  split
  · rename_i hnone
    rw [Int64.toNatClampNeg_eq_zero_iff.mpr hnone, Text.replicate_zero]
  · rw [if_neg (Nat.not_lt.mpr h)]

/-- The copies that a sum stands for are the copies of the one and of the other. -/
theorem repeated_sum (ha : 0 ≤ a) (hb : 0 ≤ b)
    (hsum : a.toInt + b.toInt ≤ Int64.maxValue.toInt) (h : repeated s (a + b) = .ok t) :
    ∃ u v, repeated s a = .ok u ∧ repeated s b = .ok v ∧ t = u ++ v ∧
      (v.length : Int) = b.toInt * s.length := by
  have hcount : (a + b).toNatClampNeg = a.toNatClampNeg + b.toNatClampNeg := by
    rw [Int64.le_iff_toInt_le, Int64.toInt_zero] at ha hb
    have hlow : Int64.minValue.toInt ≤ a.toInt + b.toInt := by
      rw [Int64.toInt_minValue]
      omega
    unfold Int64.toNatClampNeg
    rw [Word.toInt_add_of_range hlow hsum]
    omega
  obtain ⟨rfl, hsize⟩ := repeated_eq_ok h
  rw [Text.utf8ByteSize_replicate, hcount, Nat.mul_add] at hsize
  refine ⟨_, _, repeated_of_size (by omega), repeated_of_size (by omega), ?_, ?_⟩
  · rw [hcount, Text.replicate_add]
  · rw [Text.length_replicate, Int.natCast_mul, Int64.cast_toNatClampNeg b hb]

/-- Operators that cut and copy texts agree with exact arithmetic. Subtraction keeps the first
characters of a text, as many as the exact difference says, and division as many as the exact
quotient rounded down says, within zero and the length. Copies are made as long as there is room for
them. Those for a sum of counts are the copies for the counts in a row, so dropping the characters
of the second leaves the first. -/
theorem front_parts_exact (s : String) :
    (s.length ≤ Text.maxInt64 →
      (∀ n : Int64, dropTail s n = frontPart s (s.length - n.toInt)) ∧
      ∀ n : Int64, n ≠ 0 → divided s n = .ok (frontPart s ((s.length : Int).fdiv n.toInt))) ∧
    (∀ n : Int64, s.utf8ByteSize * n.toNatClampNeg ≤ maxTextBytes →
      repeated s n = .ok (String.join (List.replicate n.toNatClampNeg s))) ∧
    ∀ (a b : Int64) (t : String), 0 ≤ a → 0 ≤ b →
      a.toInt + b.toInt ≤ Int64.maxValue.toInt → repeated s (a + b) = .ok t →
      ∃ u v, repeated s a = .ok u ∧ repeated s b = .ok v ∧ t = u ++ v ∧
        ∀ count : Int64, count.toInt = b.toInt * s.length → dropTail t count = u := by
  refine ⟨?_, ?_, ?_⟩
  · intro hs
    refine ⟨Text.dropTail_eq_frontPart hs, ?_⟩
    intro n hn
    rw [divided, if_neg hn, Text.fraction_eq_frontPart hs]
  · intro n hsize
    rw [repeated_of_size hsize, Text.replicate_eq_join]
  · intro a b t ha hb hsum ht
    obtain ⟨u, v, hu, hv, rfl, hlength⟩ := repeated_sum ha hb hsum ht
    have hfits : (u ++ v).length ≤ Text.maxInt64 :=
      calc (u ++ v).length
          ≤ (u ++ v).utf8ByteSize := (Text.utf8ByteSize_bounds (u ++ v)).1
        _ ≤ maxTextBytes := (repeated_eq_ok ht).2
        _ ≤ Text.maxInt64 := by decide
    refine ⟨u, v, hu, hv, rfl, ?_⟩
    intro count hcount
    exact Text.dropTail_append hfits (hcount.trans hlength.symm)

/-- The least count keeps everything, a negative divisor nothing, and the last of three copies is
dropped again, where the characters have one to three bytes. -/
theorem front_parts_exact_extremes :
    "añ漢".length ≤ Text.maxInt64 ∧ dropTail "añ漢" Int64.minValue = "añ漢" ∧
      dropTail "añ漢" 2 = "a" ∧ divided "añ漢" (-2) = .ok "" ∧ divided "añ漢" 2 = .ok "a" ∧
      repeated "añ漢" (2 + 1) = .ok "añ漢añ漢añ漢" ∧
      ∃ u, repeated "añ漢" 2 = .ok u ∧ dropTail "añ漢añ漢añ漢" 3 = u := by
  have hlength : "añ漢".length ≤ Text.maxInt64 := by decide
  obtain ⟨hexact, hcopies, hsums⟩ := front_parts_exact "añ漢"
  obtain ⟨hdifference, hquotient⟩ := hexact hlength
  have hthree : repeated "añ漢" (2 + 1) = .ok "añ漢añ漢añ漢" := hcopies (2 + 1) (by decide)
  obtain ⟨u, v, hu, -, -, hdrop⟩ :=
    hsums 2 1 _ (by decide) (by decide) (by decide) hthree
  exact ⟨hlength, (hdifference Int64.minValue).trans (by decide), (hdifference 2).trans (by decide),
    hquotient (-2) (by decide), hquotient 2 (by decide), hthree, u, hu, hdrop 3 (by decide)⟩

end Smil.Value
