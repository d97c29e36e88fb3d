import Smil.Proofs.OperatorErrors

/-!
# Joining texts

With a text on one side addition joins the two texts, and it looks at the number of bytes before it
does. Around a text in the middle the two groupings of three values look at different texts on the
way. They accept the same triples all the same: what stands in between is a part of the whole, so it
is within the limit whenever the whole is.

Lengths are counted in characters and limits in bytes. For the numeral of an integer both counts are
the same.
-/

namespace Smil

namespace Text

/-- A text has one byte for each character if its characters are of ASCII. -/
theorem utf8ByteSize_of_ascii {cs : List Char} (h : ∀ c ∈ cs, c.utf8Size = 1) :
    (String.ofList cs).utf8ByteSize = cs.length := by
  induction cs with
  | nil => rfl
  | cons c cs ih =>
    have hhead : c.utf8Size = 1 := h c List.mem_cons_self
    have htail := ih fun d hd => h d (List.mem_cons_of_mem c hd)
    rw [String.ofList_cons, String.utf8ByteSize_append, String.utf8ByteSize_singleton, hhead, htail,
      List.length_cons, Nat.add_comm]

/-- A digit has one byte. -/
theorem utf8Size_of_isDigit {c : Char} (h : isDigit c = true) : c.utf8Size = 1 := by
  have hrange := isDigit_iff.mp h
  rw [Char.utf8Size_eq_one_iff, UInt32.le_iff_toNat_le]
  change c.toNat ≤ 127
  omega

/-- A numeral has as many bytes as characters. -/
theorem utf8ByteSize_decimal (n : Int) : (decimal n).utf8ByteSize = (decimal n).length := by
  have hascii : ∀ c ∈ (decimal n).toList, c.utf8Size = 1 := by
    intro c hc
    rw [toList_decimal, List.mem_append] at hc
    rcases hc with hsign | hdigit
    · split at hsign
      · rw [List.mem_singleton.mp hsign]
        rfl
      · cases hsign
    · exact utf8Size_of_isDigit (isDigit_of_mem_toDigits hdigit)
  have hsize := utf8ByteSize_of_ascii hascii
  rwa [String.ofList_toList, String.length_toList] at hsize

end Text

namespace Value

variable {a b : Value} {s t : String}

/-- A text as a value, unless it is too large. -/
def limited (s : String) : Except Cause Value :=
  if s.utf8ByteSize > maxTextBytes then .error .textTooLarge else .ok (text s)

/-- A text within the limit is a value. -/
theorem limited_of_le (h : s.utf8ByteSize ≤ maxTextBytes) : limited s = .ok (text s) :=
  if_neg (Nat.not_lt.mpr h)

/-- A text beyond the limit is none. -/
theorem limited_of_lt (h : maxTextBytes < s.utf8ByteSize) : limited s = .error .textTooLarge :=
  if_pos h

/-- Where there is a value it is the text. -/
theorem eq_text_of_limited {v : Value} (h : limited s = .ok v) : v = text s := by
  unfold limited at h
  split at h
  · cases h
  · exact (Except.ok.inj h).symm

/-- As soon as there is a text, adding up puts the text of the one before that of the other. -/
theorem operate_add_eq_limited (h : a.isText = true ∨ b.isText = true) :
    operate .add a b = limited (a.toText ++ b.toText) := by
  rw [operate_add h, joined, limited, String.utf8ByteSize_append]
  split <;> rfl

/-- A part that is too large makes the whole too large. -/
theorem limited_bind {f : Value → Except Cause Value} (hpart : s.utf8ByteSize ≤ t.utf8ByteSize)
    (hf : f (text s) = limited t) : (limited s >>= f) = limited t := by
  rcases Nat.lt_or_ge maxTextBytes s.utf8ByteSize with hsize | hsize
  · rw [limited_of_lt hsize, limited_of_lt (Nat.lt_of_lt_of_le hsize hpart)]
    rfl
  · rw [limited_of_le hsize]
    exact hf

/-- Around a text addition is associative: both groupings give the three texts in a row, or both are
too large. What is added up has the text of the one followed by the text of the other, and as many
characters as both, where the characters of an integer are the bytes of its numeral. -/
theorem add_assoc_around_text (a c : Value) (b : String) :
    (operate .add a (text b) >>= fun front => operate .add front c) =
        limited (a.toText ++ b ++ c.toText) ∧
      (operate .add (text b) c >>= fun back => operate .add a back) =
        limited (a.toText ++ b ++ c.toText) ∧
      (∀ x y v : Value, x.isText = true ∨ y.isText = true → operate .add x y = .ok v →
        v.length = x.length + y.length ∧ v.toText = x.toText ++ y.toText) ∧
      ∀ n : Int64, (integer n).length = (integer n).toText.utf8ByteSize := by
  refine ⟨?_, ?_, ?_, ?_⟩
  · rw [operate_add_eq_limited (b := text b) (Or.inr rfl)]
    apply limited_bind
    · simp only [toText, String.utf8ByteSize_append]
      omega
    · exact operate_add_eq_limited (Or.inl rfl)
  · rw [operate_add_eq_limited (a := text b) (Or.inl rfl), String.append_assoc]
    apply limited_bind
    · simp only [toText, String.utf8ByteSize_append]
      omega
    · exact operate_add_eq_limited (Or.inr rfl)
  · intro x y v htext hv
    rw [operate_add_eq_limited htext] at hv
    obtain rfl := eq_text_of_limited hv
    exact ⟨String.length_append _ _, rfl⟩
  · intro n
    exact (Text.utf8ByteSize_decimal n.toInt).symm

/-- A text with characters of two and three bytes between two integers. -/
theorem add_assoc_around_text_numerals :
    (operate .add (integer (-15)) (text "é漢") >>= fun front => operate .add front (integer 0)) =
        .ok (text "-15é漢0") ∧
      (operate .add (text "é漢") (integer 0) >>= fun back => operate .add (integer (-15)) back) =
        .ok (text "-15é漢0") ∧
      operate .add (integer (-15)) (text "é漢") = .ok (text "-15é漢") ∧
      (text "-15é漢").length = (integer (-15)).length + (text "é漢").length := by
  obtain ⟨hfront, hback, hsum, -⟩ := add_assoc_around_text (integer (-15)) (integer 0) "é漢"
  have hnumeral : (integer (-15)).toText ++ "é漢" = "-15é漢" := by decide +kernel
  have hwhole : (integer (-15)).toText ++ "é漢" ++ (integer 0).toText = "-15é漢0" := by
    decide +kernel
  rw [hwhole, limited_of_le (by decide)] at hfront hback
  have hadd : operate .add (integer (-15)) (text "é漢") = .ok (text "-15é漢") := by
    rw [operate_add_eq_limited (Or.inr rfl), ← hnumeral]
    exact limited_of_le (by decide +kernel)
  exact ⟨hfront, hback, hadd, (hsum _ _ _ (Or.inr rfl) hadd).1⟩

end Value

end Smil
