import Smil.Proofs.Numerals

/-!
# The shapes of numerals

What a reader of integers looks for is said here without the readers: the longest run of characters
of a class, one sign at most, the white space around a text, and digits. A text has each of these
shapes in one way only, and the functions that cut texts find it.

From the shapes follows how arguments are typed. An argument is an integer if its trimmed text is a
numeral and the value is in range; any other argument is the text as it stands, with its white space
and whatever number of digits it has.
-/

namespace Smil.Text

variable {p : Char → Bool} {cs run rest before core after : List Char} {negative : Bool}

/-! ### Runs of a class -/

/-- The longest run of characters of a class that a text starts with, and what follows. -/
structure IsRun (p : Char → Bool) (cs run rest : List Char) : Prop where
  split : cs = run ++ rest
  inside : ∀ c ∈ run, p c = true
  behind : ∀ c ∈ rest.head?, p c = false

/-- The characters of a class in front are a run. -/
theorem isRun_takeWhile (p : Char → Bool) (cs : List Char) :
    IsRun p cs (cs.takeWhile p) (cs.dropWhile p) where
  split := List.takeWhile_append_dropWhile.symm
  inside := List.all_eq_true.mp List.all_takeWhile
  behind := by
    intro c hc
    have hhead := List.head?_dropWhile_not p cs
    rw [Option.mem_def.mp hc] at hhead
    exact hhead

/-- Behind a run stands what is left when its class is dropped. -/
theorem IsRun.dropWhile_eq (h : IsRun p cs run rest) : cs.dropWhile p = rest := by
  rw [h.split, List.dropWhile_append_of_pos h.inside]
  cases rest with
  | nil => rfl
  | cons c rest =>
    have hc : p c = false := h.behind c rfl
    rw [List.dropWhile_cons_of_neg (Bool.eq_false_iff.mp hc)]

/-- A run is what is taken of its class. -/
theorem IsRun.takeWhile_eq (h : IsRun p cs run rest) : cs.takeWhile p = run := by
  have hsplit := (isRun_takeWhile p cs).split
  rw [h.dropWhile_eq, h.split, List.append_cancel_right_eq] at hsplit
  rw [h.split]
  exact hsplit.symm

/-! ### Signs -/

/-- One sign is taken from the front of a text if there is one, and whether it is a minus. -/
inductive TakesSign : List Char → Bool → List Char → Prop where
  | minus (rest : List Char) : TakesSign ('-' :: rest) true rest
  | plus (rest : List Char) : TakesSign ('+' :: rest) false rest
  | unsigned {cs : List Char} (h : ∀ c ∈ cs.head?, c ≠ '-' ∧ c ≠ '+') : TakesSign cs false cs

/-- What is split off is one sign at most. -/
theorem takesSign_splitSign (cs : List Char) : TakesSign cs (splitSign cs).1 (splitSign cs).2 := by
  unfold splitSign
  split
  · exact .minus _
  · exact .plus _
  · rename_i hminus hplus
    refine .unsigned ?_
    intro c hc
    obtain ⟨rest, rfl⟩ := List.head?_eq_some_iff.mp (Option.mem_def.mp hc)
    exact ⟨fun h => hminus rest (by rw [h]), fun h => hplus rest (by rw [h])⟩

/-- There is one way only to take a sign. -/
theorem TakesSign.splitSign_eq (h : TakesSign cs negative rest) :
    splitSign cs = (negative, rest) := by
  cases h with
  | minus | plus => rfl
  | unsigned h =>
    cases cs with
    | nil => rfl
    | cons c cs =>
      obtain ⟨hminus, hplus⟩ := h c rfl
      simp [splitSign, hminus, hplus]

/-! ### White space around a text -/

/-- A text without the white space on both sides. -/
structure IsTrimmed (cs before core after : List Char) : Prop where
  split : cs = before ++ core ++ after
  blank_before : ∀ c ∈ before, isBlank c = true
  blank_after : ∀ c ∈ after, isBlank c = true
  first : ∀ c ∈ core.head?, isBlank c = false
  last : ∀ c ∈ core.getLast?, isBlank c = false

/-- Trimming takes white space off both ends and nothing else. -/
theorem exists_isTrimmed (cs : List Char) :
    ∃ before after, IsTrimmed cs before (trimChars cs) after := by
  have hfront := isRun_takeWhile isBlank cs
  have hback := isRun_takeWhile isBlank (cs.dropWhile isBlank).reverse
  have hsplit : cs.dropWhile isBlank =
      trimChars cs ++ ((cs.dropWhile isBlank).reverse.takeWhile isBlank).reverse := by
    have hreverse := congrArg List.reverse hback.split
    rw [List.reverse_reverse, List.reverse_append] at hreverse
    exact hreverse
  refine ⟨cs.takeWhile isBlank, ((cs.dropWhile isBlank).reverse.takeWhile isBlank).reverse,
    ?_, hfront.inside, ?_, ?_, ?_⟩
  · rw [List.append_assoc, ← hsplit]
    exact hfront.split
  · intro c hc
    exact hback.inside c (List.mem_reverse.mp hc)
  · intro c hc
    refine hfront.behind c ?_
    rw [hsplit, List.head?_append, Option.mem_def.mp hc]
    rfl
  · intro c hc
    refine hback.behind c ?_
    rw [← List.getLast?_reverse]
    exact hc

/-- There is one way only to trim. -/
theorem IsTrimmed.trimChars_eq (h : IsTrimmed cs before core after) : trimChars cs = core := by
  by_cases hcore : core = []
  · -- nothing but white space: all of it is dropped in front
    have hall : IsRun isBlank cs cs [] := by
      refine ⟨(List.append_nil cs).symm, ?_, fun c hc => nomatch hc⟩
      intro c hc
      rw [h.split, hcore, List.append_nil, List.mem_append] at hc
      exact hc.elim (h.blank_before c) (h.blank_after c)
    rw [trimChars, trimStart, hall.dropWhile_eq, hcore]
    rfl
  · have hfront : IsRun isBlank cs before (core ++ after) := by
      refine ⟨by rw [h.split, List.append_assoc], h.blank_before, ?_⟩
      obtain ⟨c, tail, rfl⟩ := List.exists_cons_of_ne_nil hcore
      exact h.first
    have hback : IsRun isBlank (core ++ after).reverse after.reverse core.reverse := by
      refine ⟨List.reverse_append, ?_, ?_⟩
      · intro c hc
        exact h.blank_after c (List.mem_reverse.mp hc)
      · rw [List.head?_reverse]
        exact h.last
    rw [trimChars, trimStart, trimEnd, hfront.dropWhile_eq, hback.dropWhile_eq,
      List.reverse_reverse]

/-! ### Numerals -/

/-- One sign at most and then digits, one at least, with the value that they stand for. -/
def IsNumeral (cs : List Char) (value : Int) : Prop :=
  ∃ negative digits, TakesSign cs negative digits ∧ digits ≠ [] ∧
    (∀ c ∈ digits, isDigit c = true) ∧ value = signed negative (Nat.ofDigitChars 10 digits 0)

/-- The exact reader takes the numerals whose value is in range. -/
theorem readInt64?_eq_some_iff_isNumeral {n : Int64} :
    readInt64? cs = some n ↔ IsNumeral cs n.toInt := by
  rw [readInt64?_eq_some_iff]
  constructor
  · rintro ⟨hsome, hdigits, hvalue⟩
    exact ⟨_, _, takesSign_splitSign cs, hsome, hdigits, hvalue⟩
  · rintro ⟨negative, digits, hsign, hsome, hdigits, hvalue⟩
    rw [hsign.splitSign_eq]
    exact ⟨hsome, hdigits, hvalue⟩

/-- White space around a written integer is all that trimming takes from it. -/
theorem isTrimmed_decimal (n : Int) (hbefore : ∀ c ∈ before, isBlank c = true)
    (hafter : ∀ c ∈ after, isBlank c = true) :
    IsTrimmed (before ++ (decimal n).toList ++ after) before (decimal n).toList after := by
  obtain ⟨_, _, htrimmed⟩ := exists_isTrimmed (decimal n).toList
  rw [trimChars_decimal] at htrimmed
  exact ⟨rfl, hbefore, hafter, htrimmed.first, htrimmed.last⟩

end Smil.Text

namespace Smil.Value

open Text (IsTrimmed IsNumeral isBlank)

variable {arg : String} {before core after : List Char}

/-- An argument is stored as an integer exactly if its core is a numeral of it. -/
theorem ofInput_eq_integer_iff_isNumeral (h : IsTrimmed arg.toList before core after) {n : Int64} :
    ofInput arg = integer n ↔ IsNumeral core n.toInt := by
  rw [ofInput_eq_integer_iff, h.trimChars_eq, Text.readInt64?_eq_some_iff_isNumeral]

/-- An argument that is no integer is the text as it stands. -/
theorem ofInput_eq_text_iff : ofInput arg = text arg ↔ ∀ n, ofInput arg ≠ integer n := by
  unfold ofInput
  cases Text.readInt64? (Text.trimChars arg.toList) with
  | some n => exact iff_of_false (fun h => nomatch h) (fun h => h n rfl)
  | none => exact iff_of_true rfl (fun n h => nomatch h)

/-- A numeral in range would be the integer of its value, so a text that stays has none. -/
theorem ofInput_eq_text_iff_isNumeral (h : IsTrimmed arg.toList before core after) :
    ofInput arg = text arg ↔ ∀ value, IsNumeral core value →
      value < Int64.minValue.toInt ∨ Int64.maxValue.toInt < value := by
  rw [ofInput_eq_text_iff]
  constructor
  · intro hnone value hnumeral
    refine Decidable.or_iff_not_imp_left.mpr fun hlow => ?_
    refine Int.not_le.mp fun hhigh => hnone (Int64.ofInt value) ?_
    rw [Int64.toInt_minValue] at hlow
    rw [Int64.toInt_maxValue] at hhigh
    rw [ofInput_eq_integer_iff_isNumeral h, Int64.toInt_ofInt_of_le (by omega) (by omega)]
    exact hnumeral
  · intro hbeyond n hn
    have hlow := n.minValue_le_toInt
    have hhigh := n.toInt_le
    have hvalue := hbeyond n.toInt ((ofInput_eq_integer_iff_isNumeral h).mp hn)
    omega

/-- A written integer is read back from among white space. -/
theorem ofInput_toText_padded (n : Int64) {before after : String}
    (hbefore : ∀ c ∈ before.toList, isBlank c = true)
    (hafter : ∀ c ∈ after.toList, isBlank c = true) :
    ofInput (before ++ (integer n).toText ++ after) = integer n := by
  have htrimmed : IsTrimmed (before ++ (integer n).toText ++ after).toList before.toList
      (integer n).toText.toList after.toList := by
    rw [String.toList_append, String.toList_append]
    exact Text.isTrimmed_decimal n.toInt hbefore hafter
  rw [ofInput_eq_integer_iff_isNumeral htrimmed, ← Text.readInt64?_eq_some_iff_isNumeral]
  exact Text.readInt64?_decimal n

/-- How arguments are typed. The argument without the white space around it is an integer if it is a
numeral with this value, and it stays the text that it is, white space included, exactly if it is no
numeral or has a value out of range. In particular the text of every integer is read back, whatever
white space stands around it. -/
theorem ofInput_typed (arg : String) :
    (∃ before core after, IsTrimmed arg.toList before core after ∧
      (∀ n, ofInput arg = integer n ↔ IsNumeral core n.toInt) ∧
      (ofInput arg = text arg ↔ ∀ value, IsNumeral core value →
        value < Int64.minValue.toInt ∨ Int64.maxValue.toInt < value)) ∧
    ∀ (n : Int64) (before after : String), (∀ c ∈ before.toList, isBlank c = true) →
      (∀ c ∈ after.toList, isBlank c = true) →
      ofInput (before ++ (integer n).toText ++ after) = integer n := by
  obtain ⟨before, after, htrimmed⟩ := Text.exists_isTrimmed arg.toList
  refine ⟨⟨before, _, after, htrimmed, ?_, ofInput_eq_text_iff_isNumeral htrimmed⟩, ?_⟩
  · intro n
    exact ofInput_eq_integer_iff_isNumeral htrimmed
  · intro n before after hbefore hafter
    exact ofInput_toText_padded n hbefore hafter

/-- White space of other scripts, a sign and leading zeros belong to a numeral or around it; a value
that is one too large, and a sign too many, do not make an integer. -/
theorem ofInput_typed_padded :
    ofInput "\u3000-0042\n" = integer (-42) ∧
      ofInput " 9223372036854775808 " = text " 9223372036854775808 " ∧
      ofInput "+-7" = text "+-7" ∧
      (∀ c ∈ "\u2003\t".toList, isBlank c = true) ∧ (∀ c ∈ "\u00a0".toList, isBlank c = true) ∧
      ofInput ("\u2003\t" ++ (integer Int64.minValue).toText ++ "\u00a0") =
        integer Int64.minValue := by
  have hbefore : ∀ c ∈ "\u2003\t".toList, isBlank c = true :=
    List.all_eq_true.mp (by decide +kernel)
  have hafter : ∀ c ∈ "\u00a0".toList, isBlank c = true :=
    List.all_eq_true.mp (by decide +kernel)
  exact ⟨by decide +kernel, by decide +kernel, by decide +kernel, hbefore, hafter,
    (ofInput_typed "").2 Int64.minValue _ _ hbefore hafter⟩

end Smil.Value
