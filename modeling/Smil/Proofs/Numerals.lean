import Smil.Value.Basic

/-!
# Reading numerals

Two readers take integers from texts. The exact reader accepts a trimmed text that is a numeral in
range, and nothing else. The leading reader takes the digits that a text starts with, cuts their
value at the largest integer, and applies the sign afterwards. Both are compared with the exact
value of a run of digits.

Whatever the exact reader accepts, the leading reader reads in the same way, with one exception: the
least integer has no positive counterpart, so its digits are cut before the minus sign is applied,
and it is read as the integer behind it.
-/

namespace Smil.Text

/-! ### Runs of digits -/

/-- Cutting the value at every digit is cutting it once at the end. -/
theorem valueUpTo_eq_min (cap : Nat) (digits : List Char) :
    valueUpTo cap digits = min cap (Nat.ofDigitChars 10 digits 0) := by
  suffices hfrom : ∀ start value, start = min cap value →
      digits.foldl (fun value d => min cap (10 * value + digitValue d)) start =
        min cap (Nat.ofDigitChars 10 digits value) from hfrom 0 0 (Nat.min_zero cap).symm
  induction digits with
  | nil => exact fun _ _ h => h
  | cons d digits ih =>
    intro start value hstart
    rw [List.foldl_cons, Nat.ofDigitChars_cons]
    apply ih
    unfold digitValue
    omega

/-- The digits have ten character codes in a row. -/
theorem isDigit_iff {c : Char} : isDigit c = true ↔ 48 ≤ c.toNat ∧ c.toNat ≤ 57 := by
  simp only [isDigit, Bool.and_eq_true, decide_eq_true_eq, Char.le_def, UInt32.le_iff_toNat_le]
  rfl

/-- The digits of the library are digits. -/
theorem isDigit_of_isDigit {c : Char} (h : c.isDigit = true) : isDigit c = true := by
  simp only [Char.isDigit, Bool.and_eq_true, decide_eq_true_eq, ge_iff_le,
    UInt32.le_iff_toNat_le] at h
  exact isDigit_iff.mpr h

/-- The white space of ASCII comes before the digits, and all other white space behind them. -/
theorem not_isBlank_of_isDigit {c : Char} (h : isDigit c = true) : isBlank c = false := by
  have hrange := isDigit_iff.mp h
  unfold Char.toNat at hrange
  simp only [isBlank, Bool.or_eq_false_iff, Bool.and_eq_false_iff, decide_eq_false_iff_not,
    beq_eq_false_iff_ne, ne_eq, UInt32.le_iff_toNat_le, ← UInt32.toNat_inj, UInt32.reduceToNat]
  omega

/-- A run of digits ends where white space begins. -/
theorem takeWhile_isDigit_append {digits blanks : List Char}
    (hdigits : ∀ c ∈ digits, isDigit c = true) (hblanks : ∀ c ∈ blanks, isBlank c = true) :
    (digits ++ blanks).takeWhile isDigit = digits := by
  rw [List.takeWhile_append_of_pos hdigits]
  cases blanks with
  | nil => simp
  | cons c blanks =>
    have hc : ¬ isDigit c = true := by
      intro hdigit
      have hblank := hblanks c List.mem_cons_self
      rw [not_isBlank_of_isDigit hdigit] at hblank
      cases hblank
    rw [List.takeWhile_cons_of_neg hc, List.append_nil]

/-! ### Signs -/

/-- The integer with this sign and magnitude. -/
def signed (negative : Bool) (magnitude : Nat) : Int :=
  if negative then -magnitude else magnitude

/-- A sign stands in front, whatever follows. -/
theorem splitSign_append {cs : List Char} (h : cs ≠ []) (tail : List Char) :
    splitSign (cs ++ tail) = ((splitSign cs).1, (splitSign cs).2 ++ tail) := by
  cases cs with
  | nil => exact absurd rfl h
  | cons c cs =>
    by_cases hminus : c = '-'
    · subst hminus
      rfl
    · by_cases hplus : c = '+'
      · subst hplus
        rfl
      · simp [splitSign, hminus, hplus]

/-- Digits are no signs. -/
theorem splitSign_of_digits {digits : List Char} (h : ∀ c ∈ digits, isDigit c = true) :
    splitSign digits = (false, digits) := by
  unfold splitSign
  split
  · exact absurd (h '-' List.mem_cons_self) (by decide)
  · exact absurd (h '+' List.mem_cons_self) (by decide)
  · rfl

/-! ### The two readers -/

/-- Digits, and one of them at least. -/
theorem digits_guard_iff {digits : List Char} :
    (digits.isEmpty || !digits.all isDigit) = true ↔
      ¬ (digits ≠ [] ∧ ∀ c ∈ digits, isDigit c = true) := by
  rw [Bool.or_eq_true, List.isEmpty_iff, Bool.not_eq_true', ← Bool.not_eq_true, List.all_eq_true]
  exact ⟨fun h hall => h.elim hall.1 fun hnot => hnot hall.2,
    fun h => Decidable.or_iff_not_imp_left.mpr fun hne hall => h ⟨hne, hall⟩⟩

/-- An integer in range is stored as it is. -/
theorem some_ofInt_eq_iff {value : Int} {n : Int64} (hlow : -9223372036854775808 ≤ value)
    (hhigh : value < 9223372036854775808) :
    some (Int64.ofInt value) = some n ↔ n.toInt = value := by
  rw [Option.some_inj, ← Int64.toInt_inj, Int64.toInt_ofInt_of_le (by omega) (by omega)]
  exact eq_comm

/-- The exact reader takes a sign and digits, and the integer is the one that they stand for. -/
theorem readInt64?_eq_some_iff {cs : List Char} {n : Int64} :
    readInt64? cs = some n ↔
      (splitSign cs).2 ≠ [] ∧ (∀ c ∈ (splitSign cs).2, isDigit c = true) ∧
        n.toInt = signed (splitSign cs).1 (Nat.ofDigitChars 10 (splitSign cs).2 0) := by
  have hlow := n.le_toInt
  have hhigh := n.toInt_lt
  unfold readInt64? signed
  generalize splitSign cs = split
  obtain ⟨negative, digits⟩ := split
  dsimp only
  rw [valueUpTo_eq_min, ← and_assoc]
  generalize Nat.ofDigitChars 10 digits 0 = value
  by_cases hnumeral : digits ≠ [] ∧ ∀ c ∈ digits, isDigit c = true
  · rw [if_neg (fun h => digits_guard_iff.mp h hnumeral), and_iff_right hnumeral]
    unfold maxInt64
    -- a value beyond the range is the value of no integer
    have hbeyond : ∀ {x : Int}, n.toInt ≠ x → (none = some n ↔ n.toInt = x) := by
      intro x hx
      exact ⟨fun h => (Option.some_ne_none n h.symm).elim, fun h => (hx h).elim⟩
    cases negative with
    | true =>
      rw [if_pos rfl, if_pos rfl]
      split
      · rw [some_ofInt_eq_iff (by omega) (by omega)]
        omega
      · exact hbeyond (by omega)
    | false =>
      rw [if_neg Bool.false_ne_true, if_neg Bool.false_ne_true]
      split
      · rw [← Int64.ofInt_eq_ofNat, some_ofInt_eq_iff (by omega) (by omega)]
        omega
      · exact hbeyond (by omega)
  · rw [if_pos (digits_guard_iff.mpr hnumeral)]
    exact ⟨fun h => (Option.some_ne_none n h.symm).elim, fun h => (hnumeral h.1).elim⟩

/-- The leading reader takes the value of the digits up to the largest integer, with the sign that
stands in front. -/
theorem toInt_leadingInt64 (cs : List Char) :
    (leadingInt64 cs).toInt =
      signed (splitSign (trimStart cs)).1
        (min maxInt64
          (Nat.ofDigitChars 10 ((splitSign (trimStart cs)).2.takeWhile isDigit) 0)) := by
  unfold leadingInt64 signed
  generalize splitSign (trimStart cs) = split
  obtain ⟨negative, rest⟩ := split
  simp only [valueUpTo_eq_min]
  have hle := Nat.min_le_left maxInt64 (Nat.ofDigitChars 10 (rest.takeWhile isDigit) 0)
  generalize min maxInt64 (Nat.ofDigitChars 10 (rest.takeWhile isDigit) 0) = value at *
  unfold maxInt64 at hle
  cases negative with
  | true => exact Int64.toInt_neg_ofNat_of_le (by omega)
  | false => exact Int64.toInt_ofNat_of_lt (by omega)

/-! ### Trimmed texts -/

/-- What trimming takes from the end is white space. -/
theorem exists_trimStart_eq (cs : List Char) :
    ∃ blanks, trimStart cs = trimChars cs ++ blanks ∧ ∀ c ∈ blanks, isBlank c = true := by
  refine ⟨((trimStart cs).reverse.takeWhile isBlank).reverse, ?_, ?_⟩
  · rw [trimChars, trimEnd, ← List.reverse_append, List.takeWhile_append_dropWhile,
      List.reverse_reverse]
  · intro c hc
    exact List.all_eq_true.mp List.all_takeWhile c (List.mem_reverse.mp hc)

/-- A text without white space stays as it is. -/
theorem trimChars_of_forall {cs : List Char} (h : ∀ c ∈ cs, isBlank c = false) :
    trimChars cs = cs := by
  have hdrop : ∀ xs : List Char, (∀ c ∈ xs, isBlank c = false) → xs.dropWhile isBlank = xs := by
    intro xs hxs
    cases xs with
    | nil => rfl
    | cons x xs =>
      rw [List.dropWhile_cons_of_neg]
      rw [hxs x List.mem_cons_self]
      exact Bool.false_ne_true
  rw [trimChars, trimEnd, trimStart, hdrop cs h, hdrop cs.reverse, List.reverse_reverse]
  intro c hc
  exact h c (List.mem_reverse.mp hc)

/-- The leading reader sees the numeral that the exact reader accepts once it is trimmed, and cuts
its value. -/
theorem toInt_leadingInt64_of_read {cs : List Char} {n : Int64}
    (h : readInt64? (trimChars cs) = some n) :
    (leadingInt64 cs).toInt = max n.toInt (-maxInt64) := by
  obtain ⟨hne, hdigits, hn⟩ := readInt64?_eq_some_iff.mp h
  obtain ⟨blanks, htrim, hblanks⟩ := exists_trimStart_eq cs
  have hsome : trimChars cs ≠ [] := by
    intro hnil
    rw [hnil] at hne
    exact hne rfl
  have hhigh := n.toInt_lt
  rw [toInt_leadingInt64, htrim, splitSign_append hsome,
    takeWhile_isDigit_append hdigits hblanks, hn]
  rw [hn] at hhigh
  unfold signed maxInt64 at *
  split
  · omega
  · rename_i hpositive
    rw [if_neg hpositive] at hhigh
    omega

/-! ### Written integers -/

/-- The decimal of a number is made of digits. -/
theorem isDigit_of_mem_toDigits {n : Nat} {c : Char} (h : c ∈ Nat.toDigits 10 n) :
    isDigit c = true :=
  isDigit_of_isDigit (Nat.isDigit_of_mem_toDigits (by decide) (by decide) h)

/-- The decimal text of an integer is its digits behind a minus sign, or the digits alone. -/
theorem toList_decimal (n : Int) :
    (decimal n).toList = (if n < 0 then ['-'] else []) ++ Nat.toDigits 10 n.natAbs := by
  unfold decimal
  split
  · rw [String.toList_append, Nat.toList_repr]
    rfl
  · exact Nat.toList_repr

/-- A decimal has a minus sign exactly if the integer is negative. -/
theorem splitSign_decimal (n : Int) :
    splitSign (decimal n).toList = (decide (n < 0), Nat.toDigits 10 n.natAbs) := by
  rw [toList_decimal]
  by_cases hn : n < 0
  · rw [if_pos hn, decide_eq_true hn]
    rfl
  · rw [if_neg hn, decide_eq_false hn, List.nil_append,
      splitSign_of_digits fun _ => isDigit_of_mem_toDigits]

/-- A written integer has no white space. -/
theorem trimChars_decimal (n : Int) : trimChars (decimal n).toList = (decimal n).toList := by
  apply trimChars_of_forall
  intro c hc
  rw [toList_decimal, List.mem_append] at hc
  rcases hc with hsign | hdigit
  · split at hsign
    · rw [List.mem_singleton.mp hsign]
      decide
    · cases hsign
  · exact not_isBlank_of_isDigit (isDigit_of_mem_toDigits hdigit)

/-- The exact reader reads what is written. -/
theorem readInt64?_decimal (n : Int64) : readInt64? (decimal n.toInt).toList = some n := by
  rw [readInt64?_eq_some_iff, splitSign_decimal]
  refine ⟨Nat.toDigits_ne_nil, fun _ => isDigit_of_mem_toDigits, ?_⟩
  rw [Nat.ofDigitChars_ten_toDigits, signed]
  by_cases hn : n.toInt < 0
  · rw [decide_eq_true hn, if_pos rfl]
    omega
  · rw [decide_eq_false hn, if_neg Bool.false_ne_true]
    omega

end Smil.Text

namespace Smil.Value

/-- An argument is stored as an integer exactly if the exact reader accepts it. -/
theorem ofInput_eq_integer_iff {arg : String} {n : Int64} :
    ofInput arg = integer n ↔ Text.readInt64? (Text.trimChars arg.toList) = some n := by
  unfold ofInput
  cases Text.readInt64? (Text.trimChars arg.toList) with
  | some m => rw [integer.injEq, Option.some_inj]
  | none =>
    constructor
    · intro h
      cases h
    · intro h
      cases h

/-- The text of an integer, taken as an argument, is the integer again. -/
theorem ofInput_toText (n : Int64) : ofInput (integer n).toText = integer n := by
  rw [ofInput_eq_integer_iff, toText, Text.trimChars_decimal]
  exact Text.readInt64?_decimal n

/-- What the text of an argument starts with is the integer that the argument is, unless this is the
least one. -/
theorem toInteger_text_of_ofInput {arg : String} {n : Int64} (h : ofInput arg = integer n) :
    (text arg).toInteger = if n = Int64.minValue then Int64.minValue + 1 else n := by
  have hread := Text.toInt_leadingInt64_of_read (ofInput_eq_integer_iff.mp h)
  have hlow := n.le_toInt
  rw [← Int64.toInt_inj]
  refine hread.trans ?_
  split
  · rename_i hleast
    rw [hleast]
    decide
  · rename_i hother
    rw [← Int64.toInt_inj, Int64.toInt_minValue] at hother
    unfold Text.maxInt64
    omega

/-- The two readers of integers. Where an argument is an integer, its text as a condition stands for
the same integer exactly if this is not the least one, which is read as the integer behind it. The
same holds of the decimal text of every integer. -/
theorem readers_agree (arg : String) (n : Int64) :
    (ofInput arg = integer n →
      ((text arg).toInteger = n ↔ n ≠ Int64.minValue) ∧
      (n = Int64.minValue → (text arg).toInteger = Int64.minValue + 1)) ∧
    ((text (integer n).toText).toInteger = n ↔ n ≠ Int64.minValue) ∧
    (n = Int64.minValue → (text (integer n).toText).toInteger = Int64.minValue + 1) := by
  have hagree : ∀ arg, ofInput arg = integer n →
      ((text arg).toInteger = n ↔ n ≠ Int64.minValue) ∧
      (n = Int64.minValue → (text arg).toInteger = Int64.minValue + 1) := by
    intro arg h
    rw [toInteger_text_of_ofInput h]
    by_cases hleast : n = Int64.minValue
    · rw [if_pos hleast, hleast]
      exact ⟨iff_of_false (by decide) (not_not_intro rfl), fun _ => rfl⟩
    · rw [if_neg hleast]
      exact ⟨iff_of_true rfl hleast, fun h => absurd h hleast⟩
  exact ⟨hagree arg, hagree _ (ofInput_toText n)⟩

/-- White space, a plus sign and leading zeros do not make a difference; the least integer does. -/
theorem readers_agree_padded :
    ofInput " +007\t" = integer 7 ∧ (text " +007\t").toInteger = 7 ∧
      ofInput " -9223372036854775808 " = integer Int64.minValue ∧
      (text " -9223372036854775808 ").toInteger = Int64.minValue + 1 := by
  have hseven : ofInput " +007\t" = integer 7 := by decide +kernel
  have hleast : ofInput " -9223372036854775808 " = integer Int64.minValue := by decide +kernel
  exact ⟨hseven, ((readers_agree _ 7).1 hseven).1.mpr (by decide), hleast,
    ((readers_agree _ Int64.minValue).1 hleast).2 rfl⟩

/-- The least integer is an argument that the other reader does not read as itself, and its decimal
text is not read back. -/
theorem readers_differ_at_least :
    ofInput "-9223372036854775808" = integer Int64.minValue ∧
      (integer Int64.minValue).toText = "-9223372036854775808" ∧
      (text "-9223372036854775808").toInteger = -9223372036854775807 ∧
      (text "-9223372036854775808").toInteger ≠ Int64.minValue := by
  decide +kernel

end Smil.Value
