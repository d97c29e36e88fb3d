import Smil.Proofs.NumeralShapes
import Smil.Proofs.Words

/-!
# The digit loop

A machine reads the integer that a text starts with from the bytes of the text. It looks at the
first byte for a sign and cuts the text behind it, takes the bytes that are digits, and for each of
them multiplies by ten and adds the digit. Both steps saturate on their own. A cut is defined only
where a character begins or the text ends, a difference of bytes only if it is not negative, and the
opposite of an integer only if it is in range.

Every one of these steps is defined, for every text and every number of digits: a sign is a
character of one byte, no byte of another character looks like a digit, and the value never falls
below zero. What the loop leaves is the exact value of the digits, cut once: saturation is not
undone by the digits that follow.
-/

namespace Smil

namespace Text

/-! ### The reader in these steps -/

/-- The bytes of the ten digits. -/
def isDigitByte (byte : UInt8) : Bool :=
  48 ≤ byte && byte ≤ 57

/-- One round of the loop. -/
def takeDigit (value : Int64) (byte : UInt8) : Option Int64 := do
  let digit ← Word.difference byte 48
  some (Word.saturatingSum (Word.saturatingProduct value 10) (Int64.ofNat digit.toNat))

/-- Cuts the text behind a sign, and says whether the sign is a minus. -/
def splitSignInWords (s : String) : Option (Bool × String) :=
  match (bytesOf s).head? with
  | some 45 => (Word.textFrom s 1).map (true, ·)
  | some 43 => (Word.textFrom s 1).map (false, ·)
  | _ => some (false, s)

/-- Reads the integer that a text starts with. -/
def leadingInWords (s : String) : Option Int64 := do
  let split ← splitSignInWords (String.ofList (trimStart s.toList))
  let value ← ((bytesOf split.2).takeWhile isDigitByte).foldlM takeDigit 0
  if split.1 then Word.opposite value else some value

/-! ### Bytes of characters -/

variable {cs rest : List Char} {negative : Bool} {c : Char} {value : Nat}

/-- A character of ASCII is a byte. -/
theorem toNat_byte (hc : c.toNat ≤ 127) : (UInt8.ofNat c.toNat).toNat = c.toNat :=
  UInt8.toNat_ofNat_of_lt' (Nat.lt_of_le_of_lt hc (by decide))

/-- A character of ASCII is its own byte, and the first byte of any other is beyond ASCII. -/
theorem exists_encode_eq_cons (c : Char) :
    ∃ byte bytes, String.utf8EncodeChar c = byte :: bytes ∧
      (byte = UInt8.ofNat c.toNat ∧ c.toNat ≤ 127 ∧ bytes = [] ∨
        127 < byte.toNat ∧ 127 < c.toNat) := by
  have hbyte : ∀ {n : Nat}, 127 < n → n < 256 → 127 < (UInt8.ofNat n).toNat := by
    intro n hlow hhigh
    rwa [UInt8.toNat_ofNat_of_lt' hhigh]
  fun_cases String.utf8EncodeChar c with
  | case1 v h => exact ⟨_, _, rfl, .inl ⟨rfl, h, rfl⟩⟩
  | case2 v h => exact ⟨_, _, rfl, .inr ⟨hbyte (by omega) (by omega), Nat.not_le.mp h⟩⟩
  | case3 v h => exact ⟨_, _, rfl, .inr ⟨hbyte (by omega) (by omega), Nat.not_le.mp h⟩⟩
  | case4 v h => exact ⟨_, _, rfl, .inr ⟨hbyte (by omega) (by omega), Nat.not_le.mp h⟩⟩

/-- A byte of ASCII stands in front exactly where its character does. -/
theorem head?_bytesOf_eq_some_iff (hc : c.toNat ≤ 127) :
    (bytesOf (String.ofList cs)).head? = some (UInt8.ofNat c.toNat) ↔ cs.head? = some c := by
  rw [bytesOf_ofList]
  cases cs with
  | nil => exact iff_of_false (fun h => nomatch h) (fun h => nomatch h)
  | cons d cs =>
    obtain ⟨byte, bytes, hencode, hbyte⟩ := exists_encode_eq_cons d
    rw [List.flatMap_cons, hencode, List.cons_append, List.head?_cons, List.head?_cons,
      Option.some_inj, Option.some_inj]
    have hnat : (UInt8.ofNat c.toNat).toNat = c.toNat := toNat_byte hc
    rcases hbyte with ⟨rfl, hascii, rfl⟩ | ⟨hbeyond, hother⟩
    · rw [← UInt8.toNat_inj, hnat, toNat_byte hascii, Char.toNat_inj]
    · refine iff_of_false ?_ ?_
      · intro h
        rw [h, hnat] at hbeyond
        omega
      · intro h
        rw [h] at hother
        omega

/-- The bytes of digits are ten in a row. -/
theorem isDigitByte_iff {byte : UInt8} :
    isDigitByte byte = true ↔ 48 ≤ byte.toNat ∧ byte.toNat ≤ 57 := by
  simp only [isDigitByte, Bool.and_eq_true, decide_eq_true_eq, UInt8.le_iff_toNat_le]
  rfl

/-- The bytes of digits in front are the digits in front. -/
theorem takeWhile_isDigitByte (cs : List Char) :
    (bytesOf (String.ofList cs)).takeWhile isDigitByte =
      (cs.takeWhile isDigit).map fun c => UInt8.ofNat c.toNat := by
  rw [bytesOf_ofList]
  induction cs with
  | nil => rfl
  | cons c cs ih =>
    obtain ⟨byte, bytes, hencode, hbyte⟩ := exists_encode_eq_cons c
    have hsame : isDigitByte byte = true ↔ isDigit c = true := by
      rw [isDigitByte_iff, isDigit_iff]
      rcases hbyte with ⟨rfl, hascii, -⟩ | ⟨hbeyond, hother⟩
      · rw [toNat_byte hascii]
      · omega
    rw [List.flatMap_cons, hencode, List.cons_append]
    by_cases hdigit : isDigit c = true
    · -- a digit is a character of ASCII, so the next byte is that of the next character
      obtain ⟨-, hhigh⟩ := isDigit_iff.mp hdigit
      obtain ⟨rfl, -, rfl⟩ : byte = UInt8.ofNat c.toNat ∧ c.toNat ≤ 127 ∧ bytes = [] :=
        hbyte.resolve_right (by omega)
      rw [List.takeWhile_cons_of_pos (hsame.mpr hdigit), List.takeWhile_cons_of_pos hdigit,
        List.nil_append, ih, List.map_cons]
    · rw [List.takeWhile_cons_of_neg (mt hsame.mp hdigit), List.takeWhile_cons_of_neg hdigit,
        List.map_nil]

/-! ### Every step is defined -/

/-- The cut is behind the sign, and a sign has one byte. -/
theorem TakesSign.splitSignInWords_eq (h : TakesSign cs negative rest) :
    splitSignInWords (String.ofList cs) = some (negative, String.ofList rest) := by
  have hcut : ∀ sign : Char, sign.utf8Size = 1 →
      Word.textFrom (String.ofList (sign :: rest)) 1 = some (String.ofList rest) := by
    intro sign hsize
    rw [String.ofList_cons, ← hsize, ← String.utf8ByteSize_singleton]
    exact Word.textFrom_append _ _
  unfold splitSignInWords
  cases h with
  | minus =>
    rw [(head?_bytesOf_eq_some_iff (c := '-') (by decide)).mpr rfl]
    change (Word.textFrom _ 1).map _ = _
    rw [hcut '-' (by decide)]
    rfl
  | plus =>
    rw [(head?_bytesOf_eq_some_iff (c := '+') (by decide)).mpr rfl]
    change (Word.textFrom _ 1).map _ = _
    rw [hcut '+' (by decide)]
    rfl
  | unsigned h =>
    split
    · rename_i hminus
      exact absurd rfl (h '-' ((head?_bytesOf_eq_some_iff (by decide)).mp hminus)).1
    · rename_i hplus
      exact absurd rfl (h '+' ((head?_bytesOf_eq_some_iff (by decide)).mp hplus)).2
    · rfl

/-- A natural number that saturates is cut at the largest integer. -/
theorem ofIntClamp_natCast (n : Nat) : Int64.ofIntClamp n = Int64.ofNat (min maxInt64 n) := by
  rw [← Int64.toInt_inj, Word.toInt_ofIntClamp_eq, Int64.toInt_minValue, Int64.toInt_maxValue,
    Word.toInt_ofNat_of_le (Nat.min_le_left _ _)]
  unfold maxInt64
  omega

/-- One round: the product and the sum saturate one after the other, and this is no other than to
cut the exact value once. -/
theorem takeDigit_eq (hvalue : value ≤ maxInt64) (hc : isDigit c = true) :
    takeDigit (Int64.ofNat value) (UInt8.ofNat c.toNat) =
      some (Int64.ofNat (min maxInt64 (10 * value + digitValue c))) := by
  obtain ⟨hlow, hhigh⟩ := isDigit_iff.mp hc
  have hbyte := toNat_byte (c := c) (by omega)
  have hdifference :
      Word.difference (UInt8.ofNat c.toNat) 48 = some (UInt8.ofNat c.toNat - 48) := by
    rw [Word.difference, if_neg]
    rw [UInt8.lt_iff_toNat_lt, hbyte]
    exact Nat.not_lt.mpr hlow
  have hdigit : (UInt8.ofNat c.toNat - 48).toNat = digitValue c := by
    rw [UInt8.toNat_sub_of_le, hbyte]
    · rfl
    · rw [UInt8.le_iff_toNat_le, hbyte]
      exact hlow
  have hten : (Int64.ofNat value).toInt * (10 : Int64).toInt = (10 * value : Nat) := by
    rw [Word.toInt_ofNat_of_le hvalue, Int.mul_comm]
    rfl
  have hsum : (Int64.ofNat (min maxInt64 (10 * value))).toInt + (Int64.ofNat (digitValue c)).toInt =
      (min maxInt64 (10 * value) + digitValue c : Nat) := by
    rw [Word.toInt_ofNat_of_le (Nat.min_le_left _ _), Word.toInt_ofNat_of_le]
    · rfl
    · unfold digitValue maxInt64
      omega
  have hcut : min maxInt64 (min maxInt64 (10 * value) + digitValue c) =
      min maxInt64 (10 * value + digitValue c) := by
    omega
  rw [takeDigit, hdifference, Option.bind_eq_bind, Option.bind_some, hdigit,
    Word.saturatingProduct, hten, ofIntClamp_natCast, Word.saturatingSum, hsum, ofIntClamp_natCast,
    hcut]

/-- All rounds, whatever their number. -/
theorem foldlM_takeDigit {digits : List Char} (hdigits : ∀ c ∈ digits, isDigit c = true) :
    (digits.map fun c => UInt8.ofNat c.toNat).foldlM takeDigit 0 =
      some (Int64.ofNat (valueUpTo maxInt64 digits)) := by
  suffices hfrom : ∀ value, value ≤ maxInt64 →
      (digits.map fun c => UInt8.ofNat c.toNat).foldlM takeDigit (Int64.ofNat value) =
        some (Int64.ofNat (digits.foldl
          (fun value d => min maxInt64 (10 * value + digitValue d)) value)) from
    hfrom 0 (Nat.zero_le _)
  induction digits with
  | nil => exact fun _ _ => rfl
  | cons d digits ih =>
    intro value hvalue
    rw [List.map_cons, List.foldlM_cons, takeDigit_eq hvalue (hdigits d List.mem_cons_self),
      List.foldl_cons]
    exact ih (fun c hc => hdigits c (List.mem_cons_of_mem d hc)) _ (Nat.min_le_left _ _)

/-- Every step of the machine is defined, and it reads the integer that the text starts with. -/
theorem leadingInWords_eq (s : String) : leadingInWords s = some (leadingInt64 s.toList) := by
  have hsign := takesSign_splitSign (trimStart s.toList)
  unfold leadingInWords leadingInt64
  rw [hsign.splitSignInWords_eq, Option.bind_eq_bind, Option.bind_some, takeWhile_isDigitByte,
    foldlM_takeDigit (List.all_eq_true.mp List.all_takeWhile), Option.bind_eq_bind,
    Option.bind_some]
  generalize splitSign (trimStart s.toList) = split
  obtain ⟨negative, rest⟩ := split
  cases negative with
  | false => rfl
  | true =>
    have hle : valueUpTo maxInt64 (rest.takeWhile isDigit) ≤ maxInt64 := by
      rw [valueUpTo_eq_min]
      exact Nat.min_le_left _ _
    change Word.opposite (Int64.ofNat (valueUpTo maxInt64 (rest.takeWhile isDigit))) = some _
    rw [Word.opposite, if_neg (Word.ofNat_ne_minValue hle)]
    rfl

/-! ### The integer that a text starts with -/

/-- White space, one sign at most, the longest run of digits behind it, and the rest. -/
def LeadingDigits (cs : List Char) (negative : Bool) (digits rest : List Char) : Prop :=
  ∃ blanks body unsigned, IsRun isBlank cs blanks body ∧ TakesSign body negative unsigned ∧
    IsRun isDigit unsigned digits rest

variable {digits : List Char}

/-- The leading digits of a text are found behind white space and a sign. -/
theorem leadingDigits_iff :
    LeadingDigits cs negative digits rest ↔
      (splitSign (trimStart cs)).1 = negative ∧
        (splitSign (trimStart cs)).2.takeWhile isDigit = digits ∧
        (splitSign (trimStart cs)).2.dropWhile isDigit = rest := by
  constructor
  · rintro ⟨blanks, body, unsigned, hblanks, hsign, hdigits⟩
    rw [trimStart, hblanks.dropWhile_eq, hsign.splitSign_eq]
    exact ⟨rfl, hdigits.takeWhile_eq, hdigits.dropWhile_eq⟩
  · rintro ⟨rfl, rfl, rfl⟩
    exact ⟨_, _, _, isRun_takeWhile isBlank cs, takesSign_splitSign _, isRun_takeWhile isDigit _⟩

instance : Decidable (LeadingDigits cs negative digits rest) :=
  decidable_of_iff' _ leadingDigits_iff

/-- The reader takes the exact value of the digits, cut once. -/
theorem LeadingDigits.toInt_leadingInt64 (h : LeadingDigits cs negative digits rest) :
    (leadingInt64 cs).toInt = signed negative (min (Nat.ofDigitChars 10 digits 0) maxInt64) := by
  obtain ⟨hsign, hdigits, -⟩ := leadingDigits_iff.mp h
  rw [Text.toInt_leadingInt64, hsign, hdigits, Nat.min_comm]

end Text

namespace Value

open Text (LeadingDigits leadingInWords)

/-- The integer view of a text. Behind white space and one sign at most stands a run of digits,
which may be empty; its exact value is cut at the largest integer and has the sign. Texts with the
same sign and digits have the same integer, whatever follows the digits. Every step of a machine on
the way is defined. -/
theorem toInteger_text_saturates (s : String) :
    (∃ negative digits rest, LeadingDigits s.toList negative digits rest) ∧
    (∀ negative digits rest, LeadingDigits s.toList negative digits rest →
      (text s).toInteger.toInt =
        Text.signed negative (min (Nat.ofDigitChars 10 digits 0) Text.maxInt64) ∧
      ∀ (t : String) (other : List Char), LeadingDigits t.toList negative digits other →
        (text t).toInteger = (text s).toInteger) ∧
    leadingInWords s = some (text s).toInteger := by
  refine ⟨⟨_, _, _, Text.leadingDigits_iff.mpr ⟨rfl, rfl, rfl⟩⟩, ?_, Text.leadingInWords_eq s⟩
  intro negative digits rest hs
  refine ⟨hs.toInt_leadingInt64, ?_⟩
  intro t other ht
  rw [← Int64.toInt_inj]
  exact ht.toInt_leadingInt64.trans hs.toInt_leadingInt64.symm

/-- Twenty digits are cut, and it does not matter that letters of more than one byte and another
digit follow. -/
theorem toInteger_text_saturates_beyond :
    LeadingDigits "\u3000-99999999999999999999é7".toList true (List.replicate 20 '9') ['é', '7'] ∧
      LeadingDigits "-99999999999999999999".toList true (List.replicate 20 '9') [] ∧
      (text "\u3000-99999999999999999999é7").toInteger.toInt = -9223372036854775807 ∧
      (text "-99999999999999999999").toInteger =
        (text "\u3000-99999999999999999999é7").toInteger := by
  have hfirst : LeadingDigits "\u3000-99999999999999999999é7".toList true (List.replicate 20 '9')
      ['é', '7'] := by decide +kernel
  have hsecond : LeadingDigits "-99999999999999999999".toList true (List.replicate 20 '9') [] := by
    decide +kernel
  obtain ⟨hvalue, hsame⟩ := (toInteger_text_saturates _).2.1 _ _ _ hfirst
  exact ⟨hfirst, hsecond, hvalue.trans (by decide +kernel), hsame _ _ hsecond⟩

end Value

end Smil
