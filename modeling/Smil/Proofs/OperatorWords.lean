import Smil.Proofs.Numerals
import Smil.Proofs.ResultSizes
import Smil.Proofs.Words

/-!
# Operators in machine words

The operators once more, in steps of a machine that need not be defined. On texts that a machine can
hold every step is defined, and the result is the one that exact lengths give.
-/

namespace Smil

/-! ### Operators in these steps -/

namespace Value

/-- An operator on integers. -/
def integersInWords (op : Operator) (a b : Int64) : Option (Except Cause Int64) :=
  match op with
  | .add => some (.ok (a + b))
  | .subtract => some (.ok (a - b))
  | .multiply => some (.ok (a * b))
  | .divide =>
    if b = 0 then some (.error .divisionByZero)
    else (Word.divisor b).map fun b => .ok (a / b)
  | .modulo =>
    if b = 0 then some (.error .divisionByZero)
    else (Word.divisor b).map fun b => .ok (a % b)
  | .and => some (.ok (a &&& b))
  | .or => some (.ok (a ||| b))

/-- Joins two texts whose sizes have been added. -/
def joinedInWords (a b : String) : Option (Except Cause String) := do
  let size ← Word.sum a.utf8ByteSize b.utf8ByteSize
  if size > maxTextBytes then some (.error .textTooLarge) else some (.ok (a ++ b))

/-- The first characters of a text, as many as the count says and the text has. -/
def frontInWords (s : String) (count : Int64) : Option String := do
  let count ← Word.clamp 0 (Int64.ofNat s.length) count
  some (Text.keep s count.toNatClampNeg)

/-- The text less a number of characters at the end; the difference saturates. -/
def dropTailInWords (s : String) (n : Int64) : Option (Except Cause String) :=
  (frontInWords s (Int64.ofIntClamp ((Int64.ofNat s.length).toInt - n.toInt))).map .ok

/-- Copies of a text. A product of sizes that is no word is too large as well. -/
def repeatedInWords (s : String) (n : Int64) : Option (Except Cause String) :=
  if n ≤ 0 then some (.ok "")
  else
    match Word.product s.utf8ByteSize n.toNatClampNeg with
    | none => some (.error .textTooLarge)
    | some size =>
      if size > maxTextBytes then some (.error .textTooLarge)
      else (Word.place (Text.replicate s n.toNatClampNeg)).map .ok

/-- A front part of a text. -/
def dividedInWords (s : String) (n : Int64) : Option (Except Cause String) :=
  if n = 0 then some (.error .divisionByZero)
  else do
    let count ← Word.quotient (Int64.ofNat s.length) n
    (frontInWords s count).map .ok

/-- A rotated text. -/
def rotatedInWords (s : String) (n : Int64) : Option (Except Cause String) :=
  if s.length = 0 then some (.error .divisionByZero)
  else do
    let offset ← Word.remainder n (Int64.ofNat s.length)
    some (.ok ((s.drop offset.toNatClampNeg).copy ++ Text.keep s offset.toNatClampNeg))

/-- An operator on a text and an integer. -/
def textAndIntegerInWords (op : Operator) (s : String) (n : Int64) (invalid : Cause) :
    Option (Except Cause String) :=
  match op with
  | .subtract => dropTailInWords s n
  | .multiply => repeatedInWords s n
  | .divide => dividedInWords s n
  | .modulo => rotatedInWords s n
  | .add | .and | .or => some (.error invalid)

/-- An operator with a text on one side at least. -/
def textsInWords (op : Operator) (a b : Value) : Option (Except Cause String) :=
  if op = .add then joinedInWords a.toText b.toText
  else
    match a, b with
    | text s, text t =>
      some (if op = .subtract then .ok (Text.removeAll s t) else .error (mismatch op a b))
    | text s, integer n => textAndIntegerInWords op s n (mismatch op a b)
    | integer n, text s => textAndIntegerInWords op s n (mismatch op a b)
    | integer _, integer _ => some (.error (mismatch op a b))

/-- A text as a value, if there is room for it. -/
def placed : Except Cause String → Option (Except Cause Value)
  | .ok s => (Word.place s).map fun s => .ok (text s)
  | .error cause => some (.error cause)

/-- Applies an operator to two values in steps of a machine. -/
def operateInWords (op : Operator) (a b : Value) : Option (Except Cause Value) :=
  match a, b with
  | integer m, integer n => (integersInWords op m n).map (Except.map integer)
  | _, _ => textsInWords op a b >>= placed

/-! ### Every step is defined -/

variable {op : Operator} {a b : Value} {s t : String} {n : Int64}

/-- A divisor that is used is not zero. -/
theorem integersInWords_eq (op : Operator) (a b : Int64) :
    integersInWords op a b = some (integers op a b) := by
  cases op with
  | divide | modulo =>
    by_cases hb : b = 0
    · simp [integersInWords, integers, hb]
    · simp [integersInWords, integers, Word.divisor, hb]
  | _ => rfl

/-- The sum of the sizes of two texts is a word, since each of them is at most half of the words. -/
theorem joinedInWords_eq (hs : s.utf8ByteSize ≤ Text.maxInt64)
    (ht : t.utf8ByteSize ≤ Text.maxInt64) : joinedInWords s t = some (joined s t) := by
  have hsum : s.utf8ByteSize + t.utf8ByteSize < 1 <<< 64 := by
    unfold Text.maxInt64 at hs ht
    omega
  simp only [joinedInWords, Word.sum, hsum, if_true, Option.bind_eq_bind, Option.bind_some, joined]
  split <;> rfl

/-- A text that a machine can hold has a length that is a count. -/
theorem toInt_ofNat_length (hs : s.utf8ByteSize ≤ Text.maxInt64) :
    (Int64.ofNat s.length).toInt = s.length := by
  exact Word.toInt_ofNat_of_le (Nat.le_trans (Text.utf8ByteSize_bounds s).1 hs)

/-- The range of counts is not empty, and beyond its ends nothing changes. -/
theorem frontInWords_eq (hs : s.utf8ByteSize ≤ Text.maxInt64) (count : Int64) :
    frontInWords s count = some (Text.keep s count.toNatClampNeg) := by
  have hlength := toInt_ofNat_length hs
  have hrange : ¬ Int64.ofNat s.length < 0 := by
    rw [Int64.lt_iff_toInt_lt, hlength, Int64.toInt_zero]
    omega
  simp only [frontInWords, Word.clamp, hrange, if_false, Option.bind_eq_bind, Option.bind_some]
  rw [Option.some_inj, ← Text.keep_min_length s count.toNatClampNeg, ← Text.keep_min_length s]
  congr 1
  simp only [Int64.lt_iff_toInt_lt, hlength, Int64.toInt_zero, Int64.toNatClampNeg]
  split
  · rw [Int64.toInt_zero]
    omega
  · split
    · rw [hlength]
      omega
    · rfl

/-- Cutting the end off is cutting to a front part. -/
theorem dropTailInWords_eq (hs : s.utf8ByteSize ≤ Text.maxInt64) (n : Int64) :
    dropTailInWords s n = some (.ok (Text.dropTail s n)) := by
  rw [dropTailInWords, frontInWords_eq hs, toInt_ofNat_length hs]
  rfl

/-- A product of sizes that is no word is beyond the limit, and one within the limit has room. -/
theorem repeatedInWords_eq (s : String) (n : Int64) :
    repeatedInWords s n = some (repeated s n) := by
  unfold repeatedInWords repeated
  split
  · rfl
  · unfold Word.product
    by_cases hword : s.utf8ByteSize * n.toNatClampNeg < 1 <<< 64
    · rw [if_pos hword]
      dsimp only
      split
      · rfl
      · rename_i hsize
        have hroom : (Text.replicate s n.toNatClampNeg).utf8ByteSize ≤ Text.maxInt64 := by
          rw [Text.utf8ByteSize_replicate]
          unfold maxTextBytes at hsize
          unfold Text.maxInt64
          omega
        rw [Word.place, if_pos hroom]
        rfl
    · have hsize : s.utf8ByteSize * n.toNatClampNeg > maxTextBytes := by
        unfold maxTextBytes
        omega
      rw [if_neg hword, if_pos hsize]

/-- The length of a text is not negative, so its quotient is in range. -/
theorem dividedInWords_eq (hs : s.utf8ByteSize ≤ Text.maxInt64) (n : Int64) :
    dividedInWords s n = some (divided s n) := by
  have hleast : Int64.ofNat s.length ≠ Int64.minValue :=
    Word.ofNat_ne_minValue (Nat.le_trans (Text.utf8ByteSize_bounds s).1 hs)
  unfold dividedInWords divided
  by_cases hn : n = 0
  · rw [if_pos hn, if_pos hn]
  · simp only [hn, if_false, Word.quotient, Word.divisor, hleast, false_and, Option.bind_eq_bind,
      Option.bind_some, frontInWords_eq hs]
    rfl

/-- The length of a text that is not empty is positive, so it divides every count. -/
theorem rotatedInWords_eq (hs : s.utf8ByteSize ≤ Text.maxInt64) (n : Int64) :
    rotatedInWords s n = some (rotated s n) := by
  have hlength := toInt_ofNat_length hs
  unfold rotatedInWords rotated
  by_cases hempty : s.length = 0
  · rw [if_pos hempty, if_pos (String.isEmpty_iff.mpr (String.length_eq_zero_iff.mp hempty))]
  · have hfull : ¬ s.isEmpty = true :=
      mt (fun h => String.length_eq_zero_iff.mpr (String.isEmpty_iff.mp h)) hempty
    have hzero : Int64.ofNat s.length ≠ 0 := by
      rw [ne_eq, ← Int64.toInt_inj, hlength, Int64.toInt_zero]
      omega
    have hminus : Int64.ofNat s.length ≠ -1 := by
      rw [ne_eq, ← Int64.toInt_inj, hlength]
      change ¬ (s.length : Int) = -1
      omega
    have hoffset : (Int64.ofInt (n.toInt % (s.length : Int))).toNatClampNeg =
        (n.toInt % (s.length : Int)).toNat := by
      have hlow := Int.emod_nonneg n.toInt (b := s.length) (by omega)
      have hhigh := Int.emod_lt_of_pos n.toInt (b := s.length) (by omega)
      have hbelow := (Int64.ofNat s.length).toInt_lt
      rw [hlength] at hbelow
      exact Int64.toNatClampNeg_ofInt_of_le (by omega) (by omega)
    simp only [hempty, if_false, hfull, Word.remainder, Word.divisor, hzero, hminus, and_false,
      Option.bind_eq_bind, Option.bind_some, hlength, hoffset]
    rfl

/-- Every step of an operator on a text and an integer is defined. -/
theorem textAndIntegerInWords_eq (hs : s.utf8ByteSize ≤ Text.maxInt64) (op : Operator) (n : Int64)
    (invalid : Cause) :
    textAndIntegerInWords op s n invalid = some (textAndInteger op s n invalid) := by
  cases op with
  | subtract => exact dropTailInWords_eq hs n
  | multiply => exact repeatedInWords_eq s n
  | divide => exact dividedInWords_eq hs n
  | modulo => exact rotatedInWords_eq hs n
  | add | and | or => rfl

/-- An integer has a sign and nineteen digits at most. -/
theorem length_toText_integer_le (n : Int64) : (integer n).toText.length ≤ 20 := by
  have hlow := n.le_toInt
  have hhigh := n.toInt_lt
  have hdigits : (Nat.toDigits 10 n.toInt.natAbs).length ≤ 19 :=
    (Nat.length_toDigits_le_iff (by decide) (by decide)).mpr (by omega)
  have hsign : (if n.toInt < 0 then ['-'] else []).length ≤ 1 := by
    split <;> simp
  rw [toText, ← String.length_toList, Text.toList_decimal, List.length_append]
  omega

/-- There is room for the text of a value that a machine can hold. -/
theorem utf8ByteSize_toText_le (ha : a.AtMost Text.maxInt64) :
    a.toText.utf8ByteSize ≤ Text.maxInt64 := by
  cases a with
  | text s => exact ha
  | integer n =>
    have hlength := length_toText_integer_le n
    have hbytes := (Text.utf8ByteSize_bounds (integer n).toText).2
    unfold Text.maxInt64
    omega

/-- Every step of an operator with a text is defined. -/
theorem textsInWords_eq (op : Operator) (ha : a.AtMost Text.maxInt64)
    (hb : b.AtMost Text.maxInt64) : textsInWords op a b = some (texts op a b) := by
  unfold textsInWords texts
  split
  · exact joinedInWords_eq (utf8ByteSize_toText_le ha) (utf8ByteSize_toText_le hb)
  · cases a with
    | text s =>
      cases b with
      | text t => rfl
      | integer n => exact textAndIntegerInWords_eq ha op n _
    | integer m =>
      cases b with
      | text t => exact textAndIntegerInWords_eq hb op m _
      | integer n => rfl

/-- On values that a machine can hold every step of an operator is defined, and there is room for
the result. -/
theorem operateInWords_eq (op : Operator) (ha : a.AtMost Text.maxInt64)
    (hb : b.AtMost Text.maxInt64) : operateInWords op a b = some (operate op a b) := by
  have htexts : textsInWords op a b >>= placed = some ((texts op a b).map text) := by
    rw [textsInWords_eq op ha hb, Option.bind_eq_bind, Option.bind_some]
    cases hresult : texts op a b with
    | error cause => rfl
    | ok t =>
      have hroom : t.utf8ByteSize ≤ Text.maxInt64 := size_of_texts (by decide) hresult ha hb
      rw [placed, Word.place, if_pos hroom]
      rfl
  cases a with
  | text s =>
    cases b with
    | text t => exact htexts
    | integer n => exact htexts
  | integer m =>
    cases b with
    | text t => exact htexts
    | integer n =>
      change (integersInWords op m n).map (Except.map integer) =
        some ((integers op m n).map integer)
      rw [integersInWords_eq]
      rfl

end Value

end Smil
