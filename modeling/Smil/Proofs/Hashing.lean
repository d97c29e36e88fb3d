import Smil.Store.Table
import Smil.Proofs.Words
import Mathlib.Algebra.BigOperators.Fin
import Mathlib.Data.Int.ModEq
import Mathlib.Data.Nat.Digits.Defs

/-!
# The hash of a name is a polynomial

The hash takes in the bytes of a name one by one. To a byte it adds the hash so far moved by six
bits and the hash so far moved by sixteen, and from the sum it takes the hash so far away. Each of
these steps drops what does not fit into a word.

Modulo the number of words all of this is one multiplication by `65599`, which is
`2 ^ 6 + 2 ^ 16 - 1`. So a hash is the number that has the bytes of the name as its digits in base
`65599`, up to the number of words: it makes no difference that parts were dropped on the way. Hence
the hash of two names in a row follows from the two hashes and the size of the second name.
-/

namespace Smil

/-! ### The hash in steps of a machine -/

/-- Takes one more byte into a hash. The sums and the difference wrap. -/
def hashStepInWords (h : UInt32) (b : UInt8) : Option UInt32 := do
  let few ← Word.shifted h 6
  let many ← Word.shifted h 16
  some (b.toUInt32 + few + many - h)

/-- The hash of a name. -/
def hashInWords (name : String) : Option UInt32 :=
  (Text.bytesOf name).foldlM hashStepInWords 0

/-- The index of the bucket of a name. -/
def bucketInWords (name : String) : Option Nat := do
  let h ← hashInWords name
  Word.sizeRemainder h.toNat bucketCount

/-- Both shifts are by less than the width of a word. -/
theorem hashStepInWords_eq (h : UInt32) (b : UInt8) :
    hashStepInWords h b = some (hashStep h b) :=
  rfl

/-! ### Bytes as digits -/

/-- The number that has these bytes as its digits, the last one with weight one. -/
def numberOf (bytes : List UInt8) : Nat :=
  Nat.ofDigits 65599 (bytes.map UInt8.toNat).reverse

/-- Digits in front are moved to the left by those behind. -/
theorem numberOf_append (a b : List UInt8) :
    numberOf (a ++ b) = numberOf a * 65599 ^ b.length + numberOf b := by
  rw [numberOf, List.map_append, List.reverse_append, Nat.ofDigits_append, List.length_reverse,
    List.length_map, Nat.mul_comm, Nat.add_comm]
  rfl

/-- One digit is its own number. -/
theorem numberOf_singleton (b : UInt8) : numberOf [b] = b.toNat :=
  Nat.ofDigits_singleton

/-- Each digit counts with the power of the base that its place has. -/
theorem numberOf_eq_sum (bytes : List UInt8) :
    numberOf bytes =
      ∑ i : Fin bytes.length, (bytes.get i).toNat * 65599 ^ (bytes.length - 1 - i) := by
  induction bytes with
  | nil => rfl
  | cons b bytes ih =>
    -- The first byte has the highest power, and the others have the powers they have without it.
    have hpower : ∀ i : Fin bytes.length,
        (b :: bytes).length - 1 - (i.succ : Nat) = bytes.length - 1 - i := by
      intro i
      rw [List.length_cons, Fin.val_succ]
      omega
    rw [← List.singleton_append, numberOf_append, numberOf_singleton, ih]
    refine Eq.trans ?_ (Fin.sum_univ_succ _).symm
    simp only [List.singleton_append, hpower]
    rfl

/-! ### The hash as a number -/

/-- One more byte multiplies by the base and adds the byte. -/
theorem toNat_hashStep (h : UInt32) (b : UInt8) :
    (hashStep h b).toNat = (h.toNat * 65599 + b.toNat) % 2 ^ 32 := by
  have hfew : (h <<< 6).toNat = h.toNat * 64 % 2 ^ 32 := by
    rw [UInt32.toNat_shiftLeft, Nat.shiftLeft_eq]
    rfl
  have hmany : (h <<< 16).toNat = h.toNat * 65536 % 2 ^ 32 := by
    rw [UInt32.toNat_shiftLeft, Nat.shiftLeft_eq]
    rfl
  have hword := h.toNat_lt
  rw [hashStep, UInt32.toNat_sub, UInt32.toNat_add, UInt32.toNat_add, hfew, hmany,
    UInt8.toNat_toUInt32]
  omega

/-- The induction is on the bytes from the end, since the last byte is taken in last. -/
theorem toNat_foldl_hashStep (bytes : List UInt8) :
    (bytes.foldl hashStep 0).toNat = numberOf bytes % 2 ^ 32 := by
  induction bytes using List.reverseRecOn with
  | nil => rfl
  | append_singleton bytes b ih =>
    have hlast : numberOf (bytes ++ [b]) = numberOf bytes * 65599 + b.toNat := by
      rw [numberOf_append, numberOf_singleton, List.length_singleton, pow_one]
    rw [List.foldl_append, List.foldl_cons, List.foldl_nil, toNat_hashStep, ih, hlast]
    omega

/-- A fold over an array of bytes goes through the list of them. -/
theorem foldlM_loop_eq {β : Type} (f : β → UInt8 → β) (bytes : ByteArray) {left start : Nat} (b : β)
    (h : left + start = bytes.size) :
    ByteArray.foldlM.loop (m := Id) (fun b c => pure (f b c)) bytes bytes.size (Nat.le_refl _) left
      start b = (bytes.data.toList.drop start).foldl f b := by
  have hlength : bytes.data.toList.length = bytes.size := rfl
  induction left generalizing start b with
  | zero =>
    rw [ByteArray.foldlM.loop, List.drop_eq_nil_of_le (by omega)]
    split <;> rfl
  | succ left ih =>
    rw [ByteArray.foldlM.loop, List.drop_eq_getElem_cons (by omega), dif_pos (by omega)]
    exact ih _ (by omega)

/-- The hash goes through the bytes of the name in order. -/
theorem hashName_eq_foldl (name : String) :
    hashName name = (Text.bytesOf name).foldl hashStep 0 := by
  rw [hashName, ByteArray.foldl, ByteArray.foldlM, dif_pos (Nat.le_refl _)]
  exact foldlM_loop_eq hashStep name.toUTF8 0 rfl

/-- The hash is the number with the bytes of the name as digits, modulo the number of words. -/
theorem toNat_hashName (name : String) :
    (hashName name).toNat = numberOf (Text.bytesOf name) % 2 ^ 32 := by
  rw [hashName_eq_foldl, toNat_foldl_hashStep]

/-- Every step of the hash is defined. -/
theorem hashInWords_eq (name : String) : hashInWords name = some (hashName name) := by
  have hstep : hashStepInWords = fun h b => pure (hashStep h b) :=
    funext₂ hashStepInWords_eq
  rw [hashInWords, hstep, List.foldlM_pure, hashName_eq_foldl]
  rfl

/-- The hash of two names in a row follows from the hashes of both. -/
theorem toNat_hashName_append (a b : String) :
    (hashName (a ++ b)).toNat =
      ((hashName a).toNat * 65599 ^ b.utf8ByteSize + (hashName b).toNat) % 2 ^ 32 := by
  have hmod : ∀ name, (hashName name).toNat ≡ numberOf (Text.bytesOf name) [MOD 2 ^ 32] := by
    intro name
    rw [toNat_hashName]
    exact Nat.mod_modEq _ _
  rw [toNat_hashName, Text.bytesOf_append, numberOf_append, Text.length_bytesOf]
  exact (((hmod a).mul_right _).add (hmod b)).symm

/-- The hash is a polynomial in the bytes, up to the number of words. The hash of two names in a row
is the hash of the first one, multiplied by the base once for each byte of the second one, plus the
hash of the second one. The hash of a name is the sum of its bytes with the powers of the base as
weights. Every step of a machine on the way to it is defined, and so is the index of the bucket: the
remainder of the hash, and one of eleven. -/
theorem hashName_is_polynomial (a b : String) :
    (hashName (a ++ b)).toNat =
        ((hashName a).toNat * 65599 ^ b.utf8ByteSize + (hashName b).toNat) % 2 ^ 32 ∧
      (hashName a).toNat =
        (∑ i : Fin (Text.bytesOf a).length,
          ((Text.bytesOf a).get i).toNat * 65599 ^ ((Text.bytesOf a).length - 1 - i)) % 2 ^ 32 ∧
      hashInWords a = some (hashName a) ∧
      ∃ index, bucketInWords a = some index ∧ index = (hashName a).toNat % 11 ∧ index < 11 ∧
        index = (bucketOf a).val := by
  have hbucket : bucketInWords a = some ((hashName a).toNat % 11) := by
    rw [bucketInWords, hashInWords_eq]
    rfl
  refine ⟨toNat_hashName_append a b, ?_, hashInWords_eq a, _, hbucket, rfl, ?_, rfl⟩
  · rw [toNat_hashName, numberOf_eq_sum]
  · exact Nat.mod_lt _ (by decide)

-- Three bytes, of which the last two are one character. The exact sum is more than a word holds.
example : Text.bytesOf "zé" = [122, 195, 169] ∧
    (hashName "zé").toNat = (122 * 65599 ^ 2 + 195 * 65599 + 169) % 2 ^ 32 ∧
    2 ^ 32 < 122 * 65599 ^ 2 := by
  decide +kernel

end Smil
