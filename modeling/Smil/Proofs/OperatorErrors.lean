import Smil.Proofs.OperatorWords

/-!
# When operators fail

An operator fails for one of three reasons: it divides by zero, its result is a text beyond the
limit, or it has no meaning for its operands. The three exclude each other, and each is a condition
on the operator and the operands that does not mention how the result is computed. Without one of
them the operator has a value.
-/

namespace Smil.Value

/-- Whether the value is a text. -/
def isText : Value → Bool
  | integer _ => false
  | text _ => true

/-- A text and an integer, in either order. -/
def Mixed (a b : Value) (s : String) (n : Int64) : Prop :=
  a = text s ∧ b = integer n ∨ a = integer n ∧ b = text s

/-- A division by zero: of integers, of a text by an integer, or a rotation of the empty text. -/
def DividesByZero (op : Operator) (a b : Value) : Prop :=
  (∃ m n, a = integer m ∧ b = integer n ∧ (op = .divide ∨ op = .modulo) ∧ n = 0) ∨
    ∃ s n, Mixed a b s n ∧ (op = .divide ∧ n = 0 ∨ op = .modulo ∧ s = "")

/-- A text beyond the limit, joined or repeated; the sum and the product are exact. -/
def ExceedsLimit (op : Operator) (a b : Value) : Prop :=
  (op = .add ∧ (a.isText = true ∨ b.isText = true) ∧
      1 <<< 28 < a.toText.utf8ByteSize + b.toText.utf8ByteSize) ∨
    (op = .multiply ∧ ∃ s n, Mixed a b s n ∧ 0 < n.toInt ∧
      ((1 <<< 28 : Nat) : Int) < s.utf8ByteSize * n.toInt)

/-- Operands for which the operator has no meaning. -/
def LacksMeaning (op : Operator) (a b : Value) : Prop :=
  ((op = .multiply ∨ op = .divide ∨ op = .modulo) ∧ a.isText = true ∧ b.isText = true) ∨
    ((op = .and ∨ op = .or) ∧ (a.isText = true ∨ b.isText = true))

/-! ### The errors of each operation -/

variable {op : Operator} {a b : Value} {s t : String} {m n : Int64} {cause : Cause}

/-- An operation behind one check fails exactly where the check does. -/
theorem checked_eq_error_iff {α : Type} {p : Prop} [Decidable p] {e : Cause} {x : α} :
    (if p then .error e else .ok x) = Except.error cause ↔ p ∧ cause = e := by
  by_cases hp : p <;> simp [hp, eq_comm]

/-- Integers fail exactly if they are divided by zero. -/
theorem integers_eq_error_iff :
    integers op m n = .error cause ↔
      (op = .divide ∨ op = .modulo) ∧ n = 0 ∧ cause = .divisionByZero := by
  cases op <;> simp [integers, checked_eq_error_iff]

/-- Joining fails exactly if the result is beyond the limit. -/
theorem joined_eq_error_iff :
    joined s t = .error cause ↔
      1 <<< 28 < s.utf8ByteSize + t.utf8ByteSize ∧ cause = .textTooLarge :=
  checked_eq_error_iff

/-- The product is compared as it is, since only a positive count comes to it. -/
theorem repeated_eq_error_iff :
    repeated s n = .error cause ↔
      0 < n.toInt ∧ ((1 <<< 28 : Nat) : Int) < s.utf8ByteSize * n.toInt ∧
        cause = .textTooLarge := by
  unfold repeated
  by_cases hn : n ≤ 0
  · have hnot : ¬ 0 < n.toInt := by
      rw [Int64.le_iff_toInt_le, Int64.toInt_zero] at hn
      omega
    simp [hn, hnot]
  · have hpositive : 0 < n := Int64.not_le.mp hn
    have hproduct : s.utf8ByteSize * n.toNatClampNeg > maxTextBytes ↔
        ((1 <<< 28 : Nat) : Int) < s.utf8ByteSize * n.toInt := by
      rw [← Int64.cast_toNatClampNeg n (Int64.le_of_lt hpositive), ← Int.natCast_mul,
        Int.ofNat_lt]
      rfl
    rw [Int64.lt_iff_toInt_lt, Int64.toInt_zero] at hpositive
    rw [if_neg hn, checked_eq_error_iff, hproduct, and_iff_right hpositive]

/-- Dividing a text fails exactly if the count is zero. -/
theorem divided_eq_error_iff :
    divided s n = .error cause ↔ n = 0 ∧ cause = .divisionByZero :=
  checked_eq_error_iff

/-- Rotating fails exactly if there is nothing to rotate. -/
theorem rotated_eq_error_iff :
    rotated s n = .error cause ↔ s = "" ∧ cause = .divisionByZero := by
  rw [rotated, checked_eq_error_iff, String.isEmpty_iff]

/-! ### A text and an integer -/

/-- The text and the integer are determined by the operands. -/
theorem Mixed.exists_iff (h : Mixed a b s n) {p : String → Int64 → Prop} :
    (∃ s n, Mixed a b s n ∧ p s n) ↔ p s n := by
  constructor
  · rintro ⟨s', n', h', hp⟩
    rcases h with ⟨rfl, rfl⟩ | ⟨rfl, rfl⟩ <;> simp_all [Mixed]
  · intro hp
    exact ⟨s, n, h, hp⟩

/-- One side is a text and the other is not. -/
theorem Mixed.isText (h : Mixed a b s n) :
    (a.isText = true ∨ b.isText = true) ∧ ¬ (a.isText = true ∧ b.isText = true) := by
  rcases h with ⟨rfl, rfl⟩ | ⟨rfl, rfl⟩ <;> simp [Value.isText]

/-- When a text and an integer divide by zero. -/
theorem Mixed.dividesByZero_iff (h : Mixed a b s n) :
    DividesByZero op a b ↔ op = .divide ∧ n = 0 ∨ op = .modulo ∧ s = "" := by
  have hintegers : ¬ ∃ m n, a = integer m ∧ b = integer n ∧
      (op = .divide ∨ op = .modulo) ∧ n = 0 := by
    rcases h with ⟨rfl, rfl⟩ | ⟨rfl, rfl⟩ <;> simp
  rw [DividesByZero, h.exists_iff, or_iff_right hintegers]

/-- When a text and an integer exceed the limit. -/
theorem Mixed.exceedsLimit_iff (h : Mixed a b s n) :
    ExceedsLimit op a b ↔
      (op = .add ∧ 1 <<< 28 < a.toText.utf8ByteSize + b.toText.utf8ByteSize) ∨
      (op = .multiply ∧ 0 < n.toInt ∧ ((1 <<< 28 : Nat) : Int) < s.utf8ByteSize * n.toInt) := by
  rw [ExceedsLimit, h.exists_iff, and_iff_right h.isText.1]

/-- Which operators have no meaning for a text and an integer. -/
theorem Mixed.lacksMeaning_iff (h : Mixed a b s n) :
    LacksMeaning op a b ↔ op = .and ∨ op = .or := by
  simp [LacksMeaning, h.isText.1, h.isText.2]

/-- A text and an integer are taken in either order. -/
theorem Mixed.operate_eq (h : Mixed a b s n) (hop : op ≠ .add) :
    operate op a b = (textAndInteger op s n (mismatch op a b)).map text := by
  rcases h with ⟨rfl, rfl⟩ | ⟨rfl, rfl⟩ <;> simp [operate, texts, hop]

/-! ### The errors of an operator -/

/-- As soon as there is a text, addition joins. -/
theorem operate_add (h : a.isText = true ∨ b.isText = true) :
    operate .add a b = (joined a.toText b.toText).map text := by
  cases a <;> cases b <;> simp_all [operate, texts, isText]

/-- Two integers, a text and an integer, or two texts. -/
theorem operands_cases (a b : Value) :
    (∃ m n, a = integer m ∧ b = integer n) ∨ (∃ s n, Mixed a b s n) ∨
      ∃ s t, a = text s ∧ b = text t := by
  cases a <;> cases b <;> simp [Mixed]

/-- The reasons for which an operator fails, with the error that says which it is. -/
def Fails (op : Operator) (a b : Value) (cause : Cause) : Prop :=
  (DividesByZero op a b ∧ cause = .divisionByZero) ∨
    (ExceedsLimit op a b ∧ cause = .textTooLarge) ∨
    (LacksMeaning op a b ∧ cause = mismatch op a b)

/-- Two integers fail exactly for one of the reasons. -/
theorem operate_integers_eq_error_iff :
    operate op (integer m) (integer n) = .error cause ↔ Fails op (integer m) (integer n) cause := by
  have hzero : DividesByZero op (integer m) (integer n) ↔
      (op = .divide ∨ op = .modulo) ∧ n = 0 := by
    constructor
    · rintro (⟨m', n', -, hn, hop, hzero⟩ | ⟨s, n', hmixed, -⟩)
      · cases hn
        exact ⟨hop, hzero⟩
      · simp [Mixed] at hmixed
    · rintro ⟨hop, hzero⟩
      exact Or.inl ⟨m, n, rfl, rfl, hop, hzero⟩
  rw [operate, map_eq_error_iff, integers_eq_error_iff, Fails, hzero, and_assoc]
  simp [ExceedsLimit, LacksMeaning, Mixed, isText]

/-- Joining fails exactly for one of the reasons, whatever is on the other side of the text. -/
theorem operate_add_eq_error_iff (h : a.isText = true ∨ b.isText = true) :
    operate .add a b = .error cause ↔ Fails .add a b cause := by
  rw [operate_add h, map_eq_error_iff, joined_eq_error_iff]
  simp [Fails, DividesByZero, ExceedsLimit, LacksMeaning, h]

/-- A text and an integer, in either order, fail exactly for one of the reasons. -/
theorem Mixed.operate_eq_error_iff (h : Mixed a b s n) :
    operate op a b = .error cause ↔ Fails op a b cause := by
  by_cases hop : op = .add
  · subst hop
    exact operate_add_eq_error_iff h.isText.1
  · rw [Fails, h.operate_eq hop, map_eq_error_iff, h.dividesByZero_iff, h.exceedsLimit_iff,
      h.lacksMeaning_iff]
    cases op with
    | add => exact absurd rfl hop
    | subtract | and | or => simp [textAndInteger, eq_comm]
    | multiply => simp [textAndInteger, repeated_eq_error_iff, and_assoc]
    | divide => simp [textAndInteger, divided_eq_error_iff]
    | modulo => simp [textAndInteger, rotated_eq_error_iff]

/-- Two texts fail exactly for one of the reasons. -/
theorem operate_texts_eq_error_iff :
    operate op (text s) (text t) = .error cause ↔ Fails op (text s) (text t) cause := by
  by_cases hop : op = .add
  · subst hop
    exact operate_add_eq_error_iff (Or.inl rfl)
  · change (texts op (text s) (text t)).map text = .error cause ↔ _
    rw [map_eq_error_iff, texts, if_neg hop]
    cases op with
    | add => exact absurd rfl hop
    | _ => simp [Fails, DividesByZero, ExceedsLimit, LacksMeaning, Mixed, isText, eq_comm]

/-- An operator fails for one of three reasons, and the error says which. -/
theorem operate_eq_error_iff : operate op a b = .error cause ↔ Fails op a b cause := by
  rcases operands_cases a b with ⟨m, n, rfl, rfl⟩ | ⟨s, n, hmixed⟩ | ⟨s, t, rfl, rfl⟩
  · exact operate_integers_eq_error_iff
  · exact hmixed.operate_eq_error_iff
  · exact operate_texts_eq_error_iff

/-- Without a reason to fail there is a value. -/
theorem exists_operate_eq_ok_iff :
    (∃ v, operate op a b = .ok v) ↔ ∀ cause, ¬ Fails op a b cause := by
  simp only [← operate_eq_error_iff]
  cases operate op a b <;> simp

/-- Each error arises under its own condition, which names neither the order in which the operands
are looked at nor the way the sizes are computed; under none of the conditions there is a value. In
machine words no step is undefined, and the outcome is the same. -/
theorem operate_outcome (op : Operator) (a b : Value) :
    (operate op a b = .error .divisionByZero ↔ DividesByZero op a b) ∧
      (operate op a b = .error .textTooLarge ↔ ExceedsLimit op a b) ∧
      (∀ left name right, operate op a b = .error (.invalidOperation left name right) ↔
        LacksMeaning op a b ∧ left = a.typeName ∧ name = op.text ∧ right = b.typeName) ∧
      ((∃ v, operate op a b = .ok v) ↔
        ¬ DividesByZero op a b ∧ ¬ ExceedsLimit op a b ∧ ¬ LacksMeaning op a b) ∧
      (a.AtMost Text.maxInt64 → b.AtMost Text.maxInt64 →
        operateInWords op a b = some (operate op a b)) := by
  refine ⟨?_, ?_, ?_, ?_, operateInWords_eq op⟩
  · simp [operate_eq_error_iff, Fails, mismatch]
  · simp [operate_eq_error_iff, Fails, mismatch]
  · intro left name right
    simp [operate_eq_error_iff, Fails, mismatch]
  · rw [exists_operate_eq_ok_iff]
    simp [Fails, not_or, forall_and]

/-- The number of bytes of the result is beyond a machine word. -/
theorem operate_outcome_beyond_words :
    operate .multiply (integer Int64.maxValue) (text "abc") = .error .textTooLarge ∧
      operateInWords .multiply (integer Int64.maxValue) (text "abc") =
        some (.error .textTooLarge) := by
  have houtcome := operate_outcome .multiply (integer Int64.maxValue) (text "abc")
  have hlimit := houtcome.2.1.mpr
    (Or.inr ⟨rfl, "abc", Int64.maxValue, Or.inr ⟨rfl, rfl⟩, by decide, by decide⟩)
  have hroom : "abc".utf8ByteSize ≤ Text.maxInt64 := by decide
  have hwords := houtcome.2.2.2.2 trivial hroom
  exact ⟨hlimit, hwords.trans (congrArg some hlimit)⟩

end Smil.Value
