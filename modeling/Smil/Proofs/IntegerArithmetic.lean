import Smil.Value.Operate

/-!
# Integer arithmetic

Operators on integers have exact results that need not be in range. A sum, a difference and a
product are reduced by a multiple of the number of integers. A quotient is cut toward zero and a
remainder goes with it; both are in range already, but for the quotient of the least integer by
minus one.

Dividend, quotient and remainder fit together in reduced arithmetic without an exception: the
quotient that is out of range is reduced in the same way as the product it is used in.
-/

namespace Smil.Value

variable {a b : Int64}

/-! ### Reduced results -/

/-- An integer in range stands for an exact result if they differ by a multiple of the number of
integers in range. -/
def Reduces (exact : Int) (n : Int64) : Prop :=
  ((1 <<< 64 : Nat) : Int) ∣ exact - n.toInt

/-- There is one integer in range for each exact result. -/
theorem Reduces.unique {exact : Int} {m n : Int64} (hm : Reduces exact m) (hn : Reduces exact n) :
    m = n := by
  obtain ⟨j, hj⟩ := hm
  obtain ⟨k, hk⟩ := hn
  have hmlow := m.le_toInt
  have hmhigh := m.toInt_lt
  have hnlow := n.le_toInt
  have hnhigh := n.toInt_lt
  rw [← Int64.toInt_inj]
  omega

/-- An integer is reduced to one word only. -/
theorem Reduces.iff_eq {exact : Int} {m n : Int64} (hn : Reduces exact n) :
    Reduces exact m ↔ m = n := by
  constructor
  · intro hm
    exact hm.unique hn
  · rintro rfl
    exact hn

/-- A sum wraps. -/
theorem reduces_add (a b : Int64) : Reduces (a.toInt + b.toInt) (a + b) := by
  rw [Reduces, Int64.toInt_add]
  exact Int.dvd_self_sub_bmod

/-- A difference wraps. -/
theorem reduces_sub (a b : Int64) : Reduces (a.toInt - b.toInt) (a - b) := by
  rw [Reduces, Int64.toInt_sub]
  exact Int.dvd_self_sub_bmod

/-- A product wraps. -/
theorem reduces_mul (a b : Int64) : Reduces (a.toInt * b.toInt) (a * b) := by
  rw [Reduces, Int64.toInt_mul]
  exact Int.dvd_self_sub_bmod

/-! ### Quotient and remainder -/

/-- The product of quotient and divisor and the remainder give the dividend. -/
theorem div_mul_add_mod (a b : Int64) : a / b * b + a % b = a := by
  have hexact : a.toInt.tdiv b.toInt * b.toInt + a.toInt.tmod b.toInt = a.toInt := by
    rw [Int.add_comm]
    exact Int.tmod_add_tdiv_mul a.toInt b.toInt
  rw [← Int64.toInt_inj, Int64.toInt_add, Int64.toInt_mul, Int64.toInt_div, Int64.toInt_mod,
    Int.bmod_add_bmod, ← Int.bmod_add_bmod, Int.bmod_mul_bmod, Int.bmod_add_bmod, hexact]
  exact Int64.toInt_bmod a

/-- A remainder is smaller than the divisor. -/
theorem natAbs_mod_lt (hb : b ≠ 0) : (a % b).toInt.natAbs < b.toInt.natAbs := by
  have hpositive : 0 < b.toInt.natAbs := by
    rw [Int.natAbs_pos, ← Int64.toInt_zero, ne_eq, Int64.toInt_inj]
    exact hb
  rw [Int64.toInt_mod, Int.natAbs_tmod]
  exact Nat.mod_lt _ hpositive

/-- A remainder is zero or has the sign of the dividend. -/
theorem sign_mod (a b : Int64) : (a % b).toInt = 0 ∨ (a % b).toInt.sign = a.toInt.sign := by
  rw [Int64.toInt_mod]
  by_cases hdvd : b.toInt ∣ a.toInt
  · exact Or.inl (Int.tmod_eq_zero_of_dvd hdvd)
  · rw [Int.sign_tmod, if_neg hdvd]
    exact Or.inr rfl

/-- The quotient is exact but for one pair of operands. -/
theorem toInt_div_eq_iff (a b : Int64) :
    (a / b).toInt = a.toInt.tdiv b.toInt ↔ ¬ (a = Int64.minValue ∧ b = -1) := by
  constructor
  · rintro hexact ⟨rfl, rfl⟩
    exact absurd hexact (by decide)
  · intro hpair
    by_cases ha : a = Int64.minValue
    · exact Int64.toInt_div_of_ne_right a b fun hb => hpair ⟨ha, hb⟩
    · exact Int64.toInt_div_of_ne_left a b ha

/-- Division and remainder by an integer other than zero succeed and fit together. The remainder is
smaller than the divisor and has the sign of the dividend; the quotient is the exact one, cut toward
zero, but for the least integer divided by minus one, which is itself again. Sums, differences and
products always succeed, and each is the one integer in range to which the exact result reduces. -/
theorem integers_fit (a b : Int64) :
    (b ≠ 0 → ∃ q r : Int64,
      operate .divide (integer a) (integer b) = .ok (integer q) ∧
      operate .modulo (integer a) (integer b) = .ok (integer r) ∧
      (operate .multiply (integer q) (integer b) >>= fun product =>
        operate .add product (integer r)) = .ok (integer a) ∧
      r.toInt.natAbs < b.toInt.natAbs ∧ (r.toInt = 0 ∨ r.toInt.sign = a.toInt.sign) ∧
      (q.toInt = a.toInt.tdiv b.toInt ↔ ¬ (a = Int64.minValue ∧ b = -1)) ∧
      (a = Int64.minValue ∧ b = -1 → q = Int64.minValue ∧ r = 0)) ∧
    (∃ sum, operate .add (integer a) (integer b) = .ok (integer sum) ∧
      ∀ n, Reduces (a.toInt + b.toInt) n ↔ n = sum) ∧
    (∃ difference, operate .subtract (integer a) (integer b) = .ok (integer difference) ∧
      ∀ n, Reduces (a.toInt - b.toInt) n ↔ n = difference) ∧
    ∃ product, operate .multiply (integer a) (integer b) = .ok (integer product) ∧
      ∀ n, Reduces (a.toInt * b.toInt) n ↔ n = product := by
  refine ⟨?_, ⟨a + b, rfl, fun _ => (reduces_add a b).iff_eq⟩,
    ⟨a - b, rfl, fun _ => (reduces_sub a b).iff_eq⟩, a * b, rfl,
    fun _ => (reduces_mul a b).iff_eq⟩
  intro hb
  have hdivide : operate .divide (integer a) (integer b) = .ok (integer (a / b)) := by
    rw [operate, integers, if_neg hb]
    rfl
  have hmodulo : operate .modulo (integer a) (integer b) = .ok (integer (a % b)) := by
    rw [operate, integers, if_neg hb]
    rfl
  refine ⟨a / b, a % b, hdivide, hmodulo, ?_, natAbs_mod_lt hb, sign_mod a b,
    toInt_div_eq_iff a b, ?_⟩
  · change Except.ok (integer (a / b * b + a % b)) = _
    rw [div_mul_add_mod]
  · rintro ⟨rfl, rfl⟩
    decide

/-- The least integer divided by minus one, with a quotient that is out of range. -/
theorem integers_fit_least :
    (-1 : Int64) ≠ 0 ∧
      operate .divide (integer Int64.minValue) (integer (-1)) = .ok (integer Int64.minValue) ∧
      operate .modulo (integer Int64.minValue) (integer (-1)) = .ok (integer 0) ∧
      (operate .multiply (integer Int64.minValue) (integer (-1)) >>= fun product =>
        operate .add product (integer 0)) = .ok (integer Int64.minValue) := by
  have hdivisor : (-1 : Int64) ≠ 0 := by decide
  obtain ⟨q, r, hdivide, hmodulo, hdividend, -, -, -, hleast⟩ :=
    (integers_fit Int64.minValue (-1)).1 hdivisor
  obtain ⟨rfl, rfl⟩ := hleast ⟨rfl, rfl⟩
  exact ⟨hdivisor, hdivide, hmodulo, hdividend⟩

end Smil.Value
