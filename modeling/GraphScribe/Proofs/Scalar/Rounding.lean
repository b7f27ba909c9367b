import Mathlib.Algebra.Order.Ring.Abs
import Mathlib.Tactic.Linarith
import Mathlib.Tactic.Ring

/-! # Rounding to 53 bits

A whole number is rounded to the nearest one with at most 53 significant bits; of two that are as
near, the one with the even last bit is taken. -/
namespace GraphScribe.Rounding

/-- The quotient `m / 2 ^ n`, rounded to the nearest whole number, half to even. -/
def quotient (m n : ℕ) : ℕ :=
  if 2 * (m % 2 ^ n) < 2 ^ n then m / 2 ^ n
  else if 2 * (m % 2 ^ n) = 2 ^ n then m / 2 ^ n + m / 2 ^ n % 2
  else m / 2 ^ n + 1

section Quotient

variable {m n k : ℕ}

theorem quotient_le_div (m n : ℕ) : quotient m n ≤ m / 2 ^ n + 1 := by
  unfold quotient
  split_ifs <;> omega

@[simp]
theorem quotient_zero (m : ℕ) : quotient m 0 = m := by
  unfold quotient
  simp [Nat.mod_one]

@[simp]
theorem quotient_mul (k n : ℕ) : quotient (k * 2 ^ n) n = k := by
  have hpos : 0 < 2 ^ n := Nat.two_pow_pos n
  unfold quotient
  rw [Nat.mul_mod_left, Nat.mul_div_cancel _ hpos, if_pos (by omega)]

theorem quotient_scale (m n k : ℕ) : quotient (m * 2 ^ k) (n + k) = quotient m n := by
  have hpos : 0 < 2 ^ k := Nat.two_pow_pos k
  have hdiv : m * 2 ^ k / 2 ^ (n + k) = m / 2 ^ n := by
    rw [pow_add, Nat.mul_div_mul_right _ _ hpos]
  have hmod : m * 2 ^ k % 2 ^ (n + k) = m % 2 ^ n * 2 ^ k := by
    rw [pow_add, Nat.mul_mod_mul_right]
  have hlt : 2 * (m % 2 ^ n * 2 ^ k) < 2 ^ n * 2 ^ k ↔ 2 * (m % 2 ^ n) < 2 ^ n := by
    rw [← Nat.mul_assoc]
    exact Nat.mul_lt_mul_right hpos
  have heq : 2 * (m % 2 ^ n * 2 ^ k) = 2 ^ n * 2 ^ k ↔ 2 * (m % 2 ^ n) = 2 ^ n := by
    rw [← Nat.mul_assoc]
    exact Nat.mul_left_inj hpos.ne'
  unfold quotient
  rw [hdiv, hmod, pow_add]
  simp only [hlt, heq]

theorem quotient_le (h : m ≤ k * 2 ^ n) : quotient m n ≤ k := by
  rcases h.lt_or_eq with hlt | rfl
  · have hdiv : m / 2 ^ n < k := Nat.div_lt_of_lt_mul (by rwa [Nat.mul_comm])
    have := quotient_le_div m n
    omega
  · exact (quotient_mul k n).le

/-- A tie is decided in favour of an even bound. -/
theorem quotient_le_of_even (hk : k % 2 = 0) (h : 2 * m ≤ (2 * k + 1) * 2 ^ n) :
    quotient m n ≤ k := by
  have hpos : 0 < 2 ^ n := Nat.two_pow_pos n
  have hsplit := Nat.div_add_mod m (2 ^ n)
  rcases Nat.lt_trichotomy (m / 2 ^ n) k with hlt | heq | hgt
  · have := quotient_le_div m n
    omega
  · rw [heq] at hsplit
    have hhalf : 2 * (m % 2 ^ n) ≤ 2 ^ n := by nlinarith
    unfold quotient
    rw [heq]
    split_ifs <;> omega
  · have hnext : 2 ^ n * (k + 1) ≤ 2 ^ n * (m / 2 ^ n) := Nat.mul_le_mul_left _ hgt
    have hexpand : (2 * k + 1) * 2 ^ n + 2 ^ n = 2 * (2 ^ n * (k + 1)) := by ring
    omega

theorem quotient_error (m n : ℕ) :
    2 * (quotient m n * 2 ^ n) ≤ 2 * m + 2 ^ n ∧ 2 * m ≤ 2 * (quotient m n * 2 ^ n) + 2 ^ n := by
  have hsplit := Nat.div_add_mod' m (2 ^ n)
  have hmod := Nat.mod_lt m (Nat.two_pow_pos n)
  have hone : (m / 2 ^ n + 1) * 2 ^ n = m / 2 ^ n * 2 ^ n + 2 ^ n := Nat.succ_mul _ _
  unfold quotient
  split_ifs with hlt heq
  · omega
  · rcases Nat.mod_two_eq_zero_or_one (m / 2 ^ n) with hbit | hbit
    · rw [hbit, Nat.add_zero]
      omega
    · rw [hbit, hone]
      omega
  · rw [hone]
    omega

end Quotient

/-- The nearest natural number with at most 53 significant bits. -/
def nearest (m : ℕ) : ℕ := quotient m (m.log2 - 52) * 2 ^ (m.log2 - 52)

section Nearest

variable {m j : ℕ}

theorem nearest_le_two_pow (h : m ≤ 2 ^ j) : nearest m ≤ 2 ^ j := by
  unfold nearest
  by_cases hsmall : m.log2 ≤ 52
  · rw [Nat.sub_eq_zero_of_le hsmall]
    simpa using h
  · have hlog : m.log2 ≤ j := by
      have hself := Nat.log2_self_le (n := m) (by rintro rfl; simp at hsmall)
      exact (Nat.pow_le_pow_iff_right (by omega)).mp (hself.trans h)
    have hpow : 2 ^ j = 2 ^ (j - (m.log2 - 52)) * 2 ^ (m.log2 - 52) := by
      rw [← pow_add]
      congr 1
      omega
    rw [hpow] at h ⊢
    exact Nat.mul_le_mul_right _ (quotient_le h)

theorem log2_mul_two_pow (hm : m ≠ 0) (j : ℕ) : (m * 2 ^ j).log2 = m.log2 + j := by
  induction j with
  | zero => simp
  | succ j ih =>
    have hpos : m * 2 ^ j ≠ 0 := Nat.mul_ne_zero hm (Nat.two_pow_pos j).ne'
    rw [pow_succ', Nat.mul_left_comm, Nat.log2_two_mul hpos, ih, Nat.add_assoc]

theorem nearest_of_lt (hm : m < 2 ^ 53) (j : ℕ) : nearest (m * 2 ^ j) = m * 2 ^ j := by
  by_cases hzero : m = 0
  · subst hzero
    simp [nearest, quotient]
  · have hlog : (m * 2 ^ j).log2 - 52 ≤ j := by
      have := (Nat.log2_lt hzero).mpr hm
      rw [log2_mul_two_pow hzero]
      omega
    have hsplit : m * 2 ^ j =
        m * 2 ^ (j - ((m * 2 ^ j).log2 - 52)) * 2 ^ ((m * 2 ^ j).log2 - 52) := by
      rw [Nat.mul_assoc, ← pow_add, Nat.sub_add_cancel hlog]
    unfold nearest
    generalize (m * 2 ^ j).log2 - 52 = n at hsplit
    rw [hsplit, quotient_mul]

theorem nearest_two_pow (j : ℕ) : nearest (2 ^ j) = 2 ^ j := by
  simpa using nearest_of_lt (m := 1) (by norm_num) j

/-- A number that exceeds a power of two by no more than half of its last bit is rounded down. -/
theorem nearest_le_of_le_add (hj : 53 ≤ j) (h : m ≤ 2 ^ j + 2 ^ (j - 53)) : nearest m ≤ 2 ^ j := by
  by_cases hle : m ≤ 2 ^ j
  · exact nearest_le_two_pow hle
  · have hhalf : 2 ^ (j - 53) ≤ 2 ^ j := Nat.pow_le_pow_right (by omega) (by omega)
    have hlog : m.log2 = j := by
      apply (Nat.log2_eq_iff (by omega)).mpr
      constructor
      · omega
      · have : 2 ^ (j - 53) < 2 ^ j := Nat.pow_lt_pow_right (by omega) (by omega)
        rw [pow_succ]
        omega
    have hpow : 2 ^ j = 2 ^ 52 * 2 ^ (j - 52) := by
      rw [← pow_add]
      congr 1
      omega
    have hstep : 2 ^ (j - 52) = 2 * 2 ^ (j - 53) := by
      rw [← pow_succ']
      congr 1
      omega
    unfold nearest
    rw [hlog, hpow]
    apply Nat.mul_le_mul_right
    apply quotient_le_of_even (by norm_num)
    rw [Nat.add_mul, Nat.mul_assoc, ← hpow]
    omega

theorem nearest_error (hj : 53 ≤ j) (h : m ≤ 2 ^ (j + 1)) :
    nearest m ≤ m + 2 ^ (j - 53) ∧ m ≤ nearest m + 2 ^ (j - 53) := by
  rcases h.lt_or_eq with hlt | rfl
  · have hlog : m.log2 - 52 ≤ j - 52 := by
      by_cases hm : m = 0
      · simp [hm]
      · have := (Nat.log2_lt hm).mpr hlt
        omega
    have hpow : 2 ^ (m.log2 - 52) ≤ 2 * 2 ^ (j - 53) := by
      rw [← pow_succ']
      exact Nat.pow_le_pow_right (by omega) (by omega)
    have herror := quotient_error m (m.log2 - 52)
    unfold nearest
    omega
  · rw [nearest_two_pow]
    exact ⟨Nat.le_add_right _ _, Nat.le_add_right _ _⟩

end Nearest

def signed (z : ℤ) : ℤ := z.sign * nearest z.natAbs

theorem natAbs_signed (z : ℤ) : (signed z).natAbs = nearest z.natAbs := by
  unfold signed
  rcases Int.lt_trichotomy z 0 with hneg | rfl | hpos
  · rw [Int.sign_eq_neg_one_of_neg hneg]
    simp
  · decide
  · rw [Int.sign_eq_one_of_pos hpos]
    simp

@[simp]
theorem signed_zero : signed 0 = 0 := by
  unfold signed
  rw [Int.sign_zero, Int.zero_mul]

theorem signed_neg (z : ℤ) : signed (-z) = -signed z := by
  unfold signed
  rw [Int.sign_neg, Int.natAbs_neg, Int.neg_mul]

theorem signed_natCast (m : ℕ) : signed m = nearest m := by
  unfold signed
  by_cases hm : m = 0
  · subst hm
    decide
  · rw [Int.sign_natCast_of_ne_zero hm, Int.natAbs_natCast, Int.one_mul]

theorem abs_signed_le_two_pow {z : ℤ} {j : ℕ} (h : |z| ≤ 2 ^ j) : |signed z| ≤ 2 ^ j := by
  rw [Int.abs_eq_natAbs] at h ⊢
  rw [natAbs_signed]
  exact_mod_cast nearest_le_two_pow (by exact_mod_cast h)

theorem abs_signed_le_of_le_add {z : ℤ} {j : ℕ} (hj : 53 ≤ j) (h : |z| ≤ 2 ^ j + 2 ^ (j - 53)) :
    |signed z| ≤ 2 ^ j := by
  rw [Int.abs_eq_natAbs] at h ⊢
  rw [natAbs_signed]
  exact_mod_cast nearest_le_of_le_add hj (by exact_mod_cast h)

theorem abs_signed_sub_le {z : ℤ} {j : ℕ} (hj : 53 ≤ j) (h : |z| ≤ 2 ^ (j + 1)) :
    |signed z - z| ≤ 2 ^ (j - 53) := by
  rw [Int.abs_eq_natAbs] at h
  obtain ⟨habove, hbelow⟩ := nearest_error (m := z.natAbs) hj (by exact_mod_cast h)
  have habove' : (nearest z.natAbs : ℤ) ≤ z.natAbs + 2 ^ (j - 53) := by exact_mod_cast habove
  have hbelow' : (z.natAbs : ℤ) ≤ nearest z.natAbs + 2 ^ (j - 53) := by exact_mod_cast hbelow
  have hself := Int.sign_mul_natAbs z
  unfold signed
  rcases Int.lt_trichotomy z 0 with hneg | rfl | hpos
  · rw [Int.sign_eq_neg_one_of_neg hneg] at hself ⊢
    rw [abs_le]
    constructor <;> linarith
  · simp
  · rw [Int.sign_eq_one_of_pos hpos] at hself ⊢
    rw [abs_le]
    constructor <;> linarith

end GraphScribe.Rounding
