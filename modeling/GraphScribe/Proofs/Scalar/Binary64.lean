import GraphScribe.Proofs.Scalar.Packing
import GraphScribe.Proofs.Scalar.Rounding

/-! # Doubles as whole numbers

Every finite double is a whole multiple of `2 ^ -1074`. Counted in these units, a sum is the exact
sum rounded to 53 bits, as long as it is at most `2 ^ 2097`, half of where the doubles end. -/
namespace GraphScribe.Double

open Float.Model Float.Model.UnpackedFloat
open Rounding (quotient nearest)

/-- A finite double in units of `2 ^ -1074`. -/
def units : UnpackedFloat → ℤ
  | .finite s m e _ => s.apply ↑(m * 2 ^ (e + 1074).toNat)
  | _ => 0

theorem mantissa_shift (em : ExtendedMantissa) (n : ℕ) :
    (em >>> n).mantissa = em.mantissa / 2 ^ n := by
  induction n with
  | zero => exact (Nat.div_one _).symm
  | succ n ih =>
    show (em >>> n).mantissa / 2 = _
    rw [ih, Nat.div_div_eq_div_mul, pow_succ]

theorem roundedMantissa_bounds (em : ExtendedMantissa) :
    em.mantissa ≤ em.roundedMantissa ∧ em.roundedMantissa ≤ em.mantissa + 1 := by
  obtain ⟨m, round, sticky⟩ := em
  cases round <;> cases sticky <;>
    simp only [ExtendedMantissa.roundedMantissa, ExtendedMantissa.accuracy,
      Accuracy.roundToNearestEven] <;> omega

/-- The two residual bits say how the remainder compares with one half. -/
theorem shift_exact (m n : ℕ) :
    ExtendedMantissa.mk m false false >>> n =
      ⟨m / 2 ^ n, decide (2 ^ n ≤ 2 * (m % 2 ^ n)), decide (2 * (m % 2 ^ n) % 2 ^ n ≠ 0)⟩ := by
  induction n with
  | zero => simp [Nat.mod_one]; rfl
  | succ n ih =>
    have hlt := Nat.mod_lt m (Nat.two_pow_pos n)
    have hmod : m % 2 ^ (n + 1) = m % 2 ^ n + 2 ^ n * (m / 2 ^ n % 2) := by
      rw [pow_succ, Nat.mod_mul]
    show ExtendedMantissa.shiftRightOne (ExtendedMantissa.mk m false false >>> n) = _
    rw [ih, hmod, pow_succ]
    unfold ExtendedMantissa.shiftRightOne
    congr 1
    · rw [Nat.div_div_eq_div_mul]
    · rcases Nat.mod_two_eq_zero_or_one (m / 2 ^ n) with hbit | hbit <;> simp [hbit] <;> omega
    · have htwice : 2 * (m % 2 ^ n + 2 ^ n * (m / 2 ^ n % 2)) % (2 ^ n * 2) = 2 * (m % 2 ^ n) := by
        rw [Nat.mul_comm (2 ^ n) 2, Nat.mul_mod_mul_left, Nat.add_mul_mod_self_left, Nat.mod_mod]
      rw [htwice]
      generalize m % 2 ^ n = r at hlt
      by_cases hhalf : 2 ^ n ≤ 2 * r
      · have hsome : 2 * r ≠ 0 := by omega
        rw [decide_eq_true hhalf, decide_eq_true hsome, Bool.true_or]
      · rw [Nat.mod_eq_of_lt (by omega), decide_eq_false hhalf, Bool.false_or]

theorem roundedMantissa_shift (m n : ℕ) :
    (ExtendedMantissa.mk m false false >>> n).roundedMantissa = quotient m n := by
  have hlt := Nat.mod_lt m (Nat.two_pow_pos n)
  rw [shift_exact]
  unfold ExtendedMantissa.roundedMantissa quotient
  rcases Nat.lt_trichotomy (2 * (m % 2 ^ n)) (2 ^ n) with hbelow | htie | habove
  · rw [if_pos hbelow, Nat.mod_eq_of_lt hbelow, decide_eq_false (by omega)]
    cases decide (2 * (m % 2 ^ n) ≠ 0) <;> rfl
  · rw [if_neg (by omega), if_pos htie, htie, Nat.mod_self, decide_eq_true (by omega)]
    rfl
  · have hrest : 2 * (m % 2 ^ n) % 2 ^ n ≠ 0 := by
      rw [Nat.mod_eq_sub_mod (by omega), Nat.mod_eq_of_lt (by omega)]
      omega
    rw [if_neg (by omega), if_neg (by omega), decide_eq_true (by omega), decide_eq_true hrest]
    rfl

def lastPlace (m : ℕ) (e : ℤ) : ℤ := max (m.log2 + e - 52) (-1074)

theorem targetExponent_eq (m : ℕ) (e : ℤ) :
    Format.binary64.targetExponent (totalExponent m e) = lastPlace m e := by
  unfold Format.targetExponent totalExponent lastPlace
  show max ((m.log2 : ℤ) + 1 + e - 53) (-1074) = _
  congr 1
  omega

theorem leadingBit_pos : 0 < 2 ^ 52 := Nat.two_pow_pos 52

def ofRounded (s : Sign) (r : ℕ) (t : ℤ) : UnpackedFloat :=
  if h : r = 0 then .zero s
  else if r < 2 ^ 53 then .finite s r t (Nat.pos_of_ne_zero h)
  else .finite s (2 ^ 52) (t + 1) leadingBit_pos

theorem shiftToTargetExponent_eq (m : ℕ) (e : ℤ) (accuracy : Accuracy) :
    shiftToTargetExponent .binary64 m e accuracy =
      (ExtendedMantissa.ofMantissaAndAccuracy m accuracy >>> (lastPlace m e - e).toNat,
        e + (lastPlace m e - e).toNat) := by
  unfold shiftToTargetExponent shiftToExponent
  rw [targetExponent_eq]

theorem log2_lt_of_lt {r : ℕ} (hr : r < 2 ^ 53) : r.log2 < 53 := by
  by_cases hzero : r = 0
  · simp [hzero]
  · exact (Nat.log2_lt hzero).mpr hr

/-- Rounding may carry into a 54th bit, which one more shift takes away. -/
theorem roundWithAccuracy_eq {s : Sign} {m : ℕ} {e : ℤ} {accuracy : Accuracy} {r : ℕ} {t : ℤ}
    (hr : (ExtendedMantissa.ofMantissaAndAccuracy m accuracy >>>
      (lastPlace m e - e).toNat).roundedMantissa = r)
    (ht : e + (lastPlace m e - e).toNat = t) (hcarry : r ≤ 2 ^ 53) (hlow : -1074 ≤ t) :
    roundWithAccuracy .binary64 s m e accuracy = ofRounded s r t := by
  unfold roundWithAccuracy
  rw [shiftToTargetExponent_eq]
  dsimp only
  rw [hr, ht, shiftToTargetExponent_eq]
  unfold ofRounded
  rcases hcarry.lt_or_eq with hlt | rfl
  · have hlog := log2_lt_of_lt hlt
    have hplace : (lastPlace r t - t).toNat = 0 := by
      unfold lastPlace
      omega
    rw [hplace]
    by_cases hzero : r = 0
    · subst hzero
      rfl
    · rw [dif_neg hzero, if_pos hlt]
      exact (dif_neg hzero).trans (by simp only [Int.natCast_zero, Int.add_zero]; rfl)
  · have hplace : (lastPlace (2 ^ 53) t - t).toNat = 1 := by
      unfold lastPlace
      rw [Nat.log2_two_pow]
      omega
    rw [hplace]
    rfl

/-- The double is finite and is the whole number `z` of units. -/
structure Yields (u : UnpackedFloat) (z : ℤ) : Prop where
  packable : Packable u
  finite : u.isFinite = true
  units_eq : units u = z

theorem ofRounded_yields (s : Sign) {r : ℕ} {t : ℤ} (hcarry : r ≤ 2 ^ 53) (hlow : -1074 ≤ t)
    (hfull : 2 ^ 52 ≤ r ∨ t = -1074) (hsize : r * 2 ^ (t + 1074).toNat ≤ 2 ^ 2097) :
    Yields (ofRounded s r t) (s.apply ↑(r * 2 ^ (t + 1074).toNat)) := by
  have hroom : ∀ k, 2 ^ k ≤ r → (t + 1074).toNat + k ≤ 2097 := by
    intro k hk
    have hpow : 2 ^ (k + (t + 1074).toNat) ≤ 2 ^ 2097 := by
      rw [pow_add]
      exact (Nat.mul_le_mul_right _ hk).trans hsize
    have := (Nat.pow_le_pow_iff_right (by omega)).mp hpow
    omega
  unfold ofRounded
  split_ifs with hzero hlt
  · subst hzero
    refine ⟨trivial, rfl, ?_⟩
    cases s <;> simp [units, Sign.apply]
  · refine ⟨⟨hlt, hlow, ?_, hfull⟩, rfl, rfl⟩
    rcases hfull with hfull | hfull
    · have := hroom 52 hfull
      omega
    · omega
  · have hr : r = 2 ^ 53 := by omega
    subst hr
    refine ⟨⟨by norm_num, by omega, ?_, .inl le_rfl⟩, rfl, ?_⟩
    · have := hroom 53 le_rfl
      omega
    · have hnext : (t + 1 + 1074).toNat = (t + 1074).toNat + 1 := by omega
      have hvalue : 2 ^ 52 * 2 ^ (t + 1 + 1074).toNat = 2 ^ 53 * 2 ^ (t + 1074).toNat := by
        rw [hnext]
        ring
      exact congrArg (fun k : ℕ => s.apply k) hvalue

theorem div_lt_of_log2_le {m n : ℕ} (h : m.log2 ≤ 52 + n) : m / 2 ^ n < 2 ^ 53 := by
  rw [Nat.div_lt_iff_lt_mul (Nat.two_pow_pos n), ← pow_add]
  exact Nat.lt_log2_self.trans_le (Nat.pow_le_pow_right (by omega) (by omega))

theorem le_div_of_le_log2 {m n : ℕ} (hm : m ≠ 0) (h : 52 + n ≤ m.log2) : 2 ^ 52 ≤ m / 2 ^ n := by
  rw [Nat.le_div_iff_mul_le (Nat.two_pow_pos n), ← pow_add]
  exact (Nat.pow_le_pow_right (by omega) h).trans (Nat.log2_self_le hm)

/-- Whatever was cut off before, the result is the quotient at the last place or one more. -/
theorem roundWithAccuracy_yields (s : Sign) {m : ℕ} {e t : ℤ} (accuracy : Accuracy)
    (ht : lastPlace m e = t) (he : e ≤ t) :
    ∃ r, m / 2 ^ (t - e).toNat ≤ r ∧ r ≤ m / 2 ^ (t - e).toNat + 1 ∧
      (accuracy = .exact → r = quotient m (t - e).toNat) ∧
      (r * 2 ^ (t + 1074).toNat ≤ 2 ^ 2097 →
        Yields (roundWithAccuracy .binary64 s m e accuracy)
          (s.apply ↑(r * 2 ^ (t + 1074).toNat))) := by
  obtain ⟨hbelow, habove⟩ := roundedMantissa_bounds
    (ExtendedMantissa.ofMantissaAndAccuracy m accuracy >>> (t - e).toNat)
  have hstart : (ExtendedMantissa.ofMantissaAndAccuracy m accuracy).mantissa = m := by
    rcases accuracy with _ | (_ | _ | _) <;> rfl
  rw [mantissa_shift, hstart] at hbelow habove
  refine ⟨_, hbelow, habove, ?_, ?_⟩
  · rintro rfl
    exact roundedMantissa_shift m _
  · intro hsize
    unfold lastPlace at ht
    have hlt : m / 2 ^ (t - e).toNat < 2 ^ 53 := div_lt_of_log2_le (by omega)
    rw [roundWithAccuracy_eq (by rw [lastPlace, ht]) (by rw [lastPlace, ht]; omega) (by omega)
      (by omega : -1074 ≤ t)]
    refine ofRounded_yields s (by omega) (by omega) ?_ hsize
    by_cases hlast : t = -1074
    · exact .inr hlast
    · left
      have hm : m ≠ 0 := by
        rintro rfl
        simp at ht
        omega
      exact (le_div_of_le_log2 hm (by omega)).trans hbelow

theorem nearest_mul_two_pow {m : ℕ} {e t : ℤ} (hm : m ≠ 0) (hlow : -1074 ≤ e)
    (ht : lastPlace m e = t) (he : e ≤ t) :
    nearest (m * 2 ^ (e + 1074).toNat) =
      quotient m (t - e).toNat * 2 ^ (t + 1074).toNat := by
  unfold lastPlace at ht
  have hplace : (m * 2 ^ (e + 1074).toNat).log2 - 52 = (t + 1074).toNat := by
    rw [Rounding.log2_mul_two_pow hm]
    omega
  have hsum : (t + 1074).toNat = (t - e).toNat + (e + 1074).toNat := by omega
  unfold nearest
  rw [hplace, hsum, Rounding.quotient_scale]

theorem round_yields (s : Sign) {m : ℕ} {e : ℤ} (hm : m ≠ 0) (hlow : -1074 ≤ e)
    (hsize : m * 2 ^ (e + 1074).toNat ≤ 2 ^ 2097) :
    Yields (UnpackedFloat.round .binary64 s m e)
      (s.apply ↑(nearest (m * 2 ^ (e + 1074).toNat))) := by
  let k := (e - lastPlace m e).toNat
  have hvalue : m * 2 ^ k * 2 ^ (e - k + 1074).toNat = m * 2 ^ (e + 1074).toNat := by
    rw [Nat.mul_assoc, ← pow_add]
    congr 2
    unfold k lastPlace
    omega
  have hplace : lastPlace (m * 2 ^ k) (e - k) = lastPlace m e := by
    unfold lastPlace
    rw [Rounding.log2_mul_two_pow hm]
    omega
  have hm' : m * 2 ^ k ≠ 0 := Nat.mul_ne_zero hm (Nat.two_pow_pos k).ne'
  have hlow' : -1074 ≤ e - k := by
    unfold k lastPlace
    omega
  have he : e - k ≤ lastPlace m e := by
    unfold k
    omega
  obtain ⟨r, -, -, hr, hyields⟩ := roundWithAccuracy_yields s .exact hplace he
  have hnearest := nearest_mul_two_pow hm' hlow' hplace he
  rw [hvalue, ← hr rfl] at hnearest
  unfold UnpackedFloat.round decreaseExponent
  rw [targetExponent_eq]
  dsimp only
  rw [Nat.shiftLeft_eq, hnearest]
  apply hyields
  rw [← hnearest]
  exact Rounding.nearest_le_two_pow hsize

theorem normalize_yields {z e : ℤ} (hlow : -1074 ≤ e)
    (hsize : |z * 2 ^ (e + 1074).toNat| ≤ 2 ^ 2097) :
    Yields (UnpackedFloat.normalize .binary64 z e .positive)
      (Rounding.signed (z * 2 ^ (e + 1074).toNat)) := by
  unfold UnpackedFloat.normalize
  rcases Int.lt_trichotomy z 0 with hneg | rfl | hpos
  · obtain ⟨m, rfl⟩ : ∃ m : ℕ, z = -m := ⟨z.natAbs, by omega⟩
    have hm : m ≠ 0 := by omega
    have hvalue : -(m : ℤ) * 2 ^ (e + 1074).toNat = -((m * 2 ^ (e + 1074).toNat : ℕ) : ℤ) := by
      push_cast
      ring
    rw [hvalue, abs_neg, Nat.abs_cast] at hsize
    rw [hvalue, Rounding.signed_neg, Rounding.signed_natCast, Int.compare_eq_lt.mpr hneg,
      Int.neg_neg, Int.toNat_natCast]
    exact round_yields .negative hm hlow (by exact_mod_cast hsize)
  · rw [Int.zero_mul]
    exact ⟨trivial, rfl, rfl⟩
  · obtain ⟨m, rfl⟩ : ∃ m : ℕ, z = m := ⟨z.natAbs, by omega⟩
    have hm : m ≠ 0 := by omega
    have hvalue : (m : ℤ) * 2 ^ (e + 1074).toNat = ((m * 2 ^ (e + 1074).toNat : ℕ) : ℤ) := by
      push_cast
      ring
    rw [hvalue, Nat.abs_cast] at hsize
    rw [hvalue, Rounding.signed_natCast, Int.compare_eq_gt.mpr hpos, Int.toNat_natCast]
    exact round_yields .positive hm hlow (by exact_mod_cast hsize)

theorem sign_apply_mul (s : Sign) (m k : ℕ) : s.apply ↑(m * k) = s.apply m * k := by
  cases s <;> simp [Sign.apply]

theorem signed_sign_apply (s : Sign) (m : ℕ) :
    Rounding.signed (s.apply m) = s.apply ↑(nearest m) := by
  cases s
  · exact (Rounding.signed_neg m).trans (congrArg Neg.neg (Rounding.signed_natCast m))
  · exact Rounding.signed_natCast m

theorem signed_units {u : UnpackedFloat} (h : Packable u) :
    Rounding.signed (units u) = units u := by
  cases u with
  | finite s m e hm =>
    show Rounding.signed (s.apply _) = s.apply _
    rw [signed_sign_apply, Rounding.nearest_of_lt h.lt]
  | _ => exact Rounding.signed_zero

theorem units_align (s : Sign) (m : ℕ) {e f : ℤ} (hlow : -1074 ≤ f) (hle : f ≤ e) :
    s.apply ↑(m * 2 ^ (e + 1074).toNat) =
      s.apply ↑(m <<< (e - f).toNat) * 2 ^ (f + 1074).toNat := by
  have hsum : (e + 1074).toNat = (e - f).toNat + (f + 1074).toNat := by omega
  rw [hsum, pow_add, ← Nat.mul_assoc, sign_apply_mul, Nat.shiftLeft_eq]
  push_cast
  rfl

theorem add_yields {a b : UnpackedFloat} {x y : ℤ} (ha : Yields a x) (hb : Yields b y)
    (hsize : |x + y| ≤ 2 ^ 2097) :
    Yields (UnpackedFloat.add .binary64 a b) (Rounding.signed (x + y)) := by
  obtain ⟨hafits, hafinite, rfl⟩ := ha
  obtain ⟨hbfits, hbfinite, rfl⟩ := hb
  cases a with
  | infinity s => cases hafinite
  | notANumber => cases hafinite
  | zero s =>
    have hzero : units (.zero s) = 0 := rfl
    rw [hzero, Int.zero_add, signed_units hbfits]
    cases b with
    | infinity t => cases hbfinite
    | notANumber => cases hbfinite
    | zero t => cases s <;> cases t <;> exact ⟨trivial, rfl, rfl⟩
    | finite t m e hm => exact ⟨hbfits, rfl, rfl⟩
  | finite s m e hm =>
    cases b with
    | infinity t => cases hbfinite
    | notANumber => cases hbfinite
    | zero t =>
      have hzero : units (.zero t) = 0 := rfl
      rw [hzero, Int.add_zero, signed_units hafits]
      exact ⟨hafits, rfl, rfl⟩
    | finite t k f hk =>
      have hlow : -1074 ≤ min e f := le_min hafits.low hbfits.low
      have hsum : units (.finite s m e hm) + units (.finite t k f hk) =
          (s.apply ↑(m <<< (e - min e f).toNat) + t.apply ↑(k <<< (f - min e f).toNat)) *
            2 ^ (min e f + 1074).toNat := by
        rw [Int.add_mul, ← units_align s m hlow (min_le_left e f),
          ← units_align t k hlow (min_le_right e f)]
        rfl
      rw [hsum] at hsize ⊢
      exact normalize_yields hlow hsize

theorem sign_apply_neg (s : Sign) (z : ℤ) : (-s).apply z = -s.apply z := by
  cases s
  · exact (Int.neg_neg z).symm
  · rfl

theorem sub_eq_add (a b : UnpackedFloat) :
    UnpackedFloat.sub .binary64 a b = UnpackedFloat.add .binary64 a b.neg := by
  cases a <;> cases b <;>
    simp [UnpackedFloat.sub, UnpackedFloat.add, UnpackedFloat.neg, sign_apply_neg,
      Int.sub_eq_add_neg]

theorem units_neg (u : UnpackedFloat) : units u.neg = -units u := by
  cases u with
  | finite s m e hm => exact sign_apply_neg s _
  | _ => rfl

theorem Yields.neg {u : UnpackedFloat} {z : ℤ} (h : Yields u z) : Yields u.neg (-z) := by
  obtain ⟨hfits, hfinite, rfl⟩ := h
  refine ⟨?_, ?_, units_neg u⟩
  · cases u with
    | finite s m e hm => exact hfits
    | _ => trivial
  · cases u <;> exact hfinite

theorem sub_yields {a b : UnpackedFloat} {x y : ℤ} (ha : Yields a x) (hb : Yields b y)
    (hsize : |x - y| ≤ 2 ^ 2097) :
    Yields (UnpackedFloat.sub .binary64 a b) (Rounding.signed (x - y)) := by
  rw [sub_eq_add]
  exact add_yields ha hb.neg hsize

end GraphScribe.Double
