import GraphScribe.Scalar.Double
import GraphScribe.Proofs.Scalar.Binary64

/-! # The size of doubles

How large the results of the operations on doubles can be. The right edge of a rectangle is kept as
the left edge and a width; rounding does not let it drift: computed from two bounded edges, it keeps
to the same bound. -/
namespace GraphScribe.Double

open Float.Model Float.Model.UnpackedFloat

/-- The double is finite and of at most `2 ^ j` units. -/
structure Bounded (u : UnpackedFloat) (j : ℕ) : Prop where
  yields : Yields u (units u)
  units_le : |units u| ≤ 2 ^ j

theorem Yields.bounded {u : UnpackedFloat} {z : ℤ} {j : ℕ} (h : Yields u z) (hz : |z| ≤ 2 ^ j) :
    Bounded u j := by
  obtain ⟨hfits, hfinite, rfl⟩ := h
  exact ⟨⟨hfits, hfinite, rfl⟩, hz⟩

theorem abs_sign_apply (s : Sign) (m : ℕ) : |s.apply m| = m := by
  cases s <;> simp [Sign.apply]

theorem roundWithAccuracy_bounded (s : Sign) {m : ℕ} {e t : ℤ} {j : ℕ} (accuracy : Accuracy)
    (ht : lastPlace m e = t) (he : e ≤ t) (hj : j ≤ 2097) (hlow : e + 1074 ≤ j)
    (hsize : m < 2 ^ (j - 1074 - e).toNat) :
    Bounded (roundWithAccuracy .binary64 s m e accuracy) j := by
  obtain ⟨r, -, habove, -, hyields⟩ := roundWithAccuracy_yields s accuracy ht he
  unfold lastPlace at ht
  have hlog : m = 0 ∨ m.log2 < (j - 1074 - e).toNat := by
    by_cases hm : m = 0
    · exact .inl hm
    · exact .inr ((Nat.log2_lt hm).mpr hsize)
  have hplace : t + 1074 ≤ j := by
    rcases hlog with rfl | hlog
    · rw [Nat.log2_zero] at ht
      omega
    · omega
  have hr : r ≤ 2 ^ (j - 1074 - t).toNat := by
    have hsum : (j - 1074 - e).toNat = (t - e).toNat + (j - 1074 - t).toNat := by omega
    rw [hsum, pow_add] at hsize
    have := Nat.div_lt_of_lt_mul hsize
    omega
  have hunits : r * 2 ^ (t + 1074).toNat ≤ 2 ^ j := by
    have hsum : j = (j - 1074 - t).toNat + (t + 1074).toNat := by omega
    conv_rhs => rw [hsum, pow_add]
    exact Nat.mul_le_mul_right _ hr
  apply (hyields (hunits.trans (pow_le_pow_right₀ one_le_two hj))).bounded
  rw [abs_sign_apply]
  exact_mod_cast hunits

theorem Bounded.mono {u : UnpackedFloat} {j k : ℕ} (h : Bounded u j) (hjk : j ≤ k) :
    Bounded u k :=
  ⟨h.yields, h.units_le.trans (pow_le_pow_right₀ one_le_two hjk)⟩

theorem Bounded.significand_le {s : Sign} {m : ℕ} {e : ℤ} {hm : 0 < m} {j : ℕ}
    (h : Bounded (.finite s m e hm) j) : e + 1074 ≤ j ∧ m ≤ 2 ^ (j - 1074 - e).toNat := by
  have hlow := h.yields.packable.low
  have hunits : m * 2 ^ (e + 1074).toNat ≤ 2 ^ j := by
    have hle := h.units_le
    change |s.apply _| ≤ _ at hle
    rw [abs_sign_apply] at hle
    exact_mod_cast hle
  have hexponent : (e + 1074).toNat ≤ j := by
    have hpow : 2 ^ (e + 1074).toNat ≤ 2 ^ j := (Nat.le_mul_of_pos_left _ hm).trans hunits
    exact (Nat.pow_le_pow_iff_right (by omega)).mp hpow
  have hsum : j = (j - 1074 - e).toNat + (e + 1074).toNat := by omega
  rw [hsum, pow_add] at hunits
  exact ⟨by omega, Nat.le_of_mul_le_mul_right hunits (Nat.two_pow_pos _)⟩

theorem bounded_zero (s : Sign) (j : ℕ) : Bounded (.zero s) j :=
  ⟨⟨trivial, rfl, rfl⟩, by simp [units]⟩

theorem bounded_finite {s : Sign} {m k : ℕ} {e : ℤ} {hm : 0 < m} (j : ℕ) (h : Fits m e)
    (hle : m ≤ 2 ^ k) (hj : k + (e + 1074) ≤ j) : Bounded (.finite s m e hm) j := by
  have hlow := h.low
  refine ⟨⟨h, rfl, rfl⟩, ?_⟩
  show |s.apply _| ≤ _
  rw [abs_sign_apply]
  have hunits : m * 2 ^ (e + 1074).toNat ≤ 2 ^ j :=
    calc m * 2 ^ (e + 1074).toNat ≤ 2 ^ k * 2 ^ (e + 1074).toNat := Nat.mul_le_mul_right _ hle
      _ = 2 ^ (k + (e + 1074).toNat) := (pow_add _ _ _).symm
      _ ≤ 2 ^ j := Nat.pow_le_pow_right (by omega) (by omega)
  exact_mod_cast hunits

def two : UnpackedFloat := .finite .positive (2 ^ 52) (-51) leadingBit_pos

theorem two_mul_bounded {u : UnpackedFloat} {j : ℕ} (h : Bounded u j) (hj : j ≤ 2095) :
    Bounded (UnpackedFloat.mul .binary64 two u) (j + 2) := by
  cases u with
  | infinity s => cases h.yields.finite
  | notANumber => cases h.yields.finite
  | zero s => exact bounded_zero _ _
  | finite s m e hm =>
    obtain ⟨hexponent, hle⟩ := h.significand_le
    have hlog : (2 ^ 52 * m).log2 = m.log2 + 52 := by
      rw [Nat.mul_comm, Rounding.log2_mul_two_pow hm.ne']
    refine roundWithAccuracy_bounded _ .exact rfl ?_ (by omega) (by push_cast; omega) ?_
    · unfold lastPlace
      rw [hlog]
      push_cast
      omega
    · have hsum : (((j + 2 : ℕ) : ℤ) - 1074 - (-51 + e)).toNat = 53 + (j - 1074 - e).toNat := by
        push_cast
        omega
      rw [hsum, pow_add]
      have := Nat.two_pow_pos (j - 1074 - e).toNat
      omega

/-- The exponent at which a half is computed, a few places below the last one kept of it. -/
theorem divExponent_eq {m : ℕ} {e : ℤ} (hlog : m.log2 < 53) (hlow : -1074 ≤ e) :
    min (e - -51) (Format.binary64.targetExponent
      (totalExponent m e - totalExponent (2 ^ 52) (-51))) = max (m.log2 + e - 54) (-1074) := by
  unfold totalExponent Format.targetExponent
  rw [Nat.log2_two_pow]
  show min _ (max (_ - 53) (-1074)) = _
  push_cast
  omega

theorem le_lastPlace_half {m : ℕ} {e t : ℤ} (hm : m ≠ 0) (hlog : m.log2 < 53)
    (ht : max (m.log2 + e - 54) (-1074) = t) :
    t ≤ lastPlace (m * 2 ^ (e - -51 - t).toNat / 2 ^ 52) t := by
  unfold lastPlace
  by_cases hlast : t = -1074
  · omega
  · have hquotient : 2 ^ 53 ≤ m * 2 ^ (e - -51 - t).toNat / 2 ^ 52 := by
      rw [Nat.le_div_iff_mul_le (by norm_num)]
      calc 2 ^ 53 * 2 ^ 52 = 2 ^ (m.log2 + (e - -51 - t).toNat) := by
            rw [← pow_add]
            congr 1
            omega
        _ = 2 ^ m.log2 * 2 ^ (e - -51 - t).toNat := pow_add _ _ _
        _ ≤ m * 2 ^ (e - -51 - t).toNat := Nat.mul_le_mul_right _ (Nat.log2_self_le hm)
    have := (Nat.le_log2 (by omega)).mpr hquotient
    omega

theorem half_bounded {u : UnpackedFloat} {j : ℕ} (h : Bounded u j) (hj : j ≤ 2097) :
    Bounded (UnpackedFloat.div .binary64 u two) j := by
  cases u with
  | infinity s => cases h.yields.finite
  | notANumber => cases h.yields.finite
  | zero s => exact bounded_zero _ _
  | finite s m e hm =>
    obtain ⟨hexponent, hle⟩ := h.significand_le
    have hlow := h.yields.packable.low
    have hlog : m.log2 < 53 := log2_lt_of_lt h.yields.packable.lt
    obtain ⟨t, ht⟩ : ∃ t : ℤ, max (m.log2 + e - 54) (-1074) = t := ⟨_, rfl⟩
    show Bounded (let (q, t, accuracy) := divCore .binary64 m e (2 ^ 52) (-51)
      roundWithAccuracy .binary64 (s / .positive) q t accuracy) j
    unfold divCore
    rw [divExponent_eq hlog hlow, ht]
    dsimp only
    rw [Nat.shiftLeft_eq]
    apply roundWithAccuracy_bounded _ _ rfl (le_lastPlace_half hm.ne' hlog ht) hj (by omega)
    apply Nat.div_lt_of_lt_mul
    calc m * 2 ^ (e - -51 - t).toNat ≤ 2 ^ (j - 1074 - e).toNat * 2 ^ (e - -51 - t).toNat :=
          Nat.mul_le_mul_right _ hle
      _ = 2 ^ ((j - 1074 - e).toNat + (e - -51 - t).toNat) := (pow_add _ _ _).symm
      _ < 2 ^ (52 + (j - 1074 - t).toNat) := Nat.pow_lt_pow_right (by omega) (by omega)
      _ = 2 ^ 52 * 2 ^ (j - 1074 - t).toNat := pow_add _ _ _

def Within (j : ℕ) (x : Float) : Prop := Bounded x.toModel.unpack j

theorem unpack_ofModel {u : UnpackedFloat} (h : Packable u) :
    (Float.ofModel (.pack u)).toModel.unpack = u := unpack_pack h

theorem unpack_two : (Scalar.ofNat 2 : Float).toModel.unpack = two := rfl

namespace Within

variable {x y : Float} {j k : ℕ}

theorem mono (h : Within j x) (hjk : j ≤ k) : Within k x := Bounded.mono h hjk

theorem isFinite (h : Within j x) : x.isFinite = true := h.yields.finite

theorem zero (j : ℕ) : Within j (Scalar.ofNat 0) := bounded_zero .positive j

theorem of_bounded {u : UnpackedFloat} (h : Bounded u j) : Within j (.ofModel (.pack u)) := by
  unfold Within
  rwa [unpack_ofModel h.yields.packable]

theorem of_yields {u : UnpackedFloat} {z : ℤ} (h : Yields u z) (hz : |z| ≤ 2 ^ j) :
    Within j (.ofModel (.pack u)) :=
  of_bounded (h.bounded hz)

/-- A power of two bounds the rounded result as well as the exact one. -/
theorem of_rounded {u : UnpackedFloat} {z : ℤ} (h : |z| ≤ 2 ^ 2097 → Yields u (Rounding.signed z))
    (hz : |z| ≤ 2 ^ j) (hj : j ≤ 2097) : Within j (.ofModel (.pack u)) :=
  of_yields (h (hz.trans (pow_le_pow_right₀ one_le_two hj))) (Rounding.abs_signed_le_two_pow hz)

theorem add_units_le (hx : Within j x) (hy : Within j y) :
    |units x.toModel.unpack + units y.toModel.unpack| ≤ 2 ^ (j + 1) := by
  rw [pow_succ]
  linarith [abs_add_le (units x.toModel.unpack) (units y.toModel.unpack), hx.units_le, hy.units_le]

theorem sub_units_le (hx : Within j x) (hy : Within j y) :
    |units x.toModel.unpack - units y.toModel.unpack| ≤ 2 ^ (j + 1) := by
  rw [pow_succ]
  linarith [abs_sub (units x.toModel.unpack) (units y.toModel.unpack), hx.units_le, hy.units_le]

theorem add (hx : Within j x) (hy : Within j y) (hj : j ≤ 2096) : Within (j + 1) (x + y) :=
  of_rounded (add_yields hx.yields hy.yields) (add_units_le hx hy) (by omega)

theorem sub (hx : Within j x) (hy : Within j y) (hj : j ≤ 2096) : Within (j + 1) (x - y) :=
  of_rounded (sub_yields hx.yields hy.yields) (sub_units_le hx hy) (by omega)

theorem half (hx : Within j x) (hj : j ≤ 2097) : Within j (Scalar.half x) := by
  have hbounded := half_bounded hx hj
  rw [← unpack_two] at hbounded
  exact of_bounded hbounded

theorem two_mul (hx : Within j x) (hj : j ≤ 2095) : Within (j + 2) (Scalar.ofNat 2 * x) := by
  have hbounded := two_mul_bounded hx hj
  rw [← unpack_two] at hbounded
  exact of_bounded hbounded

theorem min (hx : Within j x) (hy : Within j y) : Within j (Scalar.min x y) := by
  unfold Scalar.min
  split
  · exact hy
  · exact hx

theorem max (hx : Within j x) (hy : Within j y) : Within j (Scalar.max x y) := by
  unfold Scalar.max
  split
  · exact hy
  · exact hx

/-- The error of the difference is at most half of the last bit below `2 ^ (j + 1)`, and a sum that
exceeds `2 ^ j` by no more is rounded down to it. -/
theorem add_sub (hx : Within j x) (hy : Within j y) (hlow : 53 ≤ j) (hj : j ≤ 2095) :
    Within j (x + (y - x)) := by
  have hdiff := sub_units_le hy hx
  have hwidth := sub hy hx (by omega)
  have hroom := hdiff.trans (pow_le_pow_right₀ one_le_two (by omega : j + 1 ≤ 2097))
  have hunits : units (y - x).toModel.unpack =
      Rounding.signed (units y.toModel.unpack - units x.toModel.unpack) := by
    have hyields := sub_yields hy.yields hx.yields hroom
    have hunpack : (y - x).toModel.unpack = _ := unpack_ofModel hyields.packable
    rw [hunpack, hyields.units_eq]
  have herror := Rounding.abs_signed_sub_le hlow hdiff
  rw [← hunits] at herror
  have hsum : |units x.toModel.unpack + units (y - x).toModel.unpack| ≤ 2 ^ j + 2 ^ (j - 53) := by
    have hy := hy.units_le
    rw [abs_le] at herror hy ⊢
    constructor <;> linarith
  have hsumroom : |units x.toModel.unpack + units (y - x).toModel.unpack| ≤ 2 ^ 2097 := by
    have hle : (2 : ℤ) ^ (j - 53) ≤ 2 ^ j := pow_le_pow_right₀ one_le_two (by omega)
    have hnext : (2 : ℤ) ^ j + 2 ^ j = 2 ^ (j + 1) := by ring
    exact (hsum.trans (by linarith)).trans (pow_le_pow_right₀ one_le_two (by omega : j + 1 ≤ 2097))
  exact of_yields (add_yields hx.yields hwidth.yields hsumroom)
    (Rounding.abs_signed_le_of_le_add hlow hsum)

end Within

/-- The magnitude is at most `2 ^ 1019`, a thirty-second of where the doubles end. -/
def Moderate (x : Float) : Prop := x.abs ≤ twoPow 1019

instance (x : Float) : Decidable (Moderate x) := inferInstanceAs (Decidable (x.abs ≤ twoPow 1019))

theorem twoPow_limit : twoPow 1019 = .ofBits 0x7FA0000000000000 := by decide +kernel

theorem unpack_limit :
    (Float.ofBits 0x7FA0000000000000).toModel.unpack =
      .finite .positive (2 ^ 52) 967 (by decide) :=
  (unpack_ofModel (packable_unpack _)).trans rfl

theorem unpack_abs (x : Float) : x.abs.toModel.unpack = x.toModel.unpack.abs := by
  have hx : Packable x.toModel.unpack := packable_unpack _
  apply unpack_ofModel
  cases hu : x.toModel.unpack with
  | finite s m e hm =>
    rw [hu] at hx
    exact hx
  | _ => trivial

theorem Moderate.within {x : Float} (h : Moderate x) : Within 2093 x := by
  have hx : Packable x.toModel.unpack := packable_unpack _
  have hle : x.toModel.unpack.abs.le (.finite .positive (2 ^ 52) 967 (by decide)) = true := by
    rw [← unpack_abs, ← unpack_limit, ← twoPow_limit]
    exact of_decide_eq_true h
  unfold Within
  cases hu : x.toModel.unpack with
  | notANumber =>
    rw [hu] at hle
    cases hle
  | infinity s =>
    rw [hu] at hle
    cases hle
  | zero s => exact bounded_zero s _
  | finite s m e hm =>
    rw [hu] at hle hx
    change ((compare e 967).then (compare m (2 ^ 52))).isLE = true at hle
    rcases Int.lt_trichotomy e 967 with hlt | rfl | hgt
    · exact bounded_finite 2093 hx hx.lt.le (by omega)
    · rw [Int.compare_eq_eq.mpr rfl] at hle
      exact bounded_finite 2093 hx (Nat.isLE_compare.mp hle) (by omega)
    · rw [Int.compare_eq_gt.mpr hgt] at hle
      cases hle

end GraphScribe.Double
