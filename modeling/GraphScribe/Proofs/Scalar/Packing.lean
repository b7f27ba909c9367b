import Mathlib

/-! # Doubles in 64 bits

The forms of a double that survive being packed into 64 bits; what is unpacked has such a form. -/
namespace GraphScribe.Double

open Float.Model Float.Model.UnpackedFloat

/-- A significand and an exponent that 64 bits have room for. -/
structure Fits (m : ℕ) (e : ℤ) : Prop where
  lt : m < 2 ^ 53
  low : -1074 ≤ e
  high : e ≤ 971
  full : 2 ^ 52 ≤ m ∨ e = -1074

def Packable : UnpackedFloat → Prop
  | .finite _ m e _ => Fits m e
  | _ => True

theorem log2_of_normal {m : ℕ} (hlow : 2 ^ 52 ≤ m) (hhigh : m < 2 ^ 53) : m.log2 = 52 :=
  (Nat.log2_eq_iff (by omega)).mpr ⟨hlow, hhigh⟩

theorem exponentBias_eq : (Format.binary64.exponentBias : ℤ) = 1023 := rfl

theorem toNat_one_append (v : BitVec 52) : (1#1 ++ v).toNat = 2 ^ 52 + v.toNat := by
  rw [BitVec.toNat_append, ← Nat.shiftLeft_add_eq_or_of_lt v.isLt]
  simp [Nat.shiftLeft_eq]

theorem packable_unpack (b : BitVec Format.binary64.numBits) : Packable (unpack .binary64 b) := by
  have hmantissa : (unpackMantissa b).toNat < 2 ^ 52 := (unpackMantissa b).isLt
  have hexponent : (unpackExponent b).toNat < 2 ^ 11 := (unpackExponent b).isLt
  unfold UnpackedFloat.unpack
  dsimp only
  split_ifs with hones hzero hnone hempty
  · trivial
  · trivial
  · trivial
  · have hnat : (unpackExponent b).toNat = 0 := by rw [hnone]; rfl
    show Fits _ _
    rw [exponentBias_eq, hnat]
    exact ⟨by omega, by norm_num, by norm_num, .inr (by norm_num)⟩
  · have hpos : (unpackExponent b).toNat ≠ 0 := fun h => hnone (BitVec.eq_of_toNat_eq h)
    have hlt : (unpackExponent b).toNat ≠ 2047 := fun h => hones (BitVec.eq_of_toNat_eq h)
    show Fits _ _
    rw [exponentBias_eq, toNat_one_append]
    dsimp only at *
    exact ⟨by omega, by push_cast; omega, by push_cast; omega, .inl (by omega)⟩

theorem unpack_pack_normal {s : Sign} {m : ℕ} {e : ℤ} {hm : 0 < m} (h : Fits m e)
    (hfull : 2 ^ 52 ≤ m) :
    unpack .binary64 (UnpackedFloat.pack .binary64 (.finite s m e hm)) = .finite s m e hm := by
  have hlog := log2_of_normal hfull h.lt
  have hlow := h.low
  have hhigh := h.high
  have hlt := h.lt
  have hbiased : (e + Format.binary64.exponentBias +
      Format.binary64.mantissaBitsWithoutImplicit).toNat = (e + 1075).toNat := by
    rw [exponentBias_eq]
    dsimp only
    omega
  have hones : BitVec.ofNat 11 (e + 1075).toNat ≠ -1#11 := by
    intro heq
    have := congrArg BitVec.toNat heq
    simp at this
    omega
  have hzero : BitVec.ofNat 11 (e + 1075).toNat ≠ 0#11 := by
    intro heq
    have := congrArg BitVec.toNat heq
    simp at this
    omega
  have hmantissa : (1#1 ++ BitVec.ofNat 52 m).toNat = m := by
    rw [toNat_one_append, BitVec.toNat_ofNat]
    omega
  unfold UnpackedFloat.pack
  dsimp only
  rw [hbiased, hlog, if_neg (by omega), if_pos (show 52 + 1 = Format.binary64.mantissaBits from rfl)]
  unfold UnpackedFloat.unpack
  simp only [unpackMantissa_packComponents, unpackExponent_packComponents,
    unpackSign_packComponents, Sign.ofBitVec_toBitVec, if_neg hones, if_neg hzero, hmantissa,
    exponentBias_eq, BitVec.toNat_ofNat]
  congr 1
  omega

theorem unpack_pack_subnormal {s : Sign} {m : ℕ} {hm : 0 < m} (hlt : m < 2 ^ 52) :
    unpack .binary64 (UnpackedFloat.pack .binary64 (.finite s m (-1074) hm)) =
      .finite s m (-1074) hm := by
  have hlog : m.log2 + 1 ≠ Format.binary64.mantissaBits := by
    have := (Nat.log2_lt hm.ne').mpr hlt
    show m.log2 + 1 ≠ 53
    omega
  have hmantissa : (BitVec.ofNat 52 m).toNat = m := by
    rw [BitVec.toNat_ofNat]
    omega
  have hzero : BitVec.ofNat 52 m ≠ 0#52 := by
    intro heq
    rw [heq] at hmantissa
    simp at hmantissa
    omega
  unfold UnpackedFloat.pack
  dsimp only
  rw [if_neg (by decide), if_neg hlog]
  unfold UnpackedFloat.unpack
  simp only [unpackMantissa_packComponents, unpackExponent_packComponents,
    unpackSign_packComponents, Sign.ofBitVec_toBitVec, hmantissa, exponentBias_eq, dif_neg hzero]
  rfl

theorem unpack_pack {u : UnpackedFloat} (h : Packable u) :
    unpack .binary64 (UnpackedFloat.pack .binary64 u) = u := by
  cases u with
  | infinity s => cases s <;> rfl
  | notANumber => rfl
  | zero s => cases s <;> rfl
  | finite s m e hm =>
    by_cases hfull : 2 ^ 52 ≤ m
    · exact unpack_pack_normal h hfull
    · have he : e = -1074 := h.full.resolve_left hfull
      subst he
      exact unpack_pack_subnormal (by omega)

end GraphScribe.Double
