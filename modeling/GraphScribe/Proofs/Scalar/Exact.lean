import GraphScribe.Scalar.Basic
import Mathlib.Analysis.SpecialFunctions.Trigonometric.Basic
import Mathlib.Tactic.Linarith

/-! # Exact arithmetic

The scalars of an ordered field: nothing is rounded, every scalar is finite and equal to itself. What
a field does not determine, such as roots and angles, is left open; a statement that holds over every
such field holds whatever these functions return. Over the real numbers they are what they are named
after. -/
namespace GraphScribe

/-- An ordered field with the functions that drawings are computed with. -/
class ExactScalar (K : Type) extends Field K, LinearOrder K, IsStrictOrderedRing K where
  pi : K
  sqrt : K → K
  sin : K → K
  cos : K → K
  hypot : K → K → K
  round : K → ℤ

instance {K : Type} [ExactScalar K] : Scalar K where
  ofInt n := n
  decimal digits places := digits / 10 ^ places
  pi := ExactScalar.pi
  sqrt := ExactScalar.sqrt
  sin := ExactScalar.sin
  cos := ExactScalar.cos
  hypot := ExactScalar.hypot
  round := ExactScalar.round
  isFinite _ := true
  lt a b := a < b
  le a b := a ≤ b
  eq a b := a = b
  order := compare

section Operations

-- A scalar's own operations are those of the field. These instances come after both, so that terms
-- name the field's operations wherever the two could be meant.
variable {K : Type} [ExactScalar K]

instance ExactScalar.instAdd : Add K := Distrib.toAdd

instance ExactScalar.instSub : Sub K := SubNegMonoid.toSub

instance ExactScalar.instMul : Mul K := Distrib.toMul

instance ExactScalar.instDiv : Div K := DivInvMonoid.toDiv

instance ExactScalar.instNeg : Neg K := SubNegMonoid.toNeg

end Operations

noncomputable instance : ExactScalar ℝ where
  pi := Real.pi
  sqrt := Real.sqrt
  sin := Real.sin
  cos := Real.cos
  hypot x y := Real.sqrt (x ^ 2 + y ^ 2)
  round x := if 0 ≤ x then ⌊x + 1 / 2⌋ else ⌈x - 1 / 2⌉

namespace Scalar

variable {K : Type} [ExactScalar K] (a b : K)

@[simp] theorem isFinite_exact : isFinite a = true := rfl

@[simp] theorem lt_exact : lt a b = decide (a < b) := rfl

@[simp] theorem le_exact : le a b = decide (a ≤ b) := rfl

@[simp] theorem eq_exact : eq a b = decide (a = b) := rfl

@[simp] theorem decimal_exact (digits places : ℕ) :
    (decimal digits places : K) = digits / 10 ^ places := rfl

@[simp] theorem ofNat_exact (n : ℕ) : (ofNat n : K) = n := by
  simp [ofNat, ofInt]

@[simp] theorem half_exact : half a = a / 2 := by
  simp [half]

@[simp] theorem min_exact : min a b = a ⊓ b := by
  by_cases h : b < a
  · simp [min, h, h.le]
  · simp [min, h, not_lt.mp h]

@[simp] theorem max_exact : max a b = a ⊔ b := by
  by_cases h : a < b
  · simp [max, h, h.le]
  · simp [max, h, not_lt.mp h]

end Scalar

end GraphScribe
