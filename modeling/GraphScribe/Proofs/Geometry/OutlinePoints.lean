import GraphScribe.Geometry.Outline
import GraphScribe.Proofs.Geometry.Rect
import Mathlib.Tactic.FieldSimp
import Mathlib.Tactic.Positivity

/-! # Points on outlines

Over the real numbers, the ray from the centre of a node towards any other point leaves the node on
its outline: on the ellipse, on a side of the rectangle, on a straight side or a corner arc of the
rounded rectangle. Rounding the corners brings the point nearer, if anything. On the way nothing is
divided by zero, and no root is taken of a negative number. -/
namespace GraphScribe

open Scalar (ofNat half)

section Guarded

variable {α : Type} [Scalar α]

def Scalar.div? (x y : α) : Option α := if eq y (ofNat 0) then none else some (x / y)

def Scalar.sqrt? (x : α) : Option α := if lt x (ofNat 0) then none else some (sqrt x)

namespace Outline

open Scalar (div? sqrt?)

def guardedEllipse? (d : Point α) (a b : α) : Option α := do
  let x ← div? d.x a
  let y ← div? d.y b
  let length ← sqrt? (square x + square y)
  div? (ofNat 1) length

def guardedSide? (d a : α) : Option (Option α) :=
  if Scalar.eq d (ofNat 0) then some none else (div? a (Scalar.abs d)).map some

def guardedSole? (t : α) : Option α := if Scalar.eq t t then some t else div? (ofNat 1) (ofNat 0)

def guardedRectangle? (d : Point α) (a b : α) : Option α := do
  match ← guardedSide? d.x a, ← guardedSide? d.y b with
  | some tx, some ty => return Scalar.min tx ty
  | some tx, none => guardedSole? tx
  | none, some ty => guardedSole? ty
  | none, none => return ofNat 0

def guardedRounded? (d : Point α) (a b : α) : Option α := do
  let t ← guardedRectangle? d a b
  let radius := cornerRadius a b
  let hit := d.scale t
  let innerX := a - radius
  let innerY := b - radius
  if Scalar.le (Scalar.abs hit.x) innerX || Scalar.le (Scalar.abs hit.y) innerY then return t
  else
    let corner : Point α := ⟨withSign innerX hit.x, withSign innerY hit.y⟩
    let qa := d.x * d.x + d.y * d.y
    let qb := -ofNat 2 * (d.x * corner.x + d.y * corner.y)
    let qc := corner.x * corner.x + corner.y * corner.y - radius * radius
    let discriminant := qb * qb - ofNat 4 * qa * qc
    if Scalar.lt discriminant (ofNat 0) then return t
    else
      let root ← sqrt? discriminant
      div? (-qb + root) (ofNat 2 * qa)

def guardedFactor? (shape : NodeShape) (d : Point α) (a b : α) : Option α :=
  match shape with
  | .ellipse => guardedEllipse? d a b
  | .rectangle => guardedRectangle? d a b
  | .roundedRectangle => guardedRounded? d a b

end Outline

/-- The point on the outline, if no division on the way is one by zero and no root is one of a
negative number. -/
def guardedPoint? (shape : NodeShape) (center : Point α) (size : Size α) (toward : Point α) :
    Option (Point α) := do
  let d := toward - center
  let a ← Scalar.div? size.width (ofNat 2)
  let b ← Scalar.div? size.height (ofNat 2)
  if Scalar.eq d.length (ofNat 0) || Scalar.le a (ofNat 0) || Scalar.le b (ofNat 0) then
    return center
  else
    let t ← Outline.guardedFactor? shape d a b
    return center + d.scale t

end Guarded

namespace Scalar

theorem abs_exact {K : Type} [ExactScalar K] (a : K) : abs a = |a| := by
  by_cases h : a < 0
  · simp [abs, h, abs_of_neg]
  · simp [abs, h, abs_of_nonneg (not_lt.mp h)]

theorem sqrt_real (x : ℝ) : sqrt x = Real.sqrt x := rfl

theorem div?_exact {K : Type} [ExactScalar K] {x y : K} (h : y ≠ 0) : div? x y = some (x / y) := by
  simp [div?, h]

theorem sqrt?_real {x : ℝ} (h : 0 ≤ x) : sqrt? x = some (Real.sqrt x) := by
  simp [sqrt?, not_lt.mpr h, sqrt, ExactScalar.sqrt]

end Scalar

namespace Outline

/-- The point, seen from the centre of a node with half sides `a` and `b`, lies on its outline. -/
def Has (a b : ℝ) (p : Point ℝ) : NodeShape → Prop
  | .ellipse => (p.x / a) ^ 2 + (p.y / b) ^ 2 = 1
  | .rectangle => |p.x| = a ∧ |p.y| ≤ b ∨ |p.y| = b ∧ |p.x| ≤ a
  | .roundedRectangle =>
    let r := min a b / 4
    |p.x| = a ∧ |p.y| ≤ b - r ∨ |p.y| = b ∧ |p.x| ≤ a - r ∨
      a - r ≤ |p.x| ∧ b - r ≤ |p.y| ∧ (|p.x| - (a - r)) ^ 2 + (|p.y| - (b - r)) ^ 2 = r ^ 2

section Factors

variable {d : Point ℝ} {a b : ℝ}

theorem abs_scale_x {t : ℝ} (ht : 0 < t) : |(d.scale t).x| = |d.x| * t := by
  rw [Point.scale, abs_mul, abs_of_pos ht]

theorem abs_scale_y {t : ℝ} (ht : 0 < t) : |(d.scale t).y| = |d.y| * t := by
  rw [Point.scale, abs_mul, abs_of_pos ht]

theorem ellipse_sum_pos (hd : d.x ≠ 0 ∨ d.y ≠ 0) (ha : 0 < a) (hb : 0 < b) :
    0 < (d.x / a) ^ 2 + (d.y / b) ^ 2 := by
  rcases hd with hx | hy
  · have := div_ne_zero hx ha.ne'
    positivity
  · have := div_ne_zero hy hb.ne'
    positivity

theorem ellipseFactor_real :
    ellipseFactor d a b = 1 / Real.sqrt ((d.x / a) ^ 2 + (d.y / b) ^ 2) := by
  simp [ellipseFactor, square, Scalar.sqrt, ExactScalar.sqrt, pow_two]

theorem ellipseFactor_pos (hd : d.x ≠ 0 ∨ d.y ≠ 0) (ha : 0 < a) (hb : 0 < b) :
    0 < ellipseFactor d a b := by
  rw [ellipseFactor_real]
  exact one_div_pos.mpr (Real.sqrt_pos.mpr (ellipse_sum_pos hd ha hb))

theorem ellipse_has (hd : d.x ≠ 0 ∨ d.y ≠ 0) (ha : 0 < a) (hb : 0 < b) :
    Has a b (d.scale (ellipseFactor d a b)) .ellipse := by
  have hsum := ellipse_sum_pos hd ha hb
  have hroot := Real.sq_sqrt hsum.le
  have hpos := Real.sqrt_pos.mpr hsum
  rw [ellipseFactor_real]
  set q := Real.sqrt ((d.x / a) ^ 2 + (d.y / b) ^ 2)
  calc (d.x * (1 / q) / a) ^ 2 + (d.y * (1 / q) / b) ^ 2
      = ((d.x / a) ^ 2 + (d.y / b) ^ 2) / q ^ 2 := by ring
    _ = 1 := by rw [hroot, div_self hsum.ne']

/-- After `t` the ray is on a side of the rectangle, and past neither pair of sides. -/
structure Reaches (d : Point ℝ) (a b t : ℝ) : Prop where
  pos : 0 < t
  x_le : |d.x| * t ≤ a
  y_le : |d.y| * t ≤ b
  side : |d.x| * t = a ∨ |d.y| * t = b

theorem sideFactor?_real (u : ℝ) : sideFactor? u a = if u = 0 then none else some (a / |u|) := by
  simp [sideFactor?, Scalar.abs_exact]

theorem rectangleFactor_reaches (hd : d.x ≠ 0 ∨ d.y ≠ 0) (ha : 0 < a) (hb : 0 < b) :
    Reaches d a b (rectangleFactor d a b) := by
  unfold rectangleFactor
  rw [sideFactor?_real, sideFactor?_real]
  by_cases hx : d.x = 0
  · have hy : d.y ≠ 0 := hd.resolve_left (not_not_intro hx)
    have hmul : |d.y| * (b / |d.y|) = b := mul_div_cancel₀ b (abs_ne_zero.mpr hy)
    simp only [hx, hy, if_true, if_false, soleFactor, Scalar.eq_exact, decide_true]
    exact ⟨div_pos hb (abs_pos.mpr hy), by simpa [hx] using ha.le, hmul.le, Or.inr hmul⟩
  · have hxpos := abs_pos.mpr hx
    have hxmul : |d.x| * (a / |d.x|) = a := mul_div_cancel₀ a hxpos.ne'
    by_cases hy : d.y = 0
    · simp only [hx, hy, if_true, if_false, soleFactor, Scalar.eq_exact, decide_true]
      exact ⟨div_pos ha hxpos, hxmul.le, by simpa [hy] using hb.le, Or.inl hxmul⟩
    · have hypos := abs_pos.mpr hy
      have hymul : |d.y| * (b / |d.y|) = b := mul_div_cancel₀ b hypos.ne'
      simp only [hx, hy, if_false, Scalar.min_exact]
      have hxle : |d.x| * min (a / |d.x|) (b / |d.y|) ≤ |d.x| * (a / |d.x|) :=
        mul_le_mul_of_nonneg_left (min_le_left _ _) hxpos.le
      have hyle : |d.y| * min (a / |d.x|) (b / |d.y|) ≤ |d.y| * (b / |d.y|) :=
        mul_le_mul_of_nonneg_left (min_le_right _ _) hypos.le
      refine ⟨lt_inf_iff.mpr ⟨div_pos ha hxpos, div_pos hb hypos⟩, hxle.trans_eq hxmul,
        hyle.trans_eq hymul, ?_⟩
      rcases min_choice (a / |d.x|) (b / |d.y|) with h | h
      · exact Or.inl (by rw [h, hxmul])
      · exact Or.inr (by rw [h, hymul])

theorem Reaches.has {t : ℝ} (h : Reaches d a b t) : Has a b (d.scale t) .rectangle := by
  simp only [Has, abs_scale_x h.pos, abs_scale_y h.pos]
  exact h.side.imp (fun hx => ⟨hx, h.y_le⟩) fun hy => ⟨hy, h.x_le⟩

/-- A quadratic that is not positive at `s` and not negative at a later `t` has its larger root
between them. -/
theorem larger_root {p q c s t : ℝ} (hp : 0 < p) (hst : s < t) (hs : p * s ^ 2 + q * s + c ≤ 0)
    (ht : 0 ≤ p * t ^ 2 + q * t + c) :
    0 ≤ q * q - 4 * p * c ∧ ∃ x, x = (-q + Real.sqrt (q * q - 4 * p * c)) / (2 * p) ∧
      s ≤ x ∧ x ≤ t ∧ p * x ^ 2 + q * x + c = 0 := by
  have hdisc : (2 * p * s + q) ^ 2 ≤ q * q - 4 * p * c := by nlinarith
  have hnonneg : 0 ≤ q * q - 4 * p * c := (sq_nonneg _).trans hdisc
  have hslope : 0 ≤ 2 * p * t + q := by
    have hrise : 0 ≤ (t - s) * (p * (t + s) + q) := by nlinarith
    have hchord : 0 ≤ p * (t + s) + q := nonneg_of_mul_nonneg_right hrise (sub_pos.mpr hst)
    nlinarith
  have hlow : 2 * p * s + q ≤ Real.sqrt (q * q - 4 * p * c) := Real.le_sqrt_of_sq_le hdisc
  have hhigh : Real.sqrt (q * q - 4 * p * c) ≤ 2 * p * t + q := by
    refine (Real.sqrt_le_left hslope).mpr ?_
    nlinarith
  obtain ⟨x, hx⟩ : ∃ x, x = (-q + Real.sqrt (q * q - 4 * p * c)) / (2 * p) := ⟨_, rfl⟩
  have hroot : 2 * p * x + q = Real.sqrt (q * q - 4 * p * c) := by
    rw [hx]
    field_simp
    ring
  have hsquare : (2 * p * x + q) ^ 2 = q * q - 4 * p * c := hroot ▸ Real.sq_sqrt hnonneg
  refine ⟨hnonneg, x, hx, ?_, ?_, ?_⟩
  · nlinarith
  · nlinarith
  · have hzero : 4 * p * (p * x ^ 2 + q * x + c) = 0 := by linear_combination hsquare
    exact (mul_eq_zero.mp hzero).resolve_left (by positivity)

theorem cornerRadius_real : cornerRadius a b = min a b / 4 := by
  rw [cornerRadius, Scalar.min_exact, Scalar.decimal_exact]
  norm_num
  ring

theorem mul_withSign (u size : ℝ) {t : ℝ} (ht : 0 < t) :
    u * withSign size (u * t) = |u| * size := by
  by_cases hu : u < 0
  · simp [withSign, mul_neg_of_neg_of_pos hu ht, abs_of_neg hu]
  · have hut : ¬u * t < 0 := not_lt.mpr (mul_nonneg (not_lt.mp hu) ht.le)
    simp [withSign, hut, abs_of_nonneg (not_lt.mp hu)]

theorem withSign_mul_self (u size : ℝ) : withSign size u * withSign size u = size * size := by
  by_cases hu : u < 0 <;> simp [withSign, hu]

/-- Where the ray enters the square of a corner it is inside the circle. Here it does so by the side
across, the last of the two that it crosses. -/
theorem enters_across {u v a b r t : ℝ} (hu : 0 < u) (hv : 0 < v) (hra : r < a)
    (hx : a - r < u * t) (hy : v * t ≤ b) (hlast : (b - r) * u ≤ (a - r) * v) :
    ∃ s, 0 < s ∧ s < t ∧ a - r ≤ u * s ∧ b - r ≤ v * s ∧
      (u * s - (a - r)) ^ 2 + (v * s - (b - r)) ^ 2 ≤ r ^ 2 := by
  have hs : u * ((a - r) / u) = a - r := mul_div_cancel₀ _ hu.ne'
  have hvs : b - r ≤ v * ((a - r) / u) := by
    rw [← mul_div_assoc, le_div_iff₀ hu, mul_comm v]
    exact hlast
  have hst : (a - r) / u < t := by
    rw [div_lt_iff₀ hu, mul_comm]
    exact hx
  have hvt : v * ((a - r) / u) ≤ b := (mul_le_mul_of_nonneg_left hst.le hv.le).trans hy
  refine ⟨(a - r) / u, div_pos (sub_pos.mpr hra) hu, hst, hs.ge, hvs, ?_⟩
  rw [hs]
  nlinarith

theorem enters_corner {u v a b r t : ℝ} (hu : 0 < u) (hv : 0 < v) (hra : r < a) (hrb : r < b)
    (hx : a - r < u * t) (hxa : u * t ≤ a) (hy : b - r < v * t) (hyb : v * t ≤ b) :
    ∃ s, 0 < s ∧ s < t ∧ a - r ≤ u * s ∧ b - r ≤ v * s ∧
      (u * s - (a - r)) ^ 2 + (v * s - (b - r)) ^ 2 ≤ r ^ 2 := by
  rcases le_total ((b - r) * u) ((a - r) * v) with hlast | hlast
  · exact enters_across hu hv hra hx hyb hlast
  · obtain ⟨s, hpos, hst, hys, hxs, harc⟩ := enters_across hv hu hrb hy hxa hlast
    exact ⟨s, hpos, hst, hxs, hys, by rwa [add_comm]⟩

def arcSquare (d : Point ℝ) : ℝ := d.x * d.x + d.y * d.y

noncomputable def arcLinear (d : Point ℝ) (m n : ℝ) : ℝ := -ofNat 2 * (|d.x| * m + |d.y| * n)

def arcConstant (m n r : ℝ) : ℝ := m * m + n * n - r * r

noncomputable def arcDiscriminant (d : Point ℝ) (m n r : ℝ) : ℝ :=
  arcLinear d m n * arcLinear d m n - ofNat 4 * arcSquare d * arcConstant m n r

/-- The ray meets the circle of a corner, whose centre is `m` and `n` away from that of the node, at
the roots of a quadratic; this is the larger one. -/
noncomputable def arcFactor (d : Point ℝ) (m n r : ℝ) : ℝ :=
  (-arcLinear d m n + Real.sqrt (arcDiscriminant d m n r)) / (ofNat 2 * arcSquare d)

theorem arcSquare_pos (hd : d.x ≠ 0 ∨ d.y ≠ 0) : 0 < arcSquare d := by
  rcases hd with hx | hy
  · exact add_pos_of_pos_of_nonneg (mul_self_pos.mpr hx) (mul_self_nonneg _)
  · exact add_pos_of_nonneg_of_pos (mul_self_nonneg _) (mul_self_pos.mpr hy)

theorem arc_quadratic (d : Point ℝ) (m n r t : ℝ) :
    arcSquare d * t ^ 2 + arcLinear d m n * t + arcConstant m n r =
      (|d.x| * t - m) ^ 2 + (|d.y| * t - n) ^ 2 - r ^ 2 := by
  rw [arcSquare, arcLinear, arcConstant, Scalar.ofNat_exact, ← abs_mul_abs_self d.x,
    ← abs_mul_abs_self d.y, Nat.cast_ofNat]
  ring

section Corners

variable {t r : ℝ}

theorem roundedFactor_real (ht : rectangleFactor d a b = t) (hpos : 0 < t) (hr : r = min a b / 4) :
    roundedFactor d a b =
      if |d.x| * t ≤ a - r ∨ |d.y| * t ≤ b - r then t
      else if arcDiscriminant d (a - r) (b - r) r < 0 then t
      else arcFactor d (a - r) (b - r) r := by
  subst hr
  simp only [roundedFactor, ht, cornerRadius_real, Scalar.abs_exact, abs_scale_x hpos,
    abs_scale_y hpos, Scalar.le_exact, Scalar.lt_exact, Scalar.ofNat_exact, Bool.or_eq_true,
    decide_eq_true_eq, withSign_mul_self]
  simp only [Point.scale, mul_withSign _ _ hpos, Nat.cast_ofNat, Nat.cast_zero, Scalar.sqrt_real]
  rfl

/-- Beyond the straight parts of both sides the ray meets the arc before it meets the rectangle. -/
theorem Reaches.arc (h : Reaches d a b t) (ha : 0 < a) (hb : 0 < b) (hr : r = min a b / 4)
    (hx : ¬|d.x| * t ≤ a - r) (hy : ¬|d.y| * t ≤ b - r) :
    0 ≤ arcDiscriminant d (a - r) (b - r) r ∧ 0 < arcFactor d (a - r) (b - r) r ∧
      arcFactor d (a - r) (b - r) r ≤ t ∧
      Has a b (d.scale (arcFactor d (a - r) (b - r) r)) .roundedRectangle := by
  have hmin : 0 < min a b := lt_min ha hb
  have hra : r < a := by linarith [min_le_left a b]
  have hrb : r < b := by linarith [min_le_right a b]
  rw [not_le] at hx hy
  have hdx : 0 < |d.x| := pos_of_mul_pos_left ((sub_pos.mpr hra).trans hx) h.pos.le
  have hdy : 0 < |d.y| := pos_of_mul_pos_left ((sub_pos.mpr hrb).trans hy) h.pos.le
  obtain ⟨s, hs, hst, hxs, hys, hin⟩ := enters_corner hdx hdy hra hrb hx h.x_le hy h.y_le
  -- On a side of the rectangle the ray is no nearer to the centre of the corner than that side.
  have hout : 0 ≤ (|d.x| * t - (a - r)) ^ 2 + (|d.y| * t - (b - r)) ^ 2 - r ^ 2 := by
    rcases h.side with hside | hside <;> rw [hside] <;> nlinarith
  obtain ⟨hdisc, x, hroot, hsx, hxt, hzero⟩ :=
    larger_root (q := arcLinear d (a - r) (b - r)) (c := arcConstant (a - r) (b - r) r)
      (arcSquare_pos (Or.inl (abs_pos.mp hdx))) hst
      (by rw [arc_quadratic]; linarith) (by rwa [arc_quadratic])
  have hfactor : arcFactor d (a - r) (b - r) r = x := hroot.symm
  have hpos : 0 < x := hs.trans_le hsx
  rw [arc_quadratic] at hzero
  rw [hfactor]
  refine ⟨hdisc, hpos, hxt, ?_⟩
  simp only [Has, abs_scale_x hpos, abs_scale_y hpos, ← hr]
  refine Or.inr (Or.inr ⟨?_, ?_, by linarith⟩)
  · exact hxs.trans (mul_le_mul_of_nonneg_left hsx hdx.le)
  · exact hys.trans (mul_le_mul_of_nonneg_left hsx hdy.le)

/-- Where the ray leaves by a straight side, it does so as it leaves the rectangle. -/
theorem Reaches.straight (h : Reaches d a b t) (ha : 0 < a) (hb : 0 < b) (hr : r = min a b / 4)
    (hside : |d.x| * t ≤ a - r ∨ |d.y| * t ≤ b - r) :
    Has a b (d.scale t) .roundedRectangle := by
  have hmin : 0 < min a b := lt_min ha hb
  simp only [Has, abs_scale_x h.pos, abs_scale_y h.pos, ← hr]
  rcases h.side with hx | hy
  · refine Or.inl ⟨hx, hside.resolve_left ?_⟩
    linarith
  · refine Or.inr (Or.inl ⟨hy, hside.resolve_right ?_⟩)
    linarith

end Corners

theorem guardedEllipse?_real (hd : d.x ≠ 0 ∨ d.y ≠ 0) (ha : 0 < a) (hb : 0 < b) :
    guardedEllipse? d a b = some (ellipseFactor d a b) := by
  have hsum := ellipse_sum_pos hd ha hb
  have hroot := Real.sqrt_pos.mpr hsum
  rw [pow_two, pow_two] at hsum hroot
  simp only [guardedEllipse?, Scalar.div?_exact ha.ne', Scalar.div?_exact hb.ne', square,
    Scalar.sqrt?_real hsum.le, Scalar.div?_exact hroot.ne', Option.bind_eq_bind, Option.bind_some]
  rfl

theorem guardedSide?_real (u : ℝ) : guardedSide? u a = some (sideFactor? u a) := by
  by_cases hu : u = 0
  · simp [guardedSide?, sideFactor?, hu]
  · have habs : Scalar.abs u ≠ 0 := by simpa [Scalar.abs_exact] using hu
    simp [guardedSide?, sideFactor?, hu, Scalar.div?_exact habs]

theorem guardedSole?_real (t : ℝ) : guardedSole? t = some (soleFactor t) := by
  simp [guardedSole?, soleFactor]

theorem guardedRectangle?_real : guardedRectangle? d a b = some (rectangleFactor d a b) := by
  simp only [guardedRectangle?, rectangleFactor, guardedSide?_real, Option.bind_eq_bind,
    Option.bind_some]
  cases sideFactor? d.x a <;> cases sideFactor? d.y b <;> first | rfl | exact guardedSole?_real _

theorem guardedRounded?_real (hd : d.x ≠ 0 ∨ d.y ≠ 0) :
    guardedRounded? d a b = some (roundedFactor d a b) := by
  have htwo : (ofNat 2 : ℝ) ≠ 0 := by simp
  have hsquare : ofNat 2 * (d.x * d.x + d.y * d.y) ≠ 0 := mul_ne_zero htwo (arcSquare_pos hd).ne'
  simp only [guardedRounded?, roundedFactor, guardedRectangle?_real, Option.bind_eq_bind,
    Option.bind_some]
  split
  · rfl
  · split
    · rfl
    · rename_i hdisc
      rw [Scalar.lt_exact, Scalar.ofNat_exact 0, Nat.cast_zero, decide_eq_true_eq, not_lt] at hdisc
      rw [Scalar.sqrt?_real hdisc, Option.bind_some, Scalar.div?_exact hsquare]
      rfl

structure Leaves (shape : NodeShape) (d : Point ℝ) (a b t : ℝ) : Prop where
  pos : 0 < t
  has : Has a b (d.scale t) shape
  guarded : guardedFactor? shape d a b = some t

theorem ellipse_leaves (hd : d.x ≠ 0 ∨ d.y ≠ 0) (ha : 0 < a) (hb : 0 < b) :
    Leaves .ellipse d a b (ellipseFactor d a b) :=
  ⟨ellipseFactor_pos hd ha hb, ellipse_has hd ha hb, guardedEllipse?_real hd ha hb⟩

theorem rectangle_leaves (hd : d.x ≠ 0 ∨ d.y ≠ 0) (ha : 0 < a) (hb : 0 < b) :
    Leaves .rectangle d a b (rectangleFactor d a b) :=
  have hreach := rectangleFactor_reaches hd ha hb
  ⟨hreach.pos, hreach.has, guardedRectangle?_real⟩

theorem rounded_leaves (hd : d.x ≠ 0 ∨ d.y ≠ 0) (ha : 0 < a) (hb : 0 < b) :
    Leaves .roundedRectangle d a b (roundedFactor d a b) ∧
      roundedFactor d a b ≤ rectangleFactor d a b := by
  have hreach := rectangleFactor_reaches hd ha hb
  have hguarded : guardedFactor? .roundedRectangle d a b = some (roundedFactor d a b) :=
    guardedRounded?_real hd
  rw [roundedFactor_real rfl hreach.pos rfl] at hguarded ⊢
  by_cases hside : |d.x| * rectangleFactor d a b ≤ a - min a b / 4 ∨
      |d.y| * rectangleFactor d a b ≤ b - min a b / 4
  · rw [if_pos hside] at hguarded ⊢
    exact ⟨⟨hreach.pos, hreach.straight ha hb rfl hside, hguarded⟩, le_rfl⟩
  · obtain ⟨hx, hy⟩ := not_or.mp hside
    obtain ⟨hdisc, hpos, hle, hhas⟩ := hreach.arc ha hb rfl hx hy
    rw [if_neg hside, if_neg (not_lt.mpr hdisc)] at hguarded ⊢
    exact ⟨⟨hpos, hhas, hguarded⟩, hle⟩

theorem factor_leaves (shape : NodeShape) (hd : d.x ≠ 0 ∨ d.y ≠ 0) (ha : 0 < a) (hb : 0 < b) :
    Leaves shape d a b (factor shape d a b) := by
  cases shape with
  | ellipse => exact ellipse_leaves hd ha hb
  | rectangle => exact rectangle_leaves hd ha hb
  | roundedRectangle => exact (rounded_leaves hd ha hb).1

end Factors

end Outline

section Node

variable {center toward : Point ℝ} {size : Size ℝ}

theorem Point.sub_ne (h : toward ≠ center) :
    (toward - center).x ≠ 0 ∨ (toward - center).y ≠ 0 := by
  by_contra hzero
  obtain ⟨hx, hy⟩ := not_or.mp hzero
  apply h
  cases toward
  cases center
  exact congrArg₂ Point.mk (sub_eq_zero.mp (not_not.mp hx)) (sub_eq_zero.mp (not_not.mp hy))

theorem Point.length_real (p : Point ℝ) : p.length = Real.sqrt (p.x ^ 2 + p.y ^ 2) := rfl

theorem Point.length_ne {d : Point ℝ} (hd : d.x ≠ 0 ∨ d.y ≠ 0) : d.length ≠ 0 := by
  rw [Point.length_real, pow_two, pow_two]
  exact (Real.sqrt_pos.mpr (Outline.arcSquare_pos hd)).ne'

theorem Point.add_sub_center (p q : Point ℝ) : p + q - p = q := by
  cases p
  cases q
  exact congrArg₂ Point.mk (add_sub_cancel_left _ _) (add_sub_cancel_left _ _)

theorem Point.length_scale_le {d : Point ℝ} {s t : ℝ} (hs : 0 < s) (hst : s ≤ t) :
    (d.scale s).length ≤ (d.scale t).length := by
  have hsq : s ^ 2 ≤ t ^ 2 := by nlinarith
  refine Real.sqrt_le_sqrt ?_
  simp only [scale, mul_pow]
  nlinarith [sq_nonneg d.x, sq_nonneg d.y]

theorem boundaryPoint_real (shape : NodeShape) (hne : toward ≠ center) (hw : 0 < size.width)
    (hh : 0 < size.height) :
    boundaryPoint shape center size toward = center + (toward - center).scale
      (Outline.factor shape (toward - center) (size.width / 2) (size.height / 2)) := by
  have hlength := Point.length_ne (Point.sub_ne hne)
  simp [boundaryPoint, hlength, hw, hh]

theorem guardedPoint?_real (shape : NodeShape) (hne : toward ≠ center) (hw : 0 < size.width)
    (hh : 0 < size.height) :
    guardedPoint? shape center size toward =
      some (boundaryPoint shape center size toward) := by
  have hlength := Point.length_ne (Point.sub_ne hne)
  have hleaves := Outline.factor_leaves shape (Point.sub_ne hne) (half_pos hw) (half_pos hh)
  rw [boundaryPoint_real shape hne hw hh]
  simp [guardedPoint?, Scalar.div?_exact, hlength, hw, hh, hleaves.guarded]

/-- Towards any other point, a node with an extent is left on its outline, nothing being divided by
zero; and a rounded rectangle is left no later than the rectangle around it. -/
theorem boundaryPoint_has (shape : NodeShape) (hne : toward ≠ center) (hw : 0 < size.width)
    (hh : 0 < size.height) :
    (∃ t > 0, boundaryPoint shape center size toward = center + (toward - center).scale t) ∧
      Outline.Has (size.width / 2) (size.height / 2)
        (boundaryPoint shape center size toward - center) shape ∧
      (boundaryPoint .roundedRectangle center size toward).distance center ≤
        (boundaryPoint .rectangle center size toward).distance center ∧
      guardedPoint? shape center size toward =
        some (boundaryPoint shape center size toward) := by
  have hd := Point.sub_ne hne
  have hleaves := Outline.factor_leaves shape hd (half_pos hw) (half_pos hh)
  obtain ⟨hrounded, hle⟩ := Outline.rounded_leaves hd (half_pos hw) (half_pos hh)
  refine ⟨⟨_, hleaves.pos, boundaryPoint_real shape hne hw hh⟩, ?_, ?_,
    guardedPoint?_real shape hne hw hh⟩
  · rw [boundaryPoint_real shape hne hw hh, Point.add_sub_center]
    exact hleaves.has
  · rw [boundaryPoint_real _ hne hw hh, boundaryPoint_real _ hne hw hh, Point.distance,
      Point.distance, Point.add_sub_center, Point.add_sub_center]
    exact Point.length_scale_le hrounded.pos hle

end Node

/-- Up and to the left of a rounded rectangle, towards the very corner that is cut off. -/
theorem boundaryPoint_has_corner :
    ∃ p : Point ℝ, p = boundaryPoint .roundedRectangle ⟨1, 2⟩ ⟨8, 4⟩ ⟨-5, -1⟩ ∧
      (∃ t > 0, p = ⟨1, 2⟩ + (⟨-5, -1⟩ - ⟨1, 2⟩ : Point ℝ).scale t) ∧
      Outline.Has 4 2 (p - ⟨1, 2⟩) .roundedRectangle ∧
      p.distance ⟨1, 2⟩ ≤
        (boundaryPoint .rectangle ⟨1, 2⟩ ⟨8, 4⟩ ⟨-5, -1⟩ : Point ℝ).distance ⟨1, 2⟩ ∧
      guardedPoint? .roundedRectangle ⟨1, 2⟩ ⟨8, 4⟩ ⟨-5, -1⟩ = some p := by
  have hne : (⟨-5, -1⟩ : Point ℝ) ≠ ⟨1, 2⟩ := by
    rw [ne_eq, Point.mk.injEq]
    norm_num
  have hw : (0 : ℝ) < (⟨8, 4⟩ : Size ℝ).width := by norm_num
  have hh : (0 : ℝ) < (⟨8, 4⟩ : Size ℝ).height := by norm_num
  obtain ⟨hray, hhas, hnear, hguarded⟩ := boundaryPoint_has .roundedRectangle hne hw hh
  have ha : (⟨8, 4⟩ : Size ℝ).width / 2 = 4 := by norm_num
  have hb : (⟨8, 4⟩ : Size ℝ).height / 2 = 2 := by norm_num
  rw [ha, hb] at hhas
  exact ⟨_, rfl, hray, hhas, hnear, hguarded⟩

end GraphScribe
