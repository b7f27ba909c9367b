import GraphScribe.Geometry.Plane
import GraphScribe.Proofs.Scalar.Exact

/-! # Rectangles in exact arithmetic

The union of rectangles is the least rectangle that covers them all, and it moves along with them. -/
namespace GraphScribe

variable {K : Type} [ExactScalar K]

namespace Point

@[simp] theorem add_x (p q : Point K) : (p + q).x = p.x + q.x := rfl

@[simp] theorem add_y (p q : Point K) : (p + q).y = p.y + q.y := rfl

@[simp] theorem isFinite_exact (p : Point K) : p.isFinite = true := rfl

theorem add_origin (p : Point K) : p + origin = p := by
  cases p with
  | mk x y =>
    have hx : x + (Scalar.ofNat 0 : K) = x := by simp
    have hy : y + (Scalar.ofNat 0 : K) = y := by simp
    exact congrArg₂ Point.mk hx hy

end Point

namespace Rect

structure Covers (r s : Rect K) : Prop where
  left : r.left ≤ s.left
  top : r.top ≤ s.top
  right : s.right ≤ r.right
  bottom : s.bottom ≤ r.bottom

variable {r s t u : Rect K}

theorem Covers.refl (r : Rect K) : r.Covers r := ⟨le_rfl, le_rfl, le_rfl, le_rfl⟩

theorem Covers.trans (h : r.Covers s) (k : s.Covers t) : r.Covers t where
  left := h.left.trans k.left
  top := h.top.trans k.top
  right := k.right.trans h.right
  bottom := k.bottom.trans h.bottom

theorem Covers.contains (h : r.Covers s) : r.contains s = true := by
  have hslack : (0 : K) ≤ 1 / 10 ^ 6 := by positivity
  have hleft := h.left
  have htop := h.top
  have hright := h.right
  have hbottom := h.bottom
  simp only [Rect.contains, Scalar.le_exact, Scalar.decimal_exact, Bool.and_eq_true,
    decide_eq_true_eq, Nat.cast_one]
  refine ⟨⟨⟨?_, ?_⟩, ?_⟩, ?_⟩ <;> linarith

theorem right_pad (r : Rect K) (m : K) : (r.pad m).right = r.right + m := by
  simp only [right, pad, Scalar.ofNat_exact]
  push_cast
  ring

theorem bottom_pad (r : Rect K) (m : K) : (r.pad m).bottom = r.bottom + m := by
  simp only [bottom, pad, Scalar.ofNat_exact]
  push_cast
  ring

theorem Covers.pad (h : r.Covers s) (m : K) : (r.pad m).Covers (s.pad m) where
  left := sub_le_sub_right h.left m
  top := sub_le_sub_right h.top m
  right := by
    rw [right_pad, right_pad]
    exact add_le_add_left h.right m
  bottom := by
    rw [bottom_pad, bottom_pad]
    exact add_le_add_left h.bottom m

@[simp] theorem union_left (r s : Rect K) : (r.union s).left = r.left ⊓ s.left := by
  simp [Rect.union, left]

@[simp] theorem union_top (r s : Rect K) : (r.union s).top = r.top ⊓ s.top := by
  simp [Rect.union, top]

@[simp] theorem union_right (r s : Rect K) : (r.union s).right = r.right ⊔ s.right := by
  simp [Rect.union, right]

@[simp] theorem union_bottom (r s : Rect K) : (r.union s).bottom = r.bottom ⊔ s.bottom := by
  simp [Rect.union, bottom]

/-- `u` covers the rectangles, and whatever covers them covers `u`. -/
structure IsHull (u : Rect K) (rs : List (Rect K)) : Prop where
  covers : ∀ r ∈ rs, u.Covers r
  least : ∀ v : Rect K, (∀ r ∈ rs, v.Covers r) → v.Covers u

theorem isHull_union (r s : Rect K) : (r.union s).IsHull [r, s] where
  covers := by
    simp only [List.forall_mem_cons]
    refine ⟨⟨?_, ?_, ?_, ?_⟩, ⟨?_, ?_, ?_, ?_⟩, by simp⟩ <;> simp
  least := by
    intro v hv
    have hr := hv r (by simp)
    have hs := hv s (by simp)
    constructor
    · simpa using ⟨hr.left, hs.left⟩
    · simpa using ⟨hr.top, hs.top⟩
    · simpa using ⟨hr.right, hs.right⟩
    · simpa using ⟨hr.bottom, hs.bottom⟩

theorem isHull_foldl_union (r : Rect K) (rs : List (Rect K)) :
    (rs.foldl union r).IsHull (r :: rs) := by
  induction rs generalizing r with
  | nil =>
    constructor
    · intro s hs
      rw [List.mem_singleton.mp hs]
      exact Covers.refl r
    · intro v hv
      exact hv r List.mem_cons_self
  | cons s rs ih =>
    obtain ⟨hcovers, hleast⟩ := ih (r.union s)
    obtain ⟨hunion, hsmall⟩ := isHull_union r s
    have hfold : (rs.foldl union (r.union s)).Covers (r.union s) := hcovers _ List.mem_cons_self
    constructor
    · intro t ht
      rcases List.mem_cons.mp ht with rfl | ht
      · exact hfold.trans (hunion t (by simp))
      rcases List.mem_cons.mp ht with rfl | ht
      · exact hfold.trans (hunion t (by simp))
      · exact hcovers t (List.mem_cons_of_mem _ ht)
    · intro v hv
      apply hleast
      intro t ht
      rcases List.mem_cons.mp ht with rfl | ht
      · apply hsmall
        intro t ht
        apply hv
        rcases List.mem_cons.mp ht with rfl | ht
        · simp
        · simp [List.mem_singleton.mp ht]
      · exact hv t (by simp [ht])

theorem isHull_unionAll? {rs : List (Rect K)} (h : unionAll? rs = some u) : u.IsHull rs := by
  cases rs with
  | nil => cases h
  | cons r rs =>
    cases h
    exact isHull_foldl_union r rs

def shift (r : Rect K) (offset : Point K) : Rect K :=
  ⟨r.x + offset.x, r.y + offset.y, r.width, r.height⟩

theorem ofCenter_add (center offset : Point K) (size : Size K) :
    ofCenter (center + offset) size = (ofCenter center size).shift offset := by
  simp only [ofCenter, shift, Point.add_x, Point.add_y, mk.injEq, and_self, and_true]
  exact ⟨by ring, by ring⟩

theorem shift_left (r : Rect K) (offset : Point K) : (r.shift offset).left = r.left + offset.x := rfl

theorem shift_top (r : Rect K) (offset : Point K) : (r.shift offset).top = r.top + offset.y := rfl

theorem shift_right (r : Rect K) (offset : Point K) :
    (r.shift offset).right = r.right + offset.x := by
  simp only [right, shift]
  ring

theorem shift_bottom (r : Rect K) (offset : Point K) :
    (r.shift offset).bottom = r.bottom + offset.y := by
  simp only [bottom, shift]
  ring

theorem union_shift (r s : Rect K) (offset : Point K) :
    (r.shift offset).union (s.shift offset) = (r.union s).shift offset := by
  simp only [union, shift_left, shift_top, shift_right, shift_bottom, Scalar.min_exact,
    Scalar.max_exact, min_add_add_right, max_add_add_right, add_sub_add_right_eq_sub]
  rfl

theorem unionAll?_shift (rs : List (Rect K)) (offset : Point K) :
    unionAll? (rs.map (shift · offset)) = (unionAll? rs).map (shift · offset) := by
  cases rs with
  | nil => rfl
  | cons r rs =>
    simp only [unionAll?, List.map_cons, Option.map_some, Option.some.injEq]
    induction rs generalizing r with
    | nil => rfl
    | cons s rs ih =>
      rw [List.map_cons, List.foldl_cons, List.foldl_cons, union_shift, ih]

end Rect

end GraphScribe
