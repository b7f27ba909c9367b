import GraphScribe.Placement.Orientation
import GraphScribe.Proofs.Geometry.Rect

/-! # Stretches

A rectangle takes up one stretch across a direction and one along it. Two rectangles do not meet if
the stretches of either kind leave a gap, however narrow, and parts of them leave at least the same
gap. -/
namespace GraphScribe

structure Stretch (K : Type) where
  low : K
  high : K

variable {K : Type} [ExactScalar K]

namespace Stretch

open Scalar (half)

def around (center extent : K) : Stretch K := ⟨center - half extent, center + half extent⟩

def mirrored (s : Stretch K) : Stretch K := ⟨-s.high, -s.low⟩

structure Within (s t : Stretch K) : Prop where
  low : t.low ≤ s.low
  high : s.high ≤ t.high

/-- `s` ends at least `gap` before `t` begins. -/
def Before (gap : K) (s t : Stretch K) : Prop := s.high + gap ≤ t.low

def Apart (gap : K) (s t : Stretch K) : Prop := Before gap s t ∨ Before gap t s

variable {gap : K} {s s' t t' : Stretch K}

theorem around_eq (center extent : K) :
    around center extent = ⟨center - half extent, center - half extent + extent⟩ := by
  simp only [around, Scalar.half_exact, mk.injEq, true_and]
  ring

theorem around_neg (center extent : K) :
    around (-center) extent = (around center extent).mirrored := by
  simp only [around, mirrored, Scalar.half_exact, mk.injEq]
  constructor <;> ring

theorem around_within (center : K) {extent extent' : K} (h : extent ≤ extent') :
    (around center extent).Within (around center extent') := by
  constructor <;> simp only [around, Scalar.half_exact] <;> linarith

theorem Within.trans {u : Stretch K} (h : s.Within t) (h' : t.Within u) : s.Within u where
  low := h'.low.trans h.low
  high := h.high.trans h'.high

theorem Before.within (h : Before gap s t) (hs : s'.Within s) (ht : t'.Within t) :
    Before gap s' t' :=
  calc s'.high + gap ≤ s.high + gap := by linarith [hs.high]
    _ ≤ t.low := h
    _ ≤ t'.low := ht.low

theorem Apart.within (h : Apart gap s t) (hs : s'.Within s) (ht : t'.Within t) :
    Apart gap s' t' :=
  h.imp (·.within hs ht) (·.within ht hs)

theorem Apart.of_mirrored (h : Apart gap s.mirrored t.mirrored) : Apart gap s t := by
  apply h.symm.imp <;>
  · intro h
    simp only [Before, mirrored] at h ⊢
    linarith

end Stretch

namespace Rect

def horizontal (r : Rect K) : Stretch K := ⟨r.left, r.right⟩

def vertical (r : Rect K) : Stretch K := ⟨r.top, r.bottom⟩

theorem horizontal_ofCenter (p : Point K) (s : Size K) :
    (ofCenter p s).horizontal = .around p.x s.width := (Stretch.around_eq _ _).symm

theorem vertical_ofCenter (p : Point K) (s : Size K) :
    (ofCenter p s).vertical = .around p.y s.height := (Stretch.around_eq _ _).symm

variable {gap : K} {r s : Rect K}

theorem intersects_of_horizontal (hgap : 0 ≤ gap) (h : r.horizontal.Apart gap s.horizontal) :
    r.intersects s = false := by
  by_contra hmeet
  simp only [Bool.not_eq_false, intersects, Scalar.lt_exact, Bool.and_eq_true,
    decide_eq_true_eq] at hmeet
  obtain ⟨⟨⟨hrs, hsr⟩, -⟩, -⟩ := hmeet
  rcases h with h | h <;> simp only [Stretch.Before, horizontal] at h <;> linarith

theorem intersects_of_vertical (hgap : 0 ≤ gap) (h : r.vertical.Apart gap s.vertical) :
    r.intersects s = false := by
  by_contra hmeet
  simp only [Bool.not_eq_false, intersects, Scalar.lt_exact, Bool.and_eq_true,
    decide_eq_true_eq] at hmeet
  obtain ⟨⟨-, hrs⟩, hsr⟩ := hmeet
  rcases h with h | h <;> simp only [Stretch.Before, vertical] at h <;> linarith

theorem intersects_comm (r s : Rect K) : r.intersects s = s.intersects r := by
  rw [Bool.eq_iff_iff]
  simp only [intersects, Scalar.lt_exact, Bool.and_eq_true, decide_eq_true_eq]
  tauto

theorem intersects_shift (r s : Rect K) (offset : Point K) :
    (r.shift offset).intersects (s.shift offset) = r.intersects s := by
  simp only [intersects, Scalar.lt_exact, shift_left, shift_right, shift_top, shift_bottom,
    add_lt_add_iff_right]

/-- Where each of some rectangles ends before each of others begins, their hulls keep the gap. -/
theorem IsHull.before {rs ss : List (Rect K)} (hr : r.IsHull rs) (hs : s.IsHull ss)
    (h : ∀ a ∈ rs, ∀ b ∈ ss, a.horizontal.Before gap b.horizontal) :
    r.horizontal.Before gap s.horizontal := by
  -- whatever covers the rectangles of one side covers their hull: first the right border of `r` is
  -- moved to each of `ss`, then the left border of `s` to that of `r`
  have hright : ∀ b ∈ ss, r.right ≤ b.left - gap := by
    intro b hb
    have hcovers := hr.least ⟨r.x, r.y, b.left - gap - r.x, r.height⟩ fun a ha =>
      ⟨(hr.covers a ha).left, (hr.covers a ha).top,
        by simpa [right, Stretch.Before, horizontal, le_sub_iff_add_le] using h a ha b hb,
        (hr.covers a ha).bottom⟩
    simpa [right] using hcovers.right
  have hleft := hs.least ⟨r.right + gap, s.y, s.right - (r.right + gap), s.height⟩ fun b hb =>
    ⟨le_sub_iff_add_le.mp (hright b hb), (hs.covers b hb).top,
      by simpa [right] using (hs.covers b hb).right, (hs.covers b hb).bottom⟩
  exact hleft.left

end Rect

namespace Direction

/-- What a rectangle takes up across the levels. -/
def across (d : Direction) (r : Rect K) : Stretch K :=
  if d.isHorizontal then r.vertical else r.horizontal

/-- What a rectangle takes up along the levels, in the sense of the direction. -/
def along (d : Direction) (r : Rect K) : Stretch K :=
  match d with
  | topToBottom => r.vertical
  | bottomToTop => r.vertical.mirrored
  | leftToRight => r.horizontal
  | rightToLeft => r.horizontal.mirrored

theorem across_ofCenter (d : Direction) (cross main : K) (s : Size K) :
    d.across (.ofCenter (d.orient cross main) s) = .around cross (d.cross s) := by
  cases d
  case topToBottom | bottomToTop => exact Rect.horizontal_ofCenter _ s
  case leftToRight | rightToLeft => exact Rect.vertical_ofCenter _ s

theorem along_ofCenter (d : Direction) (cross main : K) (s : Size K) :
    d.along (.ofCenter (d.orient cross main) s) = .around main (d.main s) := by
  have hback : ∀ extent : K, (Stretch.around (-main) extent).mirrored = .around main extent := by
    intro extent
    rw [← Stretch.around_neg, neg_neg]
  cases d with
  | topToBottom => exact Rect.vertical_ofCenter _ s
  | bottomToTop => exact (congrArg Stretch.mirrored (Rect.vertical_ofCenter _ s)).trans (hback _)
  | leftToRight => exact Rect.horizontal_ofCenter _ s
  | rightToLeft => exact (congrArg Stretch.mirrored (Rect.horizontal_ofCenter _ s)).trans (hback _)

variable {gap : K} {r s : Rect K}

theorem intersects_of_across (d : Direction) (hgap : 0 ≤ gap)
    (h : (d.across r).Apart gap (d.across s)) : r.intersects s = false := by
  cases d
  case topToBottom | bottomToTop => exact Rect.intersects_of_horizontal hgap h
  case leftToRight | rightToLeft => exact Rect.intersects_of_vertical hgap h

theorem intersects_of_along (d : Direction) (hgap : 0 ≤ gap)
    (h : (d.along r).Apart gap (d.along s)) : r.intersects s = false := by
  cases d with
  | topToBottom => exact Rect.intersects_of_vertical hgap h
  | bottomToTop => exact Rect.intersects_of_vertical hgap h.of_mirrored
  | leftToRight => exact Rect.intersects_of_horizontal hgap h
  | rightToLeft => exact Rect.intersects_of_horizontal hgap h.of_mirrored

end Direction

end GraphScribe
