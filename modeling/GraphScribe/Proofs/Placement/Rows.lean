import GraphScribe.Placement.Tree
import GraphScribe.Proofs.Geometry.Stretches
import GraphScribe.Proofs.Placement.Tables
import Mathlib.Data.List.GetD

/-! # Rows

Boxes side by side keep the gap between them and fill the extent of their row exactly. The levels of
a tree are a row as well, in the other direction. -/
namespace GraphScribe

variable {K : Type} [ExactScalar K]

namespace Scalar

theorem sum_exact (xs : List K) : sum xs = xs.sum := by
  rw [sum, ofNat_exact, Nat.cast_zero, List.sum_eq_foldl]

theorem le_largest (xs : List K) : ∀ x ∈ (0 : K) :: xs, x ≤ largest xs := by
  have hmax : (max : K → K → K) = (· ⊔ ·) := by
    funext a b
    exact max_exact a b
  rw [largest, ofNat_exact, Nat.cast_zero, hmax]
  exact (List.max?_eq_some_iff.mp List.max?_cons').2

end Scalar

namespace Tree

open Stretch (around Before Apart)

theorem keys_row {α : Type} [Scalar α] {gap : α} {span : Nat → α} (start : α) (vs : List Nat) :
    Table.keys (row gap span start vs) = vs := by
  induction vs generalizing start with
  | nil => rfl
  | cons v vs ih => exact congrArg (v :: ·) (ih _)

variable {gap : K}

theorem rowExtent_singleton (e : K) : rowExtent gap [e] = e := by
  simp [rowExtent, Scalar.sum_exact]

theorem rowExtent_cons_cons (e e' : K) (es : List K) :
    rowExtent gap (e :: e' :: es) = e + (gap + rowExtent gap (e' :: es)) := by
  simp only [rowExtent, Scalar.sum_exact, Scalar.ofNat_exact, List.sum_cons, List.length_cons,
    Nat.add_sub_cancel]
  push_cast
  ring

theorem rowExtent_nonneg (hgap : 0 ≤ gap) {es : List K} (hes : ∀ e ∈ es, 0 ≤ e) :
    0 ≤ rowExtent gap es := by
  rw [rowExtent, Scalar.sum_exact, Scalar.ofNat_exact]
  exact add_nonneg (List.sum_nonneg hes) (mul_nonneg hgap (Nat.cast_nonneg _))

theorem le_rowExtent_cons (hgap : 0 ≤ gap) (e : K) {es : List K} (hes : ∀ e' ∈ es, 0 ≤ e') :
    e ≤ rowExtent gap (e :: es) := by
  cases es with
  | nil => exact (rowExtent_singleton e).ge
  | cons e' es =>
    rw [rowExtent_cons_cons]
    exact le_add_of_nonneg_right (add_nonneg hgap (rowExtent_nonneg hgap hes))

variable {span : Nat → K}

theorem row_within (hgap : 0 ≤ gap) {vs : List Nat} (hspan : ∀ v ∈ vs, 0 ≤ span v) (start : K) :
    ∀ e ∈ row gap span start vs,
      (around e.2 (span e.1)).Within ⟨start, start + rowExtent gap (vs.map span)⟩ := by
  induction vs generalizing start with
  | nil =>
    intro e he
    cases he
  | cons v vs ih =>
    obtain ⟨hv, hvs⟩ := List.forall_mem_cons.mp hspan
    rw [row, List.forall_mem_cons]
    constructor
    · have hfits : span v ≤ rowExtent gap (span v :: vs.map span) :=
        le_rowExtent_cons hgap _ (by simpa using hvs)
      constructor <;> simp only [around, Scalar.half_exact, List.map_cons] <;> linarith
    · intro e he
      cases vs with
      | nil => cases he
      | cons w ws =>
        obtain ⟨hlow, hhigh⟩ := ih hvs _ e he
        rw [List.map_cons, List.map_cons, rowExtent_cons_cons]
        rw [List.map_cons] at hhigh
        constructor <;> dsimp only at hlow hhigh ⊢ <;> linarith

/-- Each box in a row ends the gap before the next one begins. -/
theorem row_ascends (hgap : 0 ≤ gap) {vs : List Nat} (hspan : ∀ v ∈ vs, 0 ≤ span v) (start : K) :
    (row gap span start vs).Pairwise fun e e' =>
      Before gap (around e.2 (span e.1)) (around e'.2 (span e'.1)) := by
  induction vs generalizing start with
  | nil => exact .nil
  | cons v vs ih =>
    obtain ⟨hv, hvs⟩ := List.forall_mem_cons.mp hspan
    apply List.Pairwise.cons _ (ih hvs _)
    intro e he
    have hlow := (row_within hgap hvs _ e he).low
    simp only [Before, around, Scalar.half_exact] at hlow ⊢
    linarith

theorem row_apart (hgap : 0 ≤ gap) {vs : List Nat} (hspan : ∀ v ∈ vs, 0 ≤ span v) {start : K}
    {center : Nat → K} (hcenter : ∀ v ∈ vs, (v, center v) ∈ row gap span start vs) {v w : Nat}
    (hv : v ∈ vs) (hw : w ∈ vs) (hne : v ≠ w) :
    Apart gap (around (center v) (span v)) (around (center w) (span w)) :=
  Table.pairwise_or (row_ascends hgap hspan start) (hcenter v hv) (hcenter w hw) hne

theorem length_levelCenters (distance start : K) (extents : List K) :
    (levelCenters distance start extents).length = extents.length := by
  induction extents generalizing start with
  | nil => rfl
  | cons extent extents ih => exact congrArg (· + 1) (ih _)

theorem row_eq_zip (start : K) (vs : List Nat) :
    row gap span start vs = vs.zip (levelCenters gap start (vs.map span)) := by
  induction vs generalizing start with
  | nil => rfl
  | cons v vs ih => exact congrArg (_ :: ·) (ih _)

theorem levelCenters_before (hgap : 0 ≤ gap) {extents : List K} (hextents : ∀ e ∈ extents, 0 ≤ e)
    (start : K) {i j : Nat} (hij : i < j) (hj : j < extents.length) :
    Before gap (around ((levelCenters gap start extents).getD i 0) (extents.getD i 0))
      (around ((levelCenters gap start extents).getD j 0) (extents.getD j 0)) := by
  -- levels are a row of level numbers
  let numbers := List.range extents.length
  have hmap : numbers.map (extents.getD · 0) = extents := by
    apply List.ext_getElem (by simp [numbers])
    intro k hk hk'
    simp [numbers, hk']
  have hspan : ∀ k ∈ numbers, 0 ≤ extents.getD k 0 := by
    intro k hk
    rw [List.getD_eq_getElem _ _ (List.mem_range.mp hk)]
    exact hextents _ (List.getElem_mem _)
  have hascends := row_ascends hgap hspan start
  have hlength := length_levelCenters gap start extents
  rw [row_eq_zip, hmap, List.pairwise_iff_getElem] at hascends
  have hi : i < extents.length := hij.trans hj
  have hbefore := hascends i j (by simp [numbers, hlength, hi]) (by simp [numbers, hlength, hj]) hij
  rw [List.getElem_zip, List.getElem_zip, List.getElem_range, List.getElem_range] at hbefore
  rwa [List.getD_eq_getElem (levelCenters gap start extents) _ (by omega),
    List.getD_eq_getElem (levelCenters gap start extents) _ (by omega)]

end Tree

end GraphScribe
