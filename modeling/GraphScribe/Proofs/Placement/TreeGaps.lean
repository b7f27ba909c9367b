import GraphScribe.Proofs.Placement.Outlines
import GraphScribe.Proofs.Placement.Subtrees

/-! # Gaps between the boxes of a tree

Boxes of a level keep the sibling distance across the levels, because each stays inside the span of
its subtree. Boxes of different levels keep the level distance along them, because each stays inside
its level. Either way they do not meet. -/
namespace GraphScribe.Tree

open Scalar (ofNat)
open Stretch (around Apart Before)

variable {K : Type} [ExactScalar K] {d : Diagram K} {f : Forest}

def levelOf (distance : K) (f : Forest) (main : Nat → K) (indices : List Nat) (depth : Nat) : K :=
  (levelCenters distance (ofNat 0) (levelExtents f main indices)).getD depth (ofNat 0)

theorem levelExtents_getD (main : Nat → K) (indices : List Nat) {depth : Nat}
    (h : depth ≤ f.maxDepth) :
    (levelExtents f main indices).getD depth 0 =
      Scalar.largest ((indices.filter fun v => f.depth v == depth).map main) := by
  simp [levelExtents, Nat.lt_succ_of_le h]

theorem levelExtents_nonneg (main : Nat → K) (indices : List Nat) :
    ∀ e ∈ levelExtents f main indices, 0 ≤ e := by
  intro e he
  obtain ⟨depth, -, rfl⟩ := List.mem_map.mp he
  exact Scalar.le_largest _ 0 List.mem_cons_self

theorem main_le_levelExtents (main : Nat → K) {indices : List Nat} {v : Nat} (hv : v ∈ indices) :
    main v ≤ (levelExtents f main indices).getD (f.depth v) 0 := by
  rw [levelExtents_getD main indices (Forest.depth_le_maxDepth v)]
  apply Scalar.le_largest
  exact List.mem_cons_of_mem _ (List.mem_map_of_mem (List.mem_filter.mpr ⟨hv, by simp⟩))

theorem levels_before {distance : K} (hdistance : 0 ≤ distance) (main : Nat → K)
    {indices : List Nat} {v w : Nat} (hv : v ∈ indices) (hw : w ∈ indices)
    (hdepth : f.depth v < f.depth w) :
    Before distance (around (levelOf distance f main indices (f.depth v)) (main v))
      (around (levelOf distance f main indices (f.depth w)) (main w)) := by
  have hlevel : f.depth w < (levelExtents f main indices).length := by
    rw [levelExtents, List.length_map, List.length_range]
    exact Nat.lt_succ_of_le (Forest.depth_le_maxDepth w)
  have hbefore := levelCenters_before hdistance (levelExtents_nonneg main indices)
    (ofNat 0) hdepth hlevel
  have hzero : (ofNat 0 : K) = 0 := by simp
  rw [levelOf, levelOf, hzero]
  rw [hzero] at hbefore
  exact hbefore.within (Stretch.around_within _ (main_le_levelExtents main hv))
    (Stretch.around_within _ (main_le_levelExtents main hw))

section Boxes

variable {settings : TreeSettings K} {direction : Direction} {v w : Nat} {b c : Box K}

/-- Where a box ends up, and what it takes up there. -/
structure Placed (settings : TreeSettings K) (direction : Direction) (d : Diagram K) (v : Nat)
    (b : Box K) : Prop where
  index : v ∈ d.indices
  across : direction.across b.bounds =
    around (centerOf settings.siblingDistance
      (spanOf settings.siblingDistance (fun u => direction.cross (d.size u)) d.forest) d.forest v)
      (direction.cross (d.size v))
  along : direction.along b.bounds =
    around (levelOf settings.levelDistance d.forest (fun u => direction.main (d.size u)) d.indices
      (d.forest.depth v)) (direction.main (d.size v))

theorem placed (h : (d.moveTo (place settings direction d)).boxes[v]? = some b) :
    Placed settings direction d v b := by
  obtain ⟨hindex, hbounds⟩ := Diagram.bounds_moveTo h
  constructor
  · exact hindex
  · rw [hbounds]
    exact direction.across_ofCenter _ _ _
  · rw [hbounds]
    exact direction.along_ofCenter _ _ _

theorem Placed.across_within (hd : d.Linked) (h : Placed settings direction d v b) :
    (direction.across b.bounds).Within
      (territory settings.siblingDistance (fun u => direction.cross (d.size u)) d.forest v) := by
  have hseated : v ∈ d.forest.order := hd.planted.perm.mem_iff.mpr h.index
  rw [h.across]
  apply Stretch.around_within
  exact (spanOf_ge _ (fun u => direction.cross (d.size u)) hd.grown hseated).1

theorem Placed.beside (hd : d.Linked)
    (hsize : ∀ b ∈ d.boxes, 0 ≤ b.size.width ∧ 0 ≤ b.size.height)
    (hsibling : 0 ≤ settings.siblingDistance) (hv : Placed settings direction d v b)
    (hw : Placed settings direction d w c) (hne : v ≠ w)
    (hdepth : d.forest.depth v = d.forest.depth w) :
    (direction.across b.bounds).Apart settings.siblingDistance (direction.across c.bounds) := by
  have hseated : ∀ u ∈ d.indices, u ∈ d.forest.order := fun _ => hd.planted.perm.mem_iff.mpr
  have hapart := territories_apart hd.grown hsibling (direction.cross_nonneg hsize)
    (hseated v hv.index) (hseated w hw.index) hdepth hne
  exact hapart.within (hv.across_within hd) (hw.across_within hd)

theorem Placed.above (hlevel : 0 ≤ settings.levelDistance) (hv : Placed settings direction d v b)
    (hw : Placed settings direction d w c) (hdepth : d.forest.depth v < d.forest.depth w) :
    (direction.along b.bounds).Before settings.levelDistance (direction.along c.bounds) := by
  rw [hv.along, hw.along]
  exact levels_before hlevel _ hv.index hw.index hdepth

/-- In exact arithmetic the boxes of a tree never meet, if no size and neither distance is negative.
Boxes of one level are at least the sibling distance apart across the levels. Of two levels the one
nearer to the roots comes first, and their boxes are at least the level distance apart along them.
-/
theorem boxes_apart (hd : d.Built)
    (hsize : ∀ b ∈ d.boxes, 0 ≤ b.size.width ∧ 0 ≤ b.size.height)
    (hlevel : 0 ≤ settings.levelDistance) (hsibling : 0 ≤ settings.siblingDistance)
    (hb : (d.moveTo (place settings direction d)).boxes[v]? = some b)
    (hc : (d.moveTo (place settings direction d)).boxes[w]? = some c) (hne : v ≠ w) :
    b.bounds.intersects c.bounds = false ∧
      (d.forest.depth v = d.forest.depth w →
        (direction.across b.bounds).Apart settings.siblingDistance (direction.across c.bounds)) ∧
      (d.forest.depth v < d.forest.depth w →
        (direction.along b.bounds).Before settings.levelDistance (direction.along c.bounds)) := by
  have hv := placed hb
  have hw := placed hc
  refine ⟨?_, hv.beside hd.linked hsize hsibling hw hne, hv.above hlevel hw⟩
  -- boxes of one level pass each other across, boxes of two levels along
  rcases Nat.lt_trichotomy (d.forest.depth v) (d.forest.depth w) with hlt | heq | hgt
  · exact direction.intersects_of_along hlevel (.inl (hv.above hlevel hw hlt))
  · exact direction.intersects_of_across hsibling (hv.beside hd.linked hsize hsibling hw hne heq)
  · exact direction.intersects_of_along hlevel (.inr (hw.above hlevel hv hgt))

noncomputable def household : Diagram ℝ :=
  let sizes : List (Size Nat) := [⟨40, 20⟩, ⟨90, 30⟩, ⟨20, 50⟩, ⟨10, 10⟩]
  [⟨0, 1, ""⟩, ⟨0, 2, ""⟩].foldl Diagram.addLink
    (sizes.foldl (fun d s => d.addBox (.fresh "" "" ⟨ofNat s.width, ofNat s.height⟩)) .empty)

theorem boxes_apart_household :
    household.Built ∧ household.forest.depth 0 = 0 ∧ household.forest.depth 1 = 1 ∧
      household.forest.depth 2 = 1 ∧ ∃ a b c : Box ℝ,
    (household.moveTo (place ⟨60, 30⟩ .rightToLeft household)).boxes[0]? = some a ∧
    (household.moveTo (place ⟨60, 30⟩ .rightToLeft household)).boxes[1]? = some b ∧
    (household.moveTo (place ⟨60, 30⟩ .rightToLeft household)).boxes[2]? = some c ∧
    b.bounds.intersects c.bounds = false ∧
    (Direction.rightToLeft.across b.bounds).Apart 30 (Direction.rightToLeft.across c.bounds) ∧
    (Direction.rightToLeft.along a.bounds).Before 60 (Direction.rightToLeft.along b.bounds) := by
  have hbuilt : household.Built := by
    apply Diagram.Built.addLinks
    · exact .addBox (.addBox (.addBox (.addBox .empty rfl rfl) rfl rfl) rfl rfl) rfl rfl
    · decide
  have hsizes : household.boxes.toList.map Box.size =
      [⟨ofNat 40, ofNat 20⟩, ⟨ofNat 90, ofNat 30⟩, ⟨ofNat 20, ofNat 50⟩, ⟨ofNat 10, ofNat 10⟩] := rfl
  have hsize : ∀ b ∈ household.boxes, 0 ≤ b.size.width ∧ 0 ≤ b.size.height := by
    intro b hb
    have hmem := List.mem_map_of_mem (f := Box.size) (Array.mem_toList_iff.mpr hb)
    rw [hsizes] at hmem
    generalize b.size = s at hmem
    fin_cases hmem <;> simp
  have h0 : household.forest.depth 0 = 0 := by decide +kernel
  have h1 : household.forest.depth 1 = 1 := by decide +kernel
  have h2 : household.forest.depth 2 = 1 := by decide +kernel
  have hcount : household.boxes.size = 4 := rfl
  have hbox : ∀ v < 4, ∃ b : Box ℝ,
      (household.moveTo (place ⟨60, 30⟩ .rightToLeft household)).boxes[v]? = some b := by
    intro v hv
    exact ⟨_, Array.getElem?_eq_getElem (by simpa [Diagram.moveTo, hcount] using hv)⟩
  obtain ⟨a, ha⟩ := hbox 0 (by decide)
  obtain ⟨b, hb⟩ := hbox 1 (by decide)
  obtain ⟨c, hc⟩ := hbox 2 (by decide)
  have hbc := boxes_apart hbuilt hsize (by norm_num) (by norm_num) hb hc (by decide)
  have hab := boxes_apart hbuilt hsize (by norm_num) (by norm_num) ha hb (by decide)
  exact ⟨hbuilt, h0, h1, h2, a, b, c, ha, hb, hc, hbc.1, hbc.2.1 (h1.trans h2.symm),
    hab.2.2 (by omega)⟩

end Boxes

end GraphScribe.Tree
