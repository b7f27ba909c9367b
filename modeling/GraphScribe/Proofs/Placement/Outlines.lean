import GraphScribe.Proofs.Diagram.Links
import GraphScribe.Proofs.Geometry.Stretches
import GraphScribe.Proofs.Placement.Outcome
import GraphScribe.Proofs.Placement.Tables

/-! # Outlines of placed boxes

A placement that gives a point for every index puts each box around its point, in its own size; one
that looks the points up in a table puts the box around the point of an entry. What holds of the
sizes of all boxes holds of the size that is looked up at any index, if it holds of no extent at
all. -/
namespace GraphScribe

namespace Diagram

variable {α : Type}

theorem sizes_wired (bs : Array (Box α)) (es : List (Nat × Nat)) :
    (wired bs es).boxes.map Box.size = bs.map Box.size := by
  have hsizes := congrArg (Array.map Box.size) (map_alone_foldl_joinBoxes es bs)
  rw [Array.map_map, Array.map_map] at hsizes
  rw [wired, foldl_addLink_boxes, ends_unlabelled]
  exact hsizes

variable [Scalar α] {d : Diagram α}

theorem bounds?_moveTo (center : Nat → Point α) {v : Nat} (hv : v ∈ d.indices) :
    (d.moveTo (d.indices.map center)).boxes[v]?.map Box.bounds =
      some (.ofCenter (center v) (d.size v)) := by
  have hlt : v < d.boxes.size := List.mem_range.mp hv
  have hcenter : (d.indices.map center)[v]? = some (center v) := by
    rw [List.getElem?_map, indices, List.getElem?_range (List.mem_range.mp hv)]
    rfl
  rw [getElem?_moveTo, hcenter, size, Array.getElem?_eq_getElem hlt]
  rfl

theorem bounds_moveTo {center : Nat → Point α} {v : Nat} {b : Box α}
    (h : (d.moveTo (d.indices.map center)).boxes[v]? = some b) :
    v ∈ d.indices ∧ b.bounds = .ofCenter (center v) (d.size v) := by
  have hv : v ∈ d.indices := by
    have hlt := (Array.getElem?_eq_some_iff.mp h).1
    rw [moveTo, Array.size_mapIdx] at hlt
    exact List.mem_range.mpr hlt
  refine ⟨hv, ?_⟩
  have hbounds := bounds?_moveTo center hv
  rw [h] at hbounds
  exact Option.some.inj hbounds

/-- The rectangle of a box, its centre where an entry of a table has it. -/
def outline (d : Diagram α) (e : Nat × Point α) : Rect α := .ofCenter e.2 (d.size e.1)

theorem outline_of_moveTo {t : Table (Point α)} (ht : ∀ v ∈ d.indices, v ∈ t.keys) {v : Nat}
    {b : Box α}
    (h : (d.moveTo (d.indices.map fun v => t.get v (d.position v))).boxes[v]? = some b) :
    ∃ e ∈ t, e.1 = v ∧ b.bounds = d.outline e := by
  obtain ⟨hindex, hbounds⟩ := bounds_moveTo h
  exact ⟨_, Table.mem_of_mem_keys (ht v hindex) _, rfl, hbounds⟩

def outlines (d : Diagram α) (vs : List Nat) : List (Rect α) :=
  vs.filterMap fun v => d.boxes[v]?.map Box.bounds

theorem outlines_moveTo {t part : Table (Point α)} (ht : t.keys.Nodup) (hpart : part ⊆ t)
    (hkeys : part.keys ⊆ d.indices) :
    (d.moveTo (d.indices.map fun v => t.get v (d.position v))).outlines part.keys =
      part.map d.outline := by
  have hsome : part.map d.outline = part.filterMap fun e => some (d.outline e) := by
    rw [List.filterMap_eq_map']
  rw [outlines, Table.keys, List.filterMap_map, hsome]
  apply List.filterMap_congr
  intro e he
  have hkey : e.1 ∈ part.keys := List.mem_map_of_mem he
  have hfound := (Table.mem_iff_get ht (List.map_subset _ hpart hkey) (d.position e.1)).mp (hpart he)
  rw [Function.comp_apply, bounds?_moveTo _ (hkeys hkey), ← hfound]
  rfl

theorem size_of_boxes {P : Size α → Prop} (hzero : P .zero) (h : ∀ b ∈ d.boxes, P b.size) (v : Nat) :
    P (d.size v) := by
  rw [size]
  cases hbox : d.boxes[v]? with
  | none => exact hzero
  | some b => exact h b (Array.mem_of_getElem? hbox)

end Diagram

variable {K : Type} [ExactScalar K] {d : Diagram K}

theorem Direction.cross_nonneg (direction : Direction)
    (hsize : ∀ b ∈ d.boxes, 0 ≤ b.size.width ∧ 0 ≤ b.size.height) (v : Nat) :
    0 ≤ direction.cross (d.size v) := by
  obtain ⟨hwidth, hheight⟩ : 0 ≤ (d.size v).width ∧ 0 ≤ (d.size v).height :=
    Diagram.size_of_boxes (P := fun s => 0 ≤ s.width ∧ 0 ≤ s.height) (by simp [Size.zero]) hsize v
  rw [Direction.cross]
  by_cases h : direction.isHorizontal = true
  · rw [if_pos h]
    exact hheight
  · rw [if_neg h]
    exact hwidth

theorem Diagram.sized_nonneg (sizes : List (Size Nat)) (es : List (Nat × Nat)) :
    ∀ b ∈ (sized sizes es : Diagram K).boxes, 0 ≤ b.size.width ∧ 0 ≤ b.size.height := by
  intro b hb
  have hmem := Array.mem_map_of_mem (f := Box.size) hb
  rw [sized, sizes_wired, List.map_toArray, List.map_map, List.mem_toArray] at hmem
  obtain ⟨s, -, hs⟩ := List.mem_map.mp hmem
  rw [← hs]
  simp [Box.fresh]

end GraphScribe
