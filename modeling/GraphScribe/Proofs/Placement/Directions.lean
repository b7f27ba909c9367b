import GraphScribe.Placement.Algorithm
import GraphScribe.Proofs.Diagram.Views
import GraphScribe.Proofs.Placement.Inputs

/-! # Drawings in every direction

A placement along a direction asks for the extents of a box across and along the levels and turns the
points that it has computed; between these two places the direction plays no part. So a drawing in any
direction is the drawing from the top down of the diagram turned so, turned back. -/
namespace GraphScribe

variable {α : Type}

def Size.transposed (s : Size α) : Size α := ⟨s.height, s.width⟩

def Box.transposed (b : Box α) : Box α := { b with size := b.size.transposed }

namespace Point

def transposed (p : Point α) : Point α := ⟨p.y, p.x⟩

def mirrored [Scalar α] (p : Point α) : Point α := ⟨-p.x, p.y⟩

def flipped [Scalar α] (p : Point α) : Point α := ⟨p.x, -p.y⟩

end Point

namespace Diagram

def transposed (d : Diagram α) : Diagram α := { d with boxes := d.boxes.map Box.transposed }

/-- The diagram that a placement along the direction draws from the top down. -/
def facing (d : Diagram α) (direction : Direction) : Diagram α :=
  if direction.isHorizontal then d.transposed else d

variable (d : Diagram α) (direction : Direction)

theorem sameLinks_transposed : d.transposed.SameLinks d :=
  sameLinks_of_views Array.map_map Array.map_map Array.map_map

theorem sameLinks_facing : (d.facing direction).SameLinks d := by
  by_cases h : direction.isHorizontal
  · rw [facing, if_pos h]
    exact d.sameLinks_transposed
  · rw [facing, if_neg h]
    exact .refl d

variable [Scalar α]

theorem size_transposed (v : Nat) : d.transposed.size v = (d.size v).transposed := by
  simp only [size, transposed, Array.getElem?_map, Option.map_map]
  cases d.boxes[v]? <;> rfl

theorem cross_facing (v : Nat) :
    Direction.topToBottom.cross ((d.facing direction).size v) = direction.cross (d.size v) := by
  by_cases h : direction.isHorizontal
  · rw [facing, if_pos h, size_transposed, Direction.cross, Direction.cross, if_pos h]
    rfl
  · rw [facing, if_neg h, Direction.cross, Direction.cross, if_neg h]
    rfl

theorem main_facing (v : Nat) :
    Direction.topToBottom.main ((d.facing direction).size v) = direction.main (d.size v) := by
  by_cases h : direction.isHorizontal
  · rw [facing, if_pos h, size_transposed, Direction.main, Direction.main, if_pos h]
    rfl
  · rw [facing, if_neg h, Direction.main, Direction.main, if_neg h]
    rfl

end Diagram

variable [Scalar α]

/-- Where the point of a drawing from the top down lies in the direction. -/
def Direction.turn (direction : Direction) (p : Point α) : Point α := direction.orient p.x p.y

theorem Tree.place_facing (settings : TreeSettings α) (direction : Direction) (d : Diagram α) :
    place settings direction d =
      (place settings .topToBottom (d.facing direction)).map direction.turn := by
  have hlinks := d.sameLinks_facing direction
  have hindices : (d.facing direction).indices = d.indices := congrArg List.range hlinks.count
  simp only [place, hlinks.sameWays.forest_eq, hindices, d.cross_facing, d.main_facing,
    List.map_map]
  rfl

namespace Layered

theorem placeLayer_turn (direction : Direction) (spacing : α) (cross : Nat → α) (main cursor : α)
    (layer : List Nat) : placeLayer direction spacing cross main cursor layer =
      (placeLayer .topToBottom spacing cross main cursor layer).map
        fun entry => (entry.1, direction.turn entry.2) := by
  induction layer generalizing cursor with
  | nil => rfl
  | cons v vs ih =>
    rw [placeLayer, placeLayer, ih, List.map_cons]
    rfl

theorem stack_facing (settings : LayeredSettings α) (direction : Direction) (d : Diagram α)
    (widest cursor : α) (ls : Layers) : stack settings direction d widest cursor ls =
      (stack settings .topToBottom (d.facing direction) widest cursor ls).map
        fun entry => (entry.1, direction.turn entry.2) := by
  induction ls generalizing cursor with
  | nil => rfl
  | cons layer ls ih =>
    simp only [stack, d.cross_facing, d.main_facing, List.map_append]
    rw [← placeLayer_turn, ← ih]

theorem table_facing (settings : LayeredSettings α) (direction : Direction) (d : Diagram α) :
    table settings direction d = (table settings .topToBottom (d.facing direction)).map
      fun entry => (entry.1, direction.turn entry.2) := by
  have hordered := ordered_congr settings (d.sameLinks_facing direction)
  simp only [table, hordered, d.cross_facing, ← stack_facing]

theorem place_facing (settings : LayeredSettings α) (direction : Direction) (d : Diagram α) :
    place settings direction d =
      (place settings .topToBottom (d.facing direction)).map direction.turn := by
  have hindices : (d.facing direction).indices = d.indices :=
    congrArg List.range (d.sameLinks_facing direction).count
  rw [place_eq, place_eq, List.map_map, hindices]
  apply List.map_congr_left
  intro v hv
  have hkey := mem_keys_table settings direction d hv
  rw [Table.get_of_mem_keys hkey .origin (direction.turn .origin), table_facing, Table.get_map]
  rfl

end Layered

structure Symmetric (place : Direction → Diagram α → List (Point α)) : Prop where
  length : ∀ direction d, (place direction d).length = d.count
  leftToRight : ∀ d, place .leftToRight d = (place .topToBottom d.transposed).map Point.transposed
  bottomToTop : ∀ d, place .bottomToTop d = (place .topToBottom d).map Point.flipped
  rightToLeft : ∀ d, place .rightToLeft d = (place .leftToRight d).map Point.mirrored

theorem symmetric_of_facing {place : Direction → Diagram α → List (Point α)}
    (hlength : ∀ direction d, (place direction d).length = d.count)
    (hfacing : ∀ direction d,
      place direction d = (place .topToBottom (d.facing direction)).map direction.turn) :
    Symmetric place where
  length := hlength
  leftToRight d := hfacing .leftToRight d
  bottomToTop d := hfacing .bottomToTop d
  rightToLeft d := by
    rw [hfacing .rightToLeft d, hfacing .leftToRight d, List.map_map]
    rfl

/-- Exchanging widths and heights exchanges the coordinates of a drawing from the top down and of one
from the left; the drawing from the bottom up is the one from the top down turned over, and the one
from the right is that from the left. -/
theorem directions_symmetric (settings : LayoutSettings α) :
    Symmetric (fun direction => (Algorithm.tree.placement settings direction).place) ∧
      Symmetric (fun direction => (Algorithm.layered.placement settings direction).place) := by
  constructor
  · apply symmetric_of_facing
    · intro direction d
      simp [Algorithm.placement, Tree.place, Diagram.indices]
    · intro direction d
      exact Tree.place_facing settings.tree direction d
  · apply symmetric_of_facing
    · intro direction d
      simp [Algorithm.placement, Layered.place, Diagram.indices]
    · intro direction d
      exact Layered.place_facing settings.layered direction d

end GraphScribe
