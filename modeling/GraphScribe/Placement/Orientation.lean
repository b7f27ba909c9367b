import GraphScribe.Geometry.Plane
import GraphScribe.Placement.Settings

/-!
# Orientation

A placement that grows along a direction computes across and along its levels, from the top down,
and turns the result at the end.
-/
namespace GraphScribe.Direction

variable {α : Type}

def isHorizontal : Direction → Bool
  | leftToRight | rightToLeft => true
  | topToBottom | bottomToTop => false

/-- Extent of a box across the levels. -/
def cross (d : Direction) (s : Size α) : α := if d.isHorizontal then s.height else s.width

/-- Extent of a box along the levels. -/
def main (d : Direction) (s : Size α) : α := if d.isHorizontal then s.width else s.height

def orient [Scalar α] (d : Direction) (cross main : α) : Point α :=
  match d with
  | topToBottom => ⟨cross, main⟩
  | bottomToTop => ⟨cross, -main⟩
  | leftToRight => ⟨main, cross⟩
  | rightToLeft => ⟨-main, cross⟩

end GraphScribe.Direction
