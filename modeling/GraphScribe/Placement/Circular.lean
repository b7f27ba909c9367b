import GraphScribe.Diagram.Basic
import GraphScribe.Placement.Settings

/-!
# Circular placement

Boxes are spread evenly on a circle in the order of indices, the first at the top, going clockwise.
The chord between neighbours is at least the largest diagonal and the spacing together. A single box
sits at the centre.
-/
namespace GraphScribe

open Scalar (ofNat half)

variable {α : Type} [Scalar α]

def circleAngle (count i : Nat) : α :=
  -half Scalar.pi + ofNat 2 * Scalar.pi * ofNat i / ofNat count

def Point.polar (radius angle : α) : Point α :=
  ⟨radius * Scalar.cos angle, radius * Scalar.sin angle⟩

/-- Points evenly spread on a circle around the origin, the first at the top, going clockwise. -/
def circlePoints (count : Nat) (radius : α) : List (Point α) :=
  (List.range count).map fun i => .polar radius (circleAngle count i)

/-- The radius at which neighbours among `count` points on a circle are `chord` apart. -/
def circumradius (count : Nat) (chord : α) : α :=
  chord / (ofNat 2 * Scalar.sin (Scalar.pi / ofNat count))

namespace Circular

def radius (settings : CircularSettings α) (count : Nat) (maxDiagonal : α) : α :=
  if count < 2 then ofNat 0 else circumradius count (maxDiagonal + settings.nodeSpacing)

def place (settings : CircularSettings α) (d : Diagram α) : List (Point α) :=
  if d.count = 1 then [.origin]
  else circlePoints d.count (radius settings d.count d.maxDiagonal)

end Circular

end GraphScribe
