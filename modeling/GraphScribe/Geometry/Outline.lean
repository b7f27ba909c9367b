import GraphScribe.Geometry.Plane

/-!
# Node outlines

An edge is drawn from outline to outline. The ray from the centre of a node towards a target leaves
the node at `centre + t · (target - centre)`; each shape has its own formula for the factor `t`.
-/
namespace GraphScribe

open Scalar (ofNat half)

inductive NodeShape where
  | ellipse
  | rectangle
  | roundedRectangle
  deriving DecidableEq, Repr

namespace NodeShape

def all : List NodeShape := [ellipse, rectangle, roundedRectangle]

def name : NodeShape → String
  | ellipse => "ellipse"
  | rectangle => "rectangle"
  | roundedRectangle => "rounded_rectangle"

def ofName? (s : String) : Option NodeShape := all.find? fun c => c.name == s

end NodeShape

namespace Outline

variable {α : Type} [Scalar α]

def square (a : α) : α := a * a

def ellipseFactor (d : Point α) (a b : α) : α :=
  ofNat 1 / Scalar.sqrt (square (d.x / a) + square (d.y / b))

def sideFactor? (d a : α) : Option α :=
  if Scalar.eq d (ofNat 0) then none else some (a / Scalar.abs d)

/-- The factor where a ray reaches one side only. A factor that differs from itself sets no bound. -/
def soleFactor (t : α) : α := if Scalar.eq t t then t else ofNat 1 / ofNat 0

def rectangleFactor (d : Point α) (a b : α) : α :=
  match sideFactor? d.x a, sideFactor? d.y b with
  | some tx, some ty => Scalar.min tx ty
  | some tx, none => soleFactor tx
  | none, some ty => soleFactor ty
  | none, none => ofNat 0

def cornerRadius (a b : α) : α := Scalar.min a b * Scalar.decimal 25 2

def withSign (size a : α) : α := if Scalar.lt a (ofNat 0) then -size else size

/-- The factor for the rounded rectangle. A ray that leaves the rectangle beyond the straight parts
of both sides meets the circle around the corner's centre, of whose two intersections the farther
one is on the outline. -/
def roundedFactor (d : Point α) (a b : α) : α :=
  let t := rectangleFactor d a b
  let radius := cornerRadius a b
  let hit := d.scale t
  let innerX := a - radius
  let innerY := b - radius
  if Scalar.le (Scalar.abs hit.x) innerX || Scalar.le (Scalar.abs hit.y) innerY then t
  else
    let corner : Point α := ⟨withSign innerX hit.x, withSign innerY hit.y⟩
    let qa := d.x * d.x + d.y * d.y
    let qb := -ofNat 2 * (d.x * corner.x + d.y * corner.y)
    let qc := corner.x * corner.x + corner.y * corner.y - radius * radius
    let discriminant := qb * qb - ofNat 4 * qa * qc
    if Scalar.lt discriminant (ofNat 0) then t
    else (-qb + Scalar.sqrt discriminant) / (ofNat 2 * qa)

def factor (shape : NodeShape) (d : Point α) (a b : α) : α :=
  match shape with
  | .ellipse => ellipseFactor d a b
  | .rectangle => rectangleFactor d a b
  | .roundedRectangle => roundedFactor d a b

end Outline

/-- Where the ray from `center` towards `toward` leaves the outline. It is the centre itself where
the two points coincide or the node has no extent. -/
def boundaryPoint {α : Type} [Scalar α] (shape : NodeShape) (center : Point α) (size : Size α)
    (toward : Point α) : Point α :=
  let d := toward - center
  let a := half size.width
  let b := half size.height
  if Scalar.eq d.length (ofNat 0) || Scalar.le a (ofNat 0) || Scalar.le b (ofNat 0) then center
  else center + d.scale (Outline.factor shape d a b)

end GraphScribe
