import GraphScribe.Scalar.Basic

/-!
# Points, sizes and rectangles

The y axis points down. A rectangle is given by its top left corner.
-/
namespace GraphScribe

open Scalar (ofNat half)

structure Point (α : Type) where
  x : α
  y : α
  deriving DecidableEq, Repr

structure Size (α : Type) where
  width : α
  height : α
  deriving DecidableEq, Repr

structure Rect (α : Type) where
  x : α
  y : α
  width : α
  height : α
  deriving DecidableEq, Repr

variable {α : Type} [Scalar α]

namespace Point

def origin : Point α := ⟨ofNat 0, ofNat 0⟩

instance : Add (Point α) := ⟨fun p q => ⟨p.x + q.x, p.y + q.y⟩⟩

instance : Sub (Point α) := ⟨fun p q => ⟨p.x - q.x, p.y - q.y⟩⟩

def scale (p : Point α) (k : α) : Point α := ⟨p.x * k, p.y * k⟩

def length (p : Point α) : α := Scalar.hypot p.x p.y

def distance (p q : Point α) : α := (p - q).length

def isFinite (p : Point α) : Bool := Scalar.isFinite p.x && Scalar.isFinite p.y

def same (p q : Point α) : Bool := Scalar.eq p.x q.x && Scalar.eq p.y q.y

def isOrigin (p : Point α) : Bool := p.same origin

end Point

namespace Size

def zero : Size α := ⟨ofNat 0, ofNat 0⟩

def diagonal (s : Size α) : α := Scalar.hypot s.width s.height

end Size

namespace Rect

def zero : Rect α := ⟨ofNat 0, ofNat 0, ofNat 0, ofNat 0⟩

def ofCenter (center : Point α) (size : Size α) : Rect α :=
  ⟨center.x - half size.width, center.y - half size.height, size.width, size.height⟩

def left (r : Rect α) : α := r.x

def top (r : Rect α) : α := r.y

def right (r : Rect α) : α := r.x + r.width

def bottom (r : Rect α) : α := r.y + r.height

def center (r : Rect α) : Point α := ⟨r.x + half r.width, r.y + half r.height⟩

def size (r : Rect α) : Size α := ⟨r.width, r.height⟩

def union (r s : Rect α) : Rect α :=
  let left := Scalar.min r.left s.left
  let top := Scalar.min r.top s.top
  let right := Scalar.max r.right s.right
  let bottom := Scalar.max r.bottom s.bottom
  ⟨left, top, right - left, bottom - top⟩

def unionAll? : List (Rect α) → Option (Rect α)
  | [] => none
  | r :: rs => some (rs.foldl union r)

def pad (r : Rect α) (margin : α) : Rect α :=
  ⟨r.x - margin, r.y - margin, r.width + ofNat 2 * margin, r.height + ofNat 2 * margin⟩

/-- Whether `s` lies inside `r`, give or take a millionth. -/
def contains (r s : Rect α) : Bool :=
  let slack : α := Scalar.decimal 1 6
  Scalar.le (r.left - slack) s.left && Scalar.le (r.top - slack) s.top &&
    Scalar.le s.right (r.right + slack) && Scalar.le s.bottom (r.bottom + slack)

def intersects (r s : Rect α) : Bool :=
  Scalar.lt r.left s.right && Scalar.lt s.left r.right &&
    Scalar.lt r.top s.bottom && Scalar.lt s.top r.bottom

def same (r s : Rect α) : Bool :=
  Scalar.eq r.x s.x && Scalar.eq r.y s.y && Scalar.eq r.width s.width &&
    Scalar.eq r.height s.height

end Rect

end GraphScribe
