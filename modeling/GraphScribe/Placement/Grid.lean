import GraphScribe.Geometry.Plane
import GraphScribe.Placement.Table

/-!
# Snapping to a grid

Each point moves to the grid cell nearest to it. Where that cell is taken, the smallest square ring
around it that has a free cell is used, and on it the cell closest to the point.
-/
namespace GraphScribe.Grid

open Scalar (ofNat ofInt)

abbrev Cell := Int × Int

def span (radius : Nat) : List Int :=
  (List.range (2 * radius + 1)).map fun i : Nat => (i : Int) - radius

/-- The cells at a distance of `radius` from `center`, rows from the top down. -/
def ring (center : Cell) (radius : Nat) : List Cell :=
  ((span radius).flatMap fun dy => (span radius).map fun dx => (dx, dy))
    |>.filter (fun (dx, dy) => max dx.natAbs dy.natAbs == radius)
    |>.map fun (dx, dy) => (center.1 + dx, center.2 + dy)

variable {α : Type} [Scalar α]

def center (pitch : α) (c : Cell) : Point α := ⟨ofInt c.1 * pitch, ofInt c.2 * pitch⟩

def under (pitch : α) (p : Point α) : Cell :=
  (Scalar.round (p.x / pitch), Scalar.round (p.y / pitch))

def distanceTo (pitch : α) (p : Point α) (c : Cell) : α :=
  let q := center pitch c
  (q.x - p.x) * (q.x - p.x) + (q.y - p.y) * (q.y - p.y)

def leastBy {β : Type} (key : β → α) : List β → Option β
  | [] => none
  | b :: bs => some (bs.foldl (fun best c =>
      if Scalar.order (key c) (key best) == .lt then c else best) b)

def freeOn (pitch : α) (p : Point α) (taken : List Cell) (target : Cell) (radius : Nat) :
    Option Cell :=
  leastBy (distanceTo pitch p) ((ring target radius).filter fun c => !taken.contains c)

/-- The free cell for a point. Of more rings than there are cells taken, one has a free cell. -/
def nearestFree (pitch : α) (p : Point α) (taken : List Cell) : Cell :=
  let target := under pitch p
  if taken.contains target then
    ((List.range' 1 (taken.length + 1)).findSome? (freeOn pitch p taken target)).getD target
  else target

def snap (pitch : α) (point : Nat → Point α) : List Nat → List Cell → Table Cell
  | [], _ => []
  | v :: vs, taken =>
    let c := nearestFree pitch (point v) taken
    (v, c) :: snap pitch point vs (c :: taken)

end GraphScribe.Grid
