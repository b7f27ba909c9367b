import GraphScribe.Placement.Forest
import GraphScribe.Placement.Orientation
import GraphScribe.Placement.Table

/-!
# Tree placement

The spanning forest drawn in levels. Each subtree has a span across the levels that is wide enough
for all that hangs from its root; children are centred under their parent, and a level is as deep as
its deepest box. Links outside the forest have no influence.
-/
namespace GraphScribe.Tree

open Scalar (ofNat half)

variable {α : Type} [Scalar α]

def rowExtent (gap : α) (extents : List α) : α :=
  Scalar.sum extents + gap * ofNat (extents.length - 1)

/-- The span of every subtree, from the leaves up. -/
def spans (gap : α) (cross : Nat → α) : Forest → Table α
  | [] => []
  | seat :: later =>
    let below := spans gap cross later
    let extents := (Forest.children later seat.node).map fun c => below.get c (ofNat 0)
    (seat.node, Scalar.max (cross seat.node) (rowExtent gap extents)) :: below

def row (gap : α) (span : Nat → α) : α → List Nat → Table α
  | _, [] => []
  | start, v :: vs =>
    (v, start + half (span v)) :: row gap span (start + (span v + gap)) vs

def underneath (gap : α) (span : Nat → α) (f : Forest) (placed : Table α) (v : Nat) : Table α :=
  let children := f.children v
  let total := rowExtent gap (children.map span)
  row gap span (placed.get v (ofNat 0) - half total) children

def crossCenters (gap : α) (span : Nat → α) (f : Forest) : Table α :=
  f.foldl (fun placed seat => placed ++ underneath gap span f placed seat.node)
    (row gap span (ofNat 0) f.roots)

/-- The middle of every level, when the first begins at `offset`. -/
def levelCenters (distance : α) : α → List α → List α
  | _, [] => []
  | offset, extent :: extents =>
    (offset + half extent) :: levelCenters distance (offset + (extent + distance)) extents

def levelExtents (f : Forest) (main : Nat → α) (indices : List Nat) : List α :=
  (List.range (f.maxDepth + 1)).map fun level =>
    Scalar.largest ((indices.filter fun v => f.depth v == level).map main)

def place (settings : TreeSettings α) (direction : Direction) (d : Diagram α) :
    List (Point α) :=
  let f := d.forest
  let gap := settings.siblingDistance
  let spanTable := spans gap (fun v => direction.cross (d.size v)) f
  let span := fun v => spanTable.get v (ofNat 0)
  let across := crossCenters gap span f
  let extents := levelExtents f (fun v => direction.main (d.size v)) d.indices
  let levels := levelCenters settings.levelDistance (ofNat 0) extents
  d.indices.map fun v =>
    direction.orient (across.get v (ofNat 0)) (levels.getD (f.depth v) (ofNat 0))

end GraphScribe.Tree
