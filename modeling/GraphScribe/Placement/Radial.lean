import GraphScribe.Placement.Circular
import GraphScribe.Placement.Forest
import GraphScribe.Placement.Table

/-!
# Radial placement

The spanning forest drawn on rings around the origin: a single root at the centre, several roots on
the first ring. Each box owns a wedge in proportion to the leaves below it and sits in its middle;
its children share the wedge.
-/
namespace GraphScribe.Radial

open Scalar (ofNat half)

def leafCounts : Forest → Table Nat
  | [] => []
  | seat :: later =>
    let below := leafCounts later
    let count := match Forest.children later seat.node with
      | [] => 1
      | children => children.foldl (fun n c => n + below.get c 0) 0
    (seat.node, count) :: below

variable {α : Type} [Scalar α]

structure Wedge (α : Type) where
  start : α
  width : α
  deriving Repr

def turn : α := ofNat 2 * Scalar.pi

def wedges (leaves : Nat → Nat) (total : Nat) : α → List Nat → Table (Wedge α)
  | _, [] => []
  | start, v :: vs =>
    let width := turn * ofNat (leaves v) / ofNat total
    (v, ⟨start, width⟩) :: wedges leaves total (start + width) vs

def allWedges (leaves : Nat → Nat) (total : Nat) (f : Forest) : Table (Wedge α) :=
  f.foldl (fun placed seat =>
      let own := placed.get seat.node ⟨ofNat 0, ofNat 0⟩
      placed ++ wedges leaves total own.start (f.children seat.node))
    (wedges leaves total (-half Scalar.pi) f.roots)

/-- The radius of a ring. The first ring is wide enough for the narrowest wedge. -/
def ringRadius (settings : RadialSettings α) (leaves : Nat) (maxDiagonal : α) : Nat → α
  | 0 => ofNat 0
  | ring + 1 =>
    let step := settings.levelDistance + maxDiagonal
    let first :=
      if leaves > 1 then Scalar.max step (circumradius leaves (maxDiagonal + settings.nodeSpacing))
      else step
    first + ofNat ring * step

def place (settings : RadialSettings α) (d : Diagram α) : List (Point α) :=
  let f := d.forest
  let inner := if f.roots.length > 1 then 1 else 0
  let counts := leafCounts f
  let leaves := fun v => counts.get v 0
  let total := f.roots.foldl (fun n r => n + leaves r) 0
  let placed : Table (Wedge α) := allWedges leaves total f
  let radius := ringRadius settings total d.maxDiagonal
  d.indices.map fun v =>
    let wedge := placed.get v ⟨ofNat 0, ofNat 0⟩
    .polar (radius (f.depth v + inner)) (wedge.start + half wedge.width)

end GraphScribe.Radial
