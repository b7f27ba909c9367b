import GraphScribe.Placement.Circular
import GraphScribe.Placement.Frame
import GraphScribe.Placement.Grid

/-!
# Planar placement

Each connected component is drawn on its own: its frame on a circle, every other box at the mean of
its neighbours, approached in a number of passes. The drawing is then snapped to a square grid that
is wide enough for any box, and the components are put side by side. The frame comes first on the
grid, so that it keeps its cells where the interior is crowded.
-/
namespace GraphScribe.Planar

open Scalar (ofNat)

variable {α : Type} [Scalar α]

abbrev Points (α : Type) := Array (Point α)

def pointAt (ps : Points α) (v : Nat) : Point α := ps[v]?.getD .origin

def frameRadius (pitch : α) (sides count : Nat) : α :=
  if sides < 2 then ofNat 0
  else Scalar.max (circumradius sides pitch) (pitch * Scalar.sqrt (ofNat count))

def relax (adjacent : Nat → List Nat) (ps : Points α) (v : Nat) : Points α :=
  match adjacent v with
  | [] => ps
  | ws =>
    let sum := (ws.map (pointAt ps)).foldl (· + ·) .origin
    ps.setIfInBounds v (sum.scale (ofNat 1 / ofNat ws.length))

def embed (passes : Nat) (adjacent : Nat → List Nat) (pitch : α) (c : Component)
    (ps : Points α) : Points α :=
  let sides := c.frame.length
  let circle := circlePoints sides (frameRadius pitch sides c.nodes.length)
  let ps := (c.frame.zip circle).foldl (fun ps (v, p) => ps.setIfInBounds v p) ps
  let ps := c.interior.foldl (fun ps v => ps.setIfInBounds v .origin) ps
  (List.range passes).foldl (fun ps _ => c.interior.foldl (relax adjacent) ps) ps

def snapped (pitch : α) (ps : Points α) (c : Component) : Table (Point α) :=
  (Grid.snap pitch (pointAt ps) c.nodes []).map fun (v, cell) => (v, Grid.center pitch cell)

/-- Puts drawings side by side, the left border of the first at `cursor` and the top of each at
zero. -/
def pack (spacing : α) (size : Nat → Size α) : α → List (Table (Point α)) → Table (Point α)
  | _, [] => []
  | cursor, drawing :: drawings =>
    match Rect.unionAll? (drawing.map fun (v, p) => .ofCenter p (size v)) with
    | none => pack spacing size cursor drawings
    | some bounds =>
      let offset : Point α := ⟨cursor - bounds.x, -bounds.y⟩
      drawing.map (fun (v, p) => (v, p + offset)) ++
        pack spacing size (cursor + (bounds.width + spacing)) drawings

def gridPitch (settings : PlanarSettings α) (d : Diagram α) : α :=
  Scalar.max (d.maxDiagonal + settings.nodeSpacing) (ofNat 1)

def table (settings : PlanarSettings α) (d : Diagram α) : Table (Point α) :=
  let rows := (d.indices.map d.neighbors).toArray
  let adjacent := fun v => rows.getD v []
  let pitch := gridPitch settings d
  let blank : Points α := Array.replicate d.count .origin
  let drawings := (Component.all adjacent d.count).map fun c =>
    snapped pitch (embed settings.iterations adjacent pitch c blank) c
  pack settings.componentSpacing d.size (ofNat 0) drawings

def place (settings : PlanarSettings α) (d : Diagram α) : List (Point α) :=
  let centers := table settings d
  d.indices.map fun v => centers.get v (d.position v)

end GraphScribe.Planar
