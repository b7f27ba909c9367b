import GraphScribe.Placement.Orientation
import GraphScribe.Placement.Ranks
import GraphScribe.Placement.Table

/-!
# Layered placement

Boxes of one rank form a layer. Within a layer they are ordered by the mean position of their
neighbours in other layers, going down along predecessors and up along successors; boxes with equal
means keep their order. Layers are stacked along the direction, each as deep as its deepest box and
centred on the widest one.
-/
namespace GraphScribe.Layered

open Scalar (ofNat half)

abbrev Layers := List (List Nat)

/-- The boxes of each rank in the order of indices; a rank without boxes makes no layer. -/
def layers (indices ranks : List Nat) : Layers :=
  ((List.range (ranks.foldl max 0 + 1)).map fun r =>
    indices.filter fun v => ranks.getD v 0 == r).filter fun layer => !layer.isEmpty

def placeOf (ls : Layers) (v : Nat) : Nat :=
  ((ls.find? (·.contains v)).map (·.idxOf v)).getD 0

variable {α : Type} [Scalar α]

def score (neighbors : Nat → List Nat) (place : Nat → Nat) (v current : Nat) : α :=
  match ((neighbors v).filter (· != v)).map place with
  | [] => ofNat current
  | places => ofNat (places.foldl (· + ·) 0) / ofNat places.length

/-- Sorts a layer by score; equal scores keep their order. -/
def sortLayer (α : Type) [Scalar α] (neighbors : Nat → List Nat) (place : Nat → Nat)
    (layer : List Nat) : List Nat :=
  let scored := layer.zipIdx.map fun (v, i) => ((score neighbors place v i : α), v)
  (scored.mergeSort fun a b => (Scalar.order a.1 b.1).isLE).map (·.2)

def sortAt (α : Type) [Scalar α] (neighbors : Nat → List Nat) (ls : Layers) (r : Nat) : Layers :=
  ls.modify r (sortLayer α neighbors (placeOf ls))

def sweep (α : Type) [Scalar α] (d : Diagram α) (ls : Layers) : Layers :=
  let n := ls.length
  let down := (List.range' 1 (n - 1)).foldl (sortAt α d.predecessors) ls
  (List.range (n - 1)).reverse.foldl (sortAt α d.successors) down

def sweeps (d : Diagram α) : Nat → Layers → Layers
  | 0, ls => ls
  | n + 1, ls => sweeps d n (sweep α d ls)

def extent (spacing : α) (cross : Nat → α) (layer : List Nat) : α :=
  Scalar.sum (layer.map cross) + spacing * ofNat (layer.length - 1)

def placeLayer (direction : Direction) (spacing : α) (cross : Nat → α) (main : α) :
    α → List Nat → Table (Point α)
  | _, [] => []
  | cursor, v :: vs =>
    (v, direction.orient (cursor + half (cross v)) main) ::
      placeLayer direction spacing cross main (cursor + (cross v + spacing)) vs

def stack (settings : LayeredSettings α) (direction : Direction) (d : Diagram α) (widest : α) :
    α → Layers → Table (Point α)
  | _, [] => []
  | cursor, layer :: ls =>
    let cross := fun v => direction.cross (d.size v)
    let depth := Scalar.largest (layer.map fun v => direction.main (d.size v))
    let start := half (widest - extent settings.nodeSpacing cross layer)
    placeLayer direction settings.nodeSpacing cross (cursor + half depth) start layer ++
      stack settings direction d widest (cursor + (depth + settings.rankSpacing)) ls

def ordered (settings : LayeredSettings α) (d : Diagram α) : Layers :=
  sweeps d settings.sweeps (layers d.indices d.ranks)

def table (settings : LayeredSettings α) (direction : Direction) (d : Diagram α) :
    Table (Point α) :=
  let ls := ordered settings d
  let cross := fun v => direction.cross (d.size v)
  let widest := Scalar.largest (ls.map (extent settings.nodeSpacing cross))
  stack settings direction d widest (ofNat 0) ls

def place (settings : LayeredSettings α) (direction : Direction) (d : Diagram α) :
    List (Point α) :=
  let centers := table settings direction d
  d.indices.map fun v => centers.get v (d.position v)

end GraphScribe.Layered
