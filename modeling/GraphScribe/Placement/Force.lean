import GraphScribe.Placement.Circular

/-!
# Force-directed placements

Boxes repel each other, links pull their ends together, and in each iteration every box moves by its
net force, but not too far. Where two boxes start in one place, all are first spread on a circle, so
that a drawing that has been nudged by hand keeps its shape otherwise. Of two boxes that meet later,
the indices say in which direction they part.
-/
namespace GraphScribe.Force

open Scalar (ofNat decimal half)

variable {α : Type} [Scalar α]

/-- Boxes closer than this are in one place. -/
def minDistance : α := decimal 1 2

abbrev Points (α : Type) := Array (Point α)

def pointAt (ps : Points α) (v : Nat) : Point α := ps[v]?.getD .origin

def pulls (d : Diagram α) : List (Nat × Nat) :=
  (d.links.toList.filter fun l => l.source != l.sink).map fun l => (l.source, l.sink)

def coincide : List (Point α) → Bool
  | [] => false
  | p :: ps => ps.any (fun q => Scalar.lt (p.distance q) minDistance) || coincide ps

def seed (d : Diagram α) (spacing : α) : Points α :=
  let ps := d.positions
  if coincide ps then
    let step := Scalar.max spacing d.maxDiagonal
    let radius :=
      Scalar.max (ofNat d.count * step / (ofNat 2 * Scalar.pi)) (half step)
    (circlePoints d.count radius).toArray
  else ps.toArray

def separation (ps : Points α) (w v : Nat) : Point α × α :=
  let delta := pointAt ps w - pointAt ps v
  let distance := delta.length
  if Scalar.lt distance minDistance then
    let angle : α := ofNat (v * 31 + w * 17)
    (⟨Scalar.cos angle, Scalar.sin angle⟩, minDistance)
  else (delta.scale (ofNat 1 / distance), distance)

def exert (forces : Points α) (v w : Nat) (force : Point α) : Points α :=
  (forces.modify v (· + force)).modify w (· - force)

def repulsion (strength : α → α) (ps : Points α) : Points α :=
  let n := ps.size
  (List.range n).foldl (fun forces v =>
      (List.range' (v + 1) (n - (v + 1))).foldl (fun forces w =>
          let (direction, distance) := separation ps v w
          exert forces v w (direction.scale (strength distance)))
        forces)
    (Array.replicate n .origin)

def attraction (strength : α → α) (links : List (Nat × Nat)) (ps forces : Points α) : Points α :=
  links.foldl (fun forces (v, w) =>
      let (direction, distance) := separation ps w v
      exert forces v w (direction.scale (strength distance)))
    forces

/-- A force cut down to a length of at most `limit`; one of a length that is not finite vanishes. -/
def capped (force : Point α) (limit : α) : Point α :=
  let length := force.length
  if !Scalar.isFinite length then .origin
  else if Scalar.le length (Scalar.max limit (ofNat 0)) then force
  else force.scale (limit / length)

def step (repel pull : α → α) (links : List (Nat × Nat)) (limit : α) (ps : Points α) :
    Points α :=
  let forces := attraction pull links ps (repulsion repel ps)
  ps.mapIdx fun v p => p + capped (pointAt forces v) limit

/-- Springs of a rest length against inverse-square repulsion. -/
def placeSprings (settings : SpringSettings α) (d : Diagram α) : List (Point α) :=
  let links := pulls d
  let repel := fun distance => settings.repulsion / (distance * distance)
  let pull := fun distance => settings.stiffness * (distance - settings.length)
  let final := (List.range settings.iterations).foldl
    (fun ps _ => step repel pull links settings.maxStep ps) (seed d settings.length)
  final.toList

/-- Repulsion `k²/x` against attraction `x²/k`, with steps that shrink evenly to nothing. -/
def placeCooling (settings : CoolingSettings α) (d : Diagram α) : List (Point α) :=
  let k := Scalar.max settings.distance minDistance
  let links := pulls d
  let repel := fun distance => k * k / distance
  let pull := fun distance => distance * distance / k
  let n := settings.iterations
  let final := (List.range n).foldl (fun ps i =>
      let temperature := settings.temperature * (ofNat 1 - ofNat i / ofNat n)
      step repel pull links temperature ps)
    (seed d k)
  final.toList

end GraphScribe.Force
