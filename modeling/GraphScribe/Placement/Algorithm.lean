import GraphScribe.Placement.Force
import GraphScribe.Placement.Layered
import GraphScribe.Placement.Names
import GraphScribe.Placement.Planar
import GraphScribe.Placement.Radial
import GraphScribe.Placement.Strategy
import GraphScribe.Placement.Tree

/-!
# The built-in placements
-/
namespace GraphScribe.Algorithm

variable {α : Type} [Scalar α]

/-- The placement of an algorithm. Those that do not grow along a direction ignore it. -/
def placement (a : Algorithm) (settings : LayoutSettings α) (direction : Direction) :
    Placement α where
  name := a.name
  place := match a with
    | tree => Tree.place settings.tree direction
    | layered => Layered.place settings.layered direction
    | radialTree => Radial.place settings.radial
    | spring => Force.placeSprings settings.spring
    | fruchtermanReingold => Force.placeCooling settings.cooling
    | circular => Circular.place settings.circular
    | planar => Planar.place settings.planar

end GraphScribe.Algorithm
