import GraphScribe.Json.Decode
import GraphScribe.Placement.Names
import GraphScribe.Scalar.Double

/-!
# Layout settings as JSON

At every level a value that is left out has its default and an unknown one is ignored.
-/
namespace GraphScribe

open Json (Decoder optional)

namespace LayoutSettings

variable (d : Decoder)

def tree? (s : TreeSettings Float) (v : Json) : Option (TreeSettings Float) := do
  let [level, sibling] ← d.record? ["level_distance", "sibling_distance"] v | none
  return ⟨← optional s.levelDistance d.real? level, ← optional s.siblingDistance d.real? sibling⟩

def layered? (s : LayeredSettings Float) (v : Json) : Option (LayeredSettings Float) := do
  let [rank, node, sweeps] ←
    d.record? ["rank_spacing", "node_spacing", "ordering_sweeps"] v | none
  return ⟨← optional s.rankSpacing d.real? rank, ← optional s.nodeSpacing d.real? node,
    ← optional s.sweeps d.count? sweeps⟩

def radial? (s : RadialSettings Float) (v : Json) : Option (RadialSettings Float) := do
  let [level, node] ← d.record? ["level_distance", "node_spacing"] v | none
  return ⟨← optional s.levelDistance d.real? level, ← optional s.nodeSpacing d.real? node⟩

def spring? (s : SpringSettings Float) (v : Json) : Option (SpringSettings Float) := do
  let [iterations, length, stiffness, repulsion, step] ←
    d.record? ["iterations", "spring_length", "spring_constant", "repulsion", "max_step"] v | none
  return ⟨← optional s.iterations d.count? iterations, ← optional s.length d.real? length,
    ← optional s.stiffness d.real? stiffness, ← optional s.repulsion d.real? repulsion,
    ← optional s.maxStep d.real? step⟩

def cooling? (s : CoolingSettings Float) (v : Json) : Option (CoolingSettings Float) := do
  let [iterations, distance, temperature] ←
    d.record? ["iterations", "optimal_distance", "initial_temperature"] v | none
  return ⟨← optional s.iterations d.count? iterations, ← optional s.distance d.real? distance,
    ← optional s.temperature d.real? temperature⟩

def circular? (s : CircularSettings Float) (v : Json) : Option (CircularSettings Float) := do
  let [node] ← d.record? ["node_spacing"] v | none
  return ⟨← optional s.nodeSpacing d.real? node⟩

def planar? (s : PlanarSettings Float) (v : Json) : Option (PlanarSettings Float) := do
  let [node, component, iterations] ←
    d.record? ["node_spacing", "component_spacing", "iterations"] v | none
  return ⟨← optional s.nodeSpacing d.real? node, ← optional s.componentSpacing d.real? component,
    ← optional s.iterations d.count? iterations⟩

def decode? (v : Json) : Option (LayoutSettings Float) := do
  let s : LayoutSettings Float := .standard
  let [margin, algorithm, direction, tree, layered, radial, spring, cooling, circular, planar] ←
    d.record? ["margin", "algorithm", "direction", "tree", "layered", "radial", "spring",
      "fruchterman_reingold", "circular", "planar"] v | none
  return {
    margin := ← optional s.margin d.real? margin
    algorithm := ← optional s.algorithm (d.choice? Algorithm.ofName?) algorithm
    direction := ← optional s.direction (d.choice? Direction.ofName?) direction
    tree := ← optional s.tree (tree? d s.tree) tree
    layered := ← optional s.layered (layered? d s.layered) layered
    radial := ← optional s.radial (radial? d s.radial) radial
    spring := ← optional s.spring (spring? d s.spring) spring
    cooling := ← optional s.cooling (cooling? d s.cooling) cooling
    circular := ← optional s.circular (circular? d s.circular) circular
    planar := ← optional s.planar (planar? d s.planar) planar }

/-- Every setting under the name it is read by. -/
def toJson (s : LayoutSettings Float) : Json :=
  .obj [
    ("margin", .float s.margin),
    ("algorithm", .str s.algorithm.name),
    ("direction", .str s.direction.name),
    ("tree", .obj [("level_distance", .float s.tree.levelDistance),
      ("sibling_distance", .float s.tree.siblingDistance)]),
    ("layered", .obj [("rank_spacing", .float s.layered.rankSpacing),
      ("node_spacing", .float s.layered.nodeSpacing),
      ("ordering_sweeps", .int s.layered.sweeps)]),
    ("radial", .obj [("level_distance", .float s.radial.levelDistance),
      ("node_spacing", .float s.radial.nodeSpacing)]),
    ("spring", .obj [("iterations", .int s.spring.iterations),
      ("spring_length", .float s.spring.length),
      ("spring_constant", .float s.spring.stiffness),
      ("repulsion", .float s.spring.repulsion),
      ("max_step", .float s.spring.maxStep)]),
    ("fruchterman_reingold", .obj [("iterations", .int s.cooling.iterations),
      ("optimal_distance", .float s.cooling.distance),
      ("initial_temperature", .float s.cooling.temperature)]),
    ("circular", .obj [("node_spacing", .float s.circular.nodeSpacing)]),
    ("planar", .obj [("node_spacing", .float s.planar.nodeSpacing),
      ("component_spacing", .float s.planar.componentSpacing),
      ("iterations", .int s.planar.iterations)])]

end LayoutSettings

end GraphScribe
