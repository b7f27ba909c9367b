import GraphScribe.Diagram.Basic
import GraphScribe.Graph.Basic
import GraphScribe.Graph.Label

/-!
# From a graph to its diagram

Node `i` of the graph becomes box `i`, edge `j` becomes link `j`.
-/
namespace GraphScribe

inductive LayoutError where
  | missingNode (edge node : String)
  | nonFinitePosition (node : String)
  deriving DecidableEq, Repr

def LayoutError.message : LayoutError → String
  | missingNode edge node => "Edge " ++ edge ++ " refers to missing node " ++ node
  | nonFinitePosition node => "Layout produced a non-finite position for node " ++ node

namespace Diagram

variable {α : Type} [Scalar α]

def boxOf (m : Metrics α) (n : Node α) : Box α :=
  { Box.fresh n.id n.label (m.nodeSize n.label n.shape) with
    shape := n.shape, position := n.position, isRoot := n.isRoot }

def indexOf (g : Graph α) (edge id : String) : Except LayoutError Nat :=
  match g.nodes.findIdx? fun n => n.id == id with
  | some i => .ok i
  | none => .error (.missingNode edge id)

def linkOf (g : Graph α) (e : Edge) : Except LayoutError Link := do
  let source ← indexOf g e.id e.source
  let sink ← indexOf g e.id e.target
  return ⟨source, sink, e.label⟩

def ofGraph (m : Metrics α) (g : Graph α) : Except LayoutError (Diagram α) := do
  let links ← g.edges.mapM (linkOf g)
  return links.foldl addLink ⟨(g.nodes.map (boxOf m)).toArray, #[]⟩

end Diagram

end GraphScribe
