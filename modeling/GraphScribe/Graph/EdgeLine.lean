import GraphScribe.Graph.Basic
import GraphScribe.Graph.Label

/-!
# Edge lines

The drawn line of an edge runs from where it leaves the outline of its source to where it enters
that of its target. A loop has no such line; it is anchored at the top of its node.
-/
namespace GraphScribe

open Scalar (ofNat)

structure Segment (α : Type) where
  start : Point α
  stop : Point α
  deriving DecidableEq, Repr

variable {α : Type} [Scalar α]

def Segment.length (s : Segment α) : α := s.start.distance s.stop

namespace Graph

def endpoint (g : Graph α) (edge node : String) : Except GraphError (Node α) :=
  match g.node? node with
  | some n => .ok n
  | none => .error (.missingEndpoint edge node)

/-- Where the line from the node towards a point leaves its outline. -/
def exitPoint (m : Metrics α) (n : Node α) (toward : Point α) : Point α :=
  boundaryPoint n.shape n.position (m.nodeSize n.label n.shape) toward

def edgeLine (g : Graph α) (m : Metrics α) (id : String) : Except GraphError (Segment α) :=
  match g.edge? id with
  | none => .error (.unknownEdge id)
  | some e => do
    let source ← g.endpoint e.id e.source
    let target ← g.endpoint e.id e.target
    if e.isLoop then
      let anchor := exitPoint m source (source.position - ⟨ofNat 0, ofNat 1⟩)
      return ⟨anchor, anchor⟩
    else return ⟨exitPoint m source target.position, exitPoint m target source.position⟩

end Graph

end GraphScribe
