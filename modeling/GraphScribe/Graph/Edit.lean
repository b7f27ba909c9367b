import GraphScribe.Graph.Basic

/-!
# Graphs changed in place

The same operations as steps on one graph, in the order in which an editor writes. A step that fails
leaves the graph as the steps before it have made it.
-/
namespace GraphScribe

abbrev Edit (α ε β : Type) := EStateM ε (Graph α) β

namespace Edit

variable {α ε : Type}

def addNode (n : Node α) : Edit α GraphError Unit := do
  if (← get).containsId n.id then throw (.duplicateId n.id)
  modify fun g => { g with ids := n.id :: g.ids }
  modify fun g => { g with nodes := g.nodes ++ [n] }

def requireNode (edge node : String) : Edit α GraphError Unit := do
  if ((← get).node? node).isNone then throw (.missingEndpoint edge node)

def addEdge (e : Edge) : Edit α GraphError Unit := do
  if (← get).containsId e.id then throw (.duplicateId e.id)
  requireNode e.id e.source
  requireNode e.id e.target
  modify fun g => { g with ids := e.id :: g.ids }
  modify fun g => { g with edges := g.edges ++ [e] }

/-- The edges that do not touch the node; the ids of the others are given up one by one. -/
def retainApart (node : String) : List Edge → Edit α ε (List Edge)
  | [] => return []
  | e :: es => do
    if e.touches node then
      modify fun g => { g with ids := g.ids.erase e.id }
      retainApart node es
    else return e :: (← retainApart node es)

def removeNode (id : String) : Edit α GraphError (Node α) := do
  match (← get).node? id with
  | none => throw (.unknownNode id)
  | some n =>
    modify fun g => { g with nodes := g.nodes.eraseP fun n => n.id == id }
    modify fun g => { g with ids := g.ids.erase n.id }
    let kept ← retainApart n.id (← get).edges
    modify fun g => { g with edges := kept }
    return n

def removeEdge (id : String) : Edit α GraphError Edge := do
  match (← get).edge? id with
  | none => throw (.unknownEdge id)
  | some e =>
    modify fun g => { g with edges := g.edges.eraseP fun e => e.id == id }
    modify fun g => { g with ids := g.ids.erase e.id }
    return e

def setPosition (id : String) (position : Point α) : Edit α GraphError Unit := do
  if ((← get).node? id).isNone then throw (.unknownNode id)
  modify fun g => { g with
    nodes := Graph.modifyFirst (fun n => n.id == id) (fun n => { n with position := position })
      g.nodes }

def setLabel (id label : String) : Edit α GraphError Unit := do
  if ((← get).node? id).isSome then
    modify fun g => { g with
      nodes := Graph.modifyFirst (fun n => n.id == id) (fun n => { n with label := label })
        g.nodes }
  else if ((← get).edge? id).isSome then
    modify fun g => { g with
      edges := Graph.modifyFirst (fun e => e.id == id) (fun e => { e with label := label })
        g.edges }
  else throw (.unknownNode id)

def fill (d : GraphData α) : Edit α GraphError Unit := do
  d.nodes.forM addNode
  d.edges.forM addEdge
  modify fun g => { g with canvas := d.canvas }

variable [Scalar α]

/-- Fills an empty graph apart and only then puts it in the place of the graph. -/
def load (d : GraphData α) : Edit α GraphError Unit :=
  match (fill d).run .empty with
  | .ok _ g => set g
  | .error e _ => throw e

end Edit

end GraphScribe
