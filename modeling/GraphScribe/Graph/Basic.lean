import GraphScribe.Geometry.Outline

/-!
# Graphs

The graph that an editor holds: labelled and placed nodes, edges between them, and the canvas of the
drawing. Ids are unique over nodes and edges together, and every edge joins nodes of the graph. Each
operation refuses what would break this, and then changes nothing.
-/
namespace GraphScribe

structure Node (α : Type) where
  id : String
  label : String
  position : Point α
  isRoot : Bool
  shape : NodeShape
  deriving DecidableEq, Repr

structure Edge where
  id : String
  source : String
  target : String
  label : String
  deriving DecidableEq, Repr

def Edge.isLoop (e : Edge) : Bool := e.source == e.target

def Edge.touches (e : Edge) (node : String) : Bool := e.source == node || e.target == node

def Node.same {α : Type} [Scalar α] (m n : Node α) : Bool :=
  m.id == n.id && m.label == n.label && m.position.same n.position && m.isRoot == n.isRoot &&
    m.shape = n.shape

inductive GraphError where
  | duplicateId (id : String)
  | missingEndpoint (edge node : String)
  | unknownNode (id : String)
  | unknownEdge (id : String)
  deriving DecidableEq, Repr

def GraphError.message : GraphError → String
  | duplicateId id => "Duplicate id " ++ id
  | missingEndpoint edge node => "Edge " ++ edge ++ " refers to missing node " ++ node
  | unknownNode id => "Unknown node " ++ id
  | unknownEdge id => "Unknown edge " ++ id

structure GraphData (α : Type) where
  nodes : List (Node α)
  edges : List Edge
  canvas : Rect α
  deriving DecidableEq, Repr

structure Graph (α : Type) where
  nodes : List (Node α)
  edges : List Edge
  canvas : Rect α
  /-- The ids in use, so that a new one is checked without a walk through nodes and edges. -/
  ids : List String
  deriving DecidableEq, Repr

namespace Graph

variable {α : Type}

def node? (g : Graph α) (id : String) : Option (Node α) := g.nodes.find? fun n => n.id == id

def edge? (g : Graph α) (id : String) : Option Edge := g.edges.find? fun e => e.id == id

def isEmpty (g : Graph α) : Bool := g.nodes.isEmpty

def containsId (g : Graph α) (id : String) : Bool := g.ids.contains id

def addNode (g : Graph α) (n : Node α) : Except GraphError (Graph α) :=
  if g.containsId n.id then .error (.duplicateId n.id)
  else .ok { g with nodes := g.nodes ++ [n], ids := n.id :: g.ids }

def missingEnd? (g : Graph α) (e : Edge) : Option String :=
  [e.source, e.target].find? fun id => (g.node? id).isNone

def addEdge (g : Graph α) (e : Edge) : Except GraphError (Graph α) :=
  if g.containsId e.id then .error (.duplicateId e.id)
  else
    match g.missingEnd? e with
    | some node => .error (.missingEndpoint e.id node)
    | none => .ok { g with edges := g.edges ++ [e], ids := e.id :: g.ids }

def removeNode (g : Graph α) (id : String) : Except GraphError (Node α × Graph α) :=
  match g.node? id with
  | none => .error (.unknownNode id)
  | some n =>
    let gone := (g.edges.filter (·.touches id)).map (·.id)
    .ok (n, { g with
      nodes := g.nodes.eraseP fun n => n.id == id
      edges := g.edges.filter fun e => !e.touches id
      ids := gone.foldl List.erase (g.ids.erase id) })

def removeEdge (g : Graph α) (id : String) : Except GraphError (Edge × Graph α) :=
  match g.edge? id with
  | none => .error (.unknownEdge id)
  | some e =>
    .ok (e, { g with edges := g.edges.eraseP fun e => e.id == id, ids := g.ids.erase id })

def modifyFirst {β : Type} (p : β → Bool) (f : β → β) : List β → List β
  | [] => []
  | b :: bs => if p b then f b :: bs else b :: modifyFirst p f bs

def setPosition (g : Graph α) (id : String) (position : Point α) :
    Except GraphError (Graph α) :=
  if (g.node? id).isNone then .error (.unknownNode id)
  else .ok { g with
    nodes := modifyFirst (fun n => n.id == id) (fun n => { n with position := position }) g.nodes }

/-- Labels the node or, where there is none, the edge with this id. -/
def setLabel (g : Graph α) (id label : String) : Except GraphError (Graph α) :=
  if (g.node? id).isSome then
    .ok { g with
      nodes := modifyFirst (fun n => n.id == id) (fun n => { n with label := label }) g.nodes }
  else if (g.edge? id).isSome then
    .ok { g with
      edges := modifyFirst (fun e => e.id == id) (fun e => { e with label := label }) g.edges }
  else .error (.unknownNode id)

def toData (g : Graph α) : GraphData α := ⟨g.nodes, g.edges, g.canvas⟩

variable [Scalar α]

def empty : Graph α := ⟨[], [], .zero, []⟩

/-- Checks the contents of a graph: the nodes in order, then the edges. -/
def ofData (d : GraphData α) : Except GraphError (Graph α) := do
  let g ← d.nodes.foldlM addNode empty
  let g ← d.edges.foldlM addEdge g
  return { g with canvas := d.canvas }

/-- There are nodes, and none of them has been placed yet. -/
def needsInitialLayout (g : Graph α) : Bool :=
  !g.nodes.isEmpty && g.nodes.all fun n => n.position.isOrigin

def moveTo (g : Graph α) (positions : List (Point α)) : Graph α :=
  { g with nodes := go g.nodes positions }
where
  go : List (Node α) → List (Point α) → List (Node α)
    | n :: ns, p :: ps => { n with position := p } :: go ns ps
    | ns, _ => ns

def same (g h : Graph α) : Bool :=
  g.nodes.length == h.nodes.length && (g.nodes.zip h.nodes).all (fun p => p.1.same p.2) &&
    g.edges == h.edges && g.canvas.same h.canvas &&
    g.ids.all h.ids.contains && h.ids.all g.ids.contains

end Graph

end GraphScribe
