import GraphScribe.Graph.Basic
import GraphScribe.Json.Decode
import GraphScribe.Scalar.Double

/-!
# Graphs as JSON

A graph that is read is checked like one that is built step by step.
-/
namespace GraphScribe

open Json (Decoder optional required)

variable (d : Decoder)

def Point.decode? (v : Json) : Option (Point Float) := do
  let [x, y] ← d.record? ["x", "y"] v | none
  return ⟨← required d.real? x, ← required d.real? y⟩

def Rect.decode? (v : Json) : Option (Rect Float) := do
  let [x, y, width, height] ← d.record? ["x", "y", "width", "height"] v | none
  return ⟨← required d.real? x, ← required d.real? y, ← required d.real? width,
    ← required d.real? height⟩

def Node.decode? (v : Json) : Option (Node Float) := do
  let [id, label, position, root, shape] ←
    d.record? ["id", "label", "position", "root", "shape"] v | none
  return {
    id := ← required d.text? id
    label := ← optional "" d.text? label
    position := ← optional .origin (Point.decode? d) position
    isRoot := ← optional false d.bool? root
    shape := ← optional .ellipse (d.choice? NodeShape.ofName?) shape }

def Edge.decode? (v : Json) : Option Edge := do
  let [id, source, target, label] ← d.record? ["id", "from", "to", "label"] v | none
  return {
    id := ← required d.text? id
    source := ← required d.text? source
    target := ← required d.text? target
    label := ← optional "" d.text? label }

def GraphData.decode? (v : Json) : Option (GraphData Float) := do
  let [nodes, edges, canvas] ← d.record? ["nodes", "edges", "canvas"] v | none
  return {
    nodes := ← optional [] (Json.list? (Node.decode? d)) nodes
    edges := ← optional [] (Json.list? (Edge.decode? d)) edges
    canvas := ← optional .zero (Rect.decode? d) canvas }

def Point.toJson (p : Point Float) : Json := .obj [("x", .float p.x), ("y", .float p.y)]

def Rect.toJson (r : Rect Float) : Json :=
  .obj [("x", .float r.x), ("y", .float r.y), ("width", .float r.width),
    ("height", .float r.height)]

def Node.toJson (n : Node Float) : Json :=
  .obj [("id", .str n.id), ("label", .str n.label), ("position", n.position.toJson),
    ("root", .bool n.isRoot), ("shape", .str n.shape.name)]

def Edge.toJson (e : Edge) : Json :=
  .obj [("id", .str e.id), ("from", .str e.source), ("to", .str e.target),
    ("label", .str e.label)]

def Graph.toJson (g : Graph Float) : Json :=
  .obj [("nodes", .arr (g.nodes.map Node.toJson)), ("edges", .arr (g.edges.map Edge.toJson)),
    ("canvas", g.canvas.toJson)]

end GraphScribe
