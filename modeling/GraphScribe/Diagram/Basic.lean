import GraphScribe.Geometry.Outline

/-!
# Diagrams

A diagram is a graph as a placement sees it: boxes with a size and a position, addressed by index,
and links between them. Each box keeps the ends of its links in ascending order, one entry a link.
-/
namespace GraphScribe

structure Box (α : Type) where
  id : String
  label : String
  size : Size α
  shape : NodeShape
  /-- The centre of the box; until a placement moves it, a hint. -/
  position : Point α
  isRoot : Bool
  outgoing : List Nat
  incoming : List Nat
  deriving DecidableEq, Repr

structure Link where
  source : Nat
  sink : Nat
  label : String
  deriving DecidableEq, Repr

structure Diagram (α : Type) where
  boxes : Array (Box α)
  links : Array Link
  deriving DecidableEq, Repr

def insertSorted (v : Nat) : List Nat → List Nat
  | [] => [v]
  | w :: ws => if v ≤ w then v :: w :: ws else w :: insertSorted v ws

def Box.fresh {α : Type} [Scalar α] (id label : String) (size : Size α) : Box α :=
  ⟨id, label, size, .ellipse, .origin, false, [], []⟩

def Box.bounds {α : Type} [Scalar α] (b : Box α) : Rect α := .ofCenter b.position b.size

namespace Diagram

variable {α : Type}

def empty : Diagram α := ⟨#[], #[]⟩

def count (d : Diagram α) : Nat := d.boxes.size

def isEmpty (d : Diagram α) : Bool := d.boxes.isEmpty

def indices (d : Diagram α) : List Nat := List.range d.count

def addBox (d : Diagram α) (b : Box α) : Diagram α := { d with boxes := d.boxes.push b }

def addLink (d : Diagram α) (l : Link) : Diagram α where
  boxes := (d.boxes.modify l.source fun b => { b with outgoing := insertSorted l.sink b.outgoing }
    ).modify l.sink fun b => { b with incoming := insertSorted l.source b.incoming }
  links := d.links.push l

def successors (d : Diagram α) (v : Nat) : List Nat := (d.boxes[v]?.map (·.outgoing)).getD []

def predecessors (d : Diagram α) (v : Nat) : List Nat := (d.boxes[v]?.map (·.incoming)).getD []

/-- The boxes linked with `v` in either direction, ascending, each once and without `v`. -/
def neighbors (d : Diagram α) (v : Nat) : List Nat :=
  ((d.successors v ++ d.predecessors v).filter (· != v)).foldr
    (fun w ws => if ws.contains w then ws else insertSorted w ws) []

def hasLink (d : Diagram α) (source sink : Nat) : Bool := (d.successors source).contains sink

def isRoot (d : Diagram α) (v : Nat) : Bool := d.boxes[v]?.any (·.isRoot)

/-- Where a hierarchy starts: at the boxes marked as roots; failing these, at the boxes that no
other box links to; failing these, at the first box. -/
def roots (d : Diagram α) : List Nat :=
  match d.indices.filter d.isRoot with
  | r :: rs => r :: rs
  | [] =>
    match d.indices.filter fun v => (d.predecessors v).all (· == v) with
    | r :: rs => r :: rs
    | [] => d.indices.take 1

def positions (d : Diagram α) : List (Point α) := d.boxes.toList.map (·.position)

def setPosition (d : Diagram α) (v : Nat) (p : Point α) : Diagram α :=
  { d with boxes := d.boxes.modify v fun b => { b with position := p } }

/-- Puts the boxes, in order, at the given points; a box for which none is left stays. -/
def moveTo (d : Diagram α) (ps : List (Point α)) : Diagram α :=
  { d with boxes := d.boxes.mapIdx fun i b =>
      match ps[i]? with
      | some p => { b with position := p }
      | none => b }

variable [Scalar α]

def size (d : Diagram α) (v : Nat) : Size α := (d.boxes[v]?.map (·.size)).getD .zero

def position (d : Diagram α) (v : Nat) : Point α := (d.boxes[v]?.map (·.position)).getD .origin

def bounds? (d : Diagram α) : Option (Rect α) :=
  Rect.unionAll? (d.boxes.toList.map Box.bounds)

def translate (d : Diagram α) (offset : Point α) : Diagram α :=
  { d with boxes := d.boxes.map fun b => { b with position := b.position + offset } }

def maxDiagonal (d : Diagram α) : α :=
  Scalar.largest (d.boxes.toList.map fun b => b.size.diagonal)

end Diagram

end GraphScribe
