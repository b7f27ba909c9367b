import GraphScribe.Graph.Edit
import GraphScribe.Placement.Engine

/-!
# Sessions

A session is any sequence of operations on one graph: edits, layouts, and loading another graph. An
operation that fails is reported, and the session goes on with the graph as that operation has left
it.
-/
namespace GraphScribe

variable {α : Type} [Scalar α]

namespace Edit

def applyPlacement (e : Engine α) (p : Placement α) : Edit α LayoutError Unit := do
  let d ← ofExcept (Diagram.ofGraph e.metrics (← get))
  let moved := d.moveTo (p.place d)
  if let some b := Engine.firstNonFinite? moved then throw (.nonFinitePosition b.id)
  let (placed, canvas) := Engine.frame e.settings.margin moved
  modify fun g => g.moveTo placed.positions
  modify fun g => { g with canvas := canvas }

def applyLayout (e : Engine α) (a : Algorithm) (direction : Option Direction) :
    Edit α LayoutError Unit :=
  applyPlacement e (a.placement e.settings (direction.getD e.settings.direction))

def applyDefaultLayout (e : Engine α) : Edit α LayoutError Unit :=
  applyLayout e e.settings.algorithm none

/-- Whether a layout was run. -/
def ensureInitialLayout (e : Engine α) : Edit α LayoutError Bool := do
  if (← get).needsInitialLayout then
    applyLayout e .circular none
    return true
  else return false

end Edit

inductive Operation (α : Type) where
  | addNode (n : Node α)
  | addEdge (e : Edge)
  | removeNode (id : String)
  | removeEdge (id : String)
  | setPosition (id : String) (position : Point α)
  | setLabel (id label : String)
  | load (d : GraphData α)
  | applyPlacement (e : Engine α) (p : Placement α)
  | applyLayout (e : Engine α) (a : Algorithm) (direction : Option Direction)
  | applyDefaultLayout (e : Engine α)
  | ensureInitialLayout (e : Engine α)

inductive OperationError where
  | graph (e : GraphError)
  | layout (e : LayoutError)
  deriving DecidableEq, Repr

namespace Operation

def run : Operation α → Edit α OperationError Unit
  | addNode n => (Edit.addNode n).adaptExcept .graph
  | addEdge e => (Edit.addEdge e).adaptExcept .graph
  | removeNode id => (discard (Edit.removeNode id)).adaptExcept .graph
  | removeEdge id => (discard (Edit.removeEdge id)).adaptExcept .graph
  | setPosition id position => (Edit.setPosition id position).adaptExcept .graph
  | setLabel id label => (Edit.setLabel id label).adaptExcept .graph
  | load d => (Edit.load d).adaptExcept .graph
  | applyPlacement e p => (Edit.applyPlacement e p).adaptExcept .layout
  | applyLayout e a direction => (Edit.applyLayout e a direction).adaptExcept .layout
  | applyDefaultLayout e => (Edit.applyDefaultLayout e).adaptExcept .layout
  | ensureInitialLayout e => (discard (Edit.ensureInitialLayout e)).adaptExcept .layout

/-- The graph that the operation leaves, whether or not it fails. -/
def leave (op : Operation α) (g : Graph α) : Graph α :=
  match op.run.run g with
  | .ok _ h => h
  | .error _ h => h

def session (ops : List (Operation α)) (g : Graph α) : Graph α := ops.foldl (fun g op => op.leave g) g

end Operation

end GraphScribe
