import GraphScribe.Diagram.OfGraph
import GraphScribe.Placement.Algorithm

/-!
# Laying out a graph

A layout turns the graph into a diagram, lets a placement move the boxes, shifts the drawing so that
it begins at the margin, and takes the new centres over into the graph, with a canvas that leaves
the margin free on every side. The graph is only written after the last check, so a layout that
fails leaves it as it was.
-/
namespace GraphScribe

open Scalar (ofNat)

structure Engine (α : Type) where
  settings : LayoutSettings α
  metrics : Metrics α

namespace Engine

variable {α : Type} [Scalar α]

def firstNonFinite? (d : Diagram α) : Option (Box α) :=
  d.boxes.toList.find? fun b => !b.position.isFinite

def frame (margin : α) (d : Diagram α) : Diagram α × Rect α :=
  match d.bounds? with
  | some b =>
    (d.translate ⟨margin - b.left, margin - b.top⟩,
      (Rect.mk margin margin b.width b.height).pad margin)
  | none => (d, ⟨ofNat 0, ofNat 0, ofNat 2 * margin, ofNat 2 * margin⟩)

def applyPlacement (e : Engine α) (g : Graph α) (p : Placement α) :
    Except LayoutError (Graph α) := do
  let d ← Diagram.ofGraph e.metrics g
  let moved := d.moveTo (p.place d)
  match firstNonFinite? moved with
  | some b => throw (.nonFinitePosition b.id)
  | none =>
    let (placed, canvas) := frame e.settings.margin moved
    return { g.moveTo placed.positions with canvas := canvas }

/-- Lays out with a built-in algorithm, along the direction of the settings where none is given. -/
def applyLayout (e : Engine α) (g : Graph α) (a : Algorithm) (direction : Option Direction) :
    Except LayoutError (Graph α) :=
  e.applyPlacement g (a.placement e.settings (direction.getD e.settings.direction))

def applyDefaultLayout (e : Engine α) (g : Graph α) : Except LayoutError (Graph α) :=
  e.applyLayout g e.settings.algorithm none

def ensureInitialLayout (e : Engine α) (g : Graph α) :
    Except LayoutError (Option (Graph α)) :=
  if g.needsInitialLayout then return some (← e.applyLayout g .circular none) else return none

end Engine

end GraphScribe
