import GraphScribe.Diagram.Basic

/-!
# Placements

A placement gives every box of a diagram a new centre. It may look at anything in the diagram but
changes nothing else; where the drawing lies on the canvas is not its business.
-/
namespace GraphScribe

structure Placement (α : Type) where
  name : String
  /-- The centres of the boxes in order; a box for which there is none stays where it is. -/
  place : Diagram α → List (Point α)

def Placement.fixed {α : Type} (positions : List (Point α)) : Placement α :=
  ⟨"fixed", fun _ => positions⟩

end GraphScribe
