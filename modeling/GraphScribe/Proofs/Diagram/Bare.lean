import GraphScribe.Proofs.Diagram.Views

/-! # Bare diagrams

A diagram without what a layout is about to write or never looks at: the places of the boxes and the
list of links with their labels. What is read off the sizes, the flags and the neighbours of the
boxes is the same in the bare diagram. -/
namespace GraphScribe

variable {α : Type} [Scalar α]

def Box.unplaced (b : Box α) : Box α := { b with position := .origin }

namespace Diagram

def bare (d : Diagram α) : Diagram α := ⟨d.boxes.map Box.unplaced, #[]⟩

variable (d : Diagram α)

/-- A view of the boxes that leaves out their places. -/
theorem view_bare {β : Type} {view : Box α → β} (h : ∀ b, view b.unplaced = view b) :
    d.bare.boxes.map view = d.boxes.map view := by
  unfold bare
  rw [Array.map_map]
  exact congrArg (fun f => d.boxes.map f) (funext h)

theorem count_bare : d.bare.count = d.count := Array.size_map

theorem size_bare : d.bare.size = d.size := size_of_view (d.view_bare fun _ => rfl)

theorem maxDiagonal_bare : d.bare.maxDiagonal = d.maxDiagonal :=
  maxDiagonal_of_view (d.view_bare fun _ => rfl)

theorem sameLinks_bare : d.bare.SameLinks d :=
  sameLinks_of_views (d.view_bare fun _ => rfl) (d.view_bare fun _ => rfl)
    (d.view_bare fun _ => rfl)

end Diagram

end GraphScribe
