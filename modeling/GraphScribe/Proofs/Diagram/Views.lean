import GraphScribe.Proofs.Diagram.SameLinks

/-! # Views of boxes

What a diagram tells about its boxes is read off one view of each of them: its size, its place, its
flag, its links. Diagrams that agree in a view agree in what is read off it. -/
namespace GraphScribe.Diagram

variable {α β : Type} {d e : Diagram α}

theorem count_of_view {view : Box α → β} (h : d.boxes.map view = e.boxes.map view) :
    d.count = e.count := by
  have hsize := congrArg Array.size h
  rwa [Array.size_map, Array.size_map] at hsize

theorem getElem?_of_view {view : Box α → β} (h : d.boxes.map view = e.boxes.map view) (v : Nat) :
    d.boxes[v]?.map view = e.boxes[v]?.map view := by
  rw [← Array.getElem?_map, h, Array.getElem?_map]

theorem toList_of_view {view : Box α → β} (h : d.boxes.map view = e.boxes.map view) :
    d.boxes.toList.map view = e.boxes.toList.map view := by
  rw [← Array.toList_map, h, Array.toList_map]

theorem isRoot_of_view (h : d.boxes.map Box.isRoot = e.boxes.map Box.isRoot) :
    d.isRoot = e.isRoot := by
  funext v
  have hflag := congrArg (Option.any id) (getElem?_of_view h v)
  rwa [Option.any_map, Option.any_map] at hflag

theorem positions_of_view (h : d.boxes.map Box.position = e.boxes.map Box.position) :
    d.positions = e.positions := toList_of_view h

theorem sameLinks_of_views (hroot : d.boxes.map Box.isRoot = e.boxes.map Box.isRoot)
    (hout : d.boxes.map Box.outgoing = e.boxes.map Box.outgoing)
    (hin : d.boxes.map Box.incoming = e.boxes.map Box.incoming) : d.SameLinks e where
  count := count_of_view hroot
  isRoot := isRoot_of_view hroot
  successors v := by rw [successors_eq, hout, ← successors_eq]
  predecessors v := by rw [predecessors_eq, hin, ← predecessors_eq]

variable [Scalar α]

theorem size_of_view (h : d.boxes.map Box.size = e.boxes.map Box.size) : d.size = e.size := by
  funext v
  exact congrArg (·.getD .zero) (getElem?_of_view h v)

theorem maxDiagonal_of_view (h : d.boxes.map Box.size = e.boxes.map Box.size) :
    d.maxDiagonal = e.maxDiagonal := by
  have hdiagonals := congrArg (List.map Size.diagonal) (toList_of_view h)
  rw [List.map_map, List.map_map] at hdiagonals
  exact congrArg Scalar.largest hdiagonals

end GraphScribe.Diagram
