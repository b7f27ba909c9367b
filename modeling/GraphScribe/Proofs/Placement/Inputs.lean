import GraphScribe.Placement.Algorithm
import GraphScribe.Proofs.Diagram.Views
import GraphScribe.Proofs.Placement.Components
import GraphScribe.Proofs.Placement.Layers

/-! # What placements look at

The placements that draw a spanning forest, the circular and the planar one look at which boxes are
linked, the layered one also at how often they are. Loops count for none of them, and neither do they
for the forces of the force-directed ones, which start from the places of the boxes. -/
namespace GraphScribe

variable {α : Type} [Scalar α] {d e : Diagram α}

theorem Tree.place_congr (settings : TreeSettings α) (direction : Direction) (h : d.SameWays e)
    (hsize : d.size = e.size) : place settings direction d = place settings direction e := by
  have hindices : d.indices = e.indices := congrArg List.range h.count
  unfold place
  simp only [h.forest_eq, hsize, hindices]

theorem Radial.place_congr (settings : RadialSettings α) (h : d.SameWays e)
    (hdiagonal : d.maxDiagonal = e.maxDiagonal) : place settings d = place settings e := by
  have hindices : d.indices = e.indices := congrArg List.range h.count
  unfold place
  simp only [h.forest_eq, hdiagonal, hindices]

theorem Circular.place_congr (settings : CircularSettings α) (hcount : d.count = e.count)
    (hdiagonal : d.maxDiagonal = e.maxDiagonal) : place settings d = place settings e := by
  unfold place
  rw [hcount, hdiagonal]

theorem Planar.place_congr (settings : PlanarSettings α) (h : d.SameWays e)
    (hsize : d.size = e.size) (hdiagonal : d.maxDiagonal = e.maxDiagonal) :
    place settings d = place settings e := by
  have hindices : d.indices = e.indices := congrArg List.range h.count
  have hpitch : gridPitch settings d = gridPitch settings e := by
    unfold gridPitch
    rw [hdiagonal]
  have htable : table settings d = table settings e := by
    unfold table
    rw [hpitch, hindices, h.neighbors_eq, h.count, hsize]
  rw [place_eq, place_eq, htable, hindices]

namespace Layered

theorem score_congr {neighbors neighbors' : Nat → List Nat}
    (h : ∀ v, others v (neighbors v) = others v (neighbors' v)) :
    (score neighbors : (Nat → Nat) → Nat → Nat → α) = score neighbors' := by
  funext place v current
  unfold score
  unfold others at h
  rw [h v]

theorem sortAt_congr {neighbors neighbors' : Nat → List Nat}
    (h : ∀ v, others v (neighbors v) = others v (neighbors' v)) :
    sortAt α neighbors = sortAt α neighbors' := by
  funext ls r
  unfold sortAt sortLayer
  rw [score_congr h]

theorem ordered_congr (settings : LayeredSettings α) (h : d.SameLinks e) :
    ordered settings d = ordered settings e := by
  have hindices : d.indices = e.indices := congrArg List.range h.count
  have hsweep : sweep α d = sweep α e := by
    funext ls
    unfold sweep
    rw [sortAt_congr h.predecessors, sortAt_congr h.successors]
  have hsweeps : ∀ n ls, sweeps d n ls = sweeps e n ls := by
    intro n ls
    induction n generalizing ls with
    | zero => rfl
    | succ n ih => rw [sweeps, sweeps, hsweep, ih]
  unfold ordered
  rw [hsweeps, hindices, h.ranks_eq]

theorem place_congr (settings : LayeredSettings α) (direction : Direction) (h : d.SameLinks e)
    (hsize : d.size = e.size) : place settings direction d = place settings direction e := by
  have hindices : d.indices = e.indices := congrArg List.range h.count
  have hstack : ∀ widest cursor ls, stack settings direction d widest cursor ls =
      stack settings direction e widest cursor ls := by
    intro widest cursor ls
    induction ls generalizing cursor with
    | nil => rfl
    | cons layer ls ih => rw [stack, stack, ih, hsize]
  have htable : table settings direction d = table settings direction e := by
    unfold table
    rw [ordered_congr settings h, hstack, hsize]
  rw [place_eq, place_eq, htable, hindices]

end Layered

namespace Force

theorem seed_congr (hpositions : d.positions = e.positions) (hcount : d.count = e.count)
    (hdiagonal : d.maxDiagonal = e.maxDiagonal) : seed d = seed e := by
  funext spacing
  unfold seed
  rw [hpositions, hcount, hdiagonal]

variable (hpulls : pulls d = pulls e) (hpositions : d.positions = e.positions)
  (hcount : d.count = e.count) (hdiagonal : d.maxDiagonal = e.maxDiagonal)

include hpulls hpositions hcount hdiagonal

theorem placeSprings_congr (settings : SpringSettings α) :
    placeSprings settings d = placeSprings settings e := by
  unfold placeSprings
  rw [hpulls, seed_congr hpositions hcount hdiagonal]

theorem placeCooling_congr (settings : CoolingSettings α) :
    placeCooling settings d = placeCooling settings e := by
  unfold placeCooling
  rw [hpulls, seed_congr hpositions hcount hdiagonal]

end Force

namespace Algorithm

theorem place_of_sameWays {a : Algorithm} (ha : a ∈ [tree, radialTree, circular, planar])
    (settings : LayoutSettings α) (direction : Direction) (h : d.SameWays e)
    (hsize : d.boxes.map Box.size = e.boxes.map Box.size) :
    (a.placement settings direction).place d = (a.placement settings direction).place e := by
  have hsize' := Diagram.size_of_view hsize
  have hdiagonal := Diagram.maxDiagonal_of_view hsize
  cases a with
  | tree => exact Tree.place_congr settings.tree direction h hsize'
  | radialTree => exact Radial.place_congr settings.radial h hdiagonal
  | circular => exact Circular.place_congr settings.circular h.count hdiagonal
  | planar => exact Planar.place_congr settings.planar h hsize' hdiagonal
  | layered => simp at ha
  | spring => simp at ha
  | fruchtermanReingold => simp at ha

theorem place_of_sameLinks (a : Algorithm) (settings : LayoutSettings α) (direction : Direction)
    (h : d.SameLinks e) (hsize : d.boxes.map Box.size = e.boxes.map Box.size)
    (hposition : d.boxes.map Box.position = e.boxes.map Box.position)
    (hpulls : Force.pulls d = Force.pulls e) :
    (a.placement settings direction).place d = (a.placement settings direction).place e := by
  have hpositions := Diagram.positions_of_view hposition
  have hdiagonal := Diagram.maxDiagonal_of_view hsize
  cases a with
  | layered =>
    exact Layered.place_congr settings.layered direction h (Diagram.size_of_view hsize)
  | spring => exact Force.placeSprings_congr hpulls hpositions h.count hdiagonal settings.spring
  | fruchtermanReingold =>
    exact Force.placeCooling_congr hpulls hpositions h.count hdiagonal settings.cooling
  | tree => exact place_of_sameWays (by simp) settings direction h.sameWays hsize
  | radialTree => exact place_of_sameWays (by simp) settings direction h.sameWays hsize
  | circular => exact place_of_sameWays (by simp) settings direction h.sameWays hsize
  | planar => exact place_of_sameWays (by simp) settings direction h.sameWays hsize

end Algorithm

end GraphScribe
