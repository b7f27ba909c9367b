import GraphScribe.Proofs.Diagram.Bare
import GraphScribe.Proofs.Placement.Inputs
import GraphScribe.Proofs.Placement.Outcome

/-! # Layouts that start afresh

Five of the placements give every box a centre and look at nothing that a layout writes. What such
a layout makes of a graph therefore does not depend on where its nodes lie, on its canvas or on the
labels of its edges; and once it has been applied, applying it again changes nothing. -/
namespace GraphScribe

variable {α : Type} [Scalar α]

/-- The placement looks at bare diagrams only and gives every box a centre. -/
structure Placement.Afresh (p : Placement α) : Prop where
  place_bare : ∀ d, p.place d.bare = p.place d
  place_length : ∀ d, (p.place d).length = d.count

theorem Circular.place_length (settings : CircularSettings α) (d : Diagram α) :
    (place settings d).length = d.count := by
  unfold place
  split
  · rename_i hone
    exact hone.symm
  · simp [circlePoints]

theorem Algorithm.afresh {a : Algorithm} (ha : a ∈ [tree, layered, radialTree, circular, planar])
    (settings : LayoutSettings α) (direction : Direction) :
    (a.placement settings direction).Afresh := by
  have hlinks := fun d : Diagram α => d.sameLinks_bare
  cases a with
  | tree =>
    exact ⟨fun d => Tree.place_congr _ _ (hlinks d).sameWays d.size_bare,
      fun d => by simp [placement, Tree.place, Diagram.indices]⟩
  | layered =>
    exact ⟨fun d => Layered.place_congr _ _ (hlinks d) d.size_bare,
      fun d => by simp [placement, Layered.place, Diagram.indices]⟩
  | radialTree =>
    exact ⟨fun d => Radial.place_congr _ (hlinks d).sameWays d.maxDiagonal_bare,
      fun d => by simp [placement, Radial.place, Diagram.indices]⟩
  | circular =>
    exact ⟨fun d => Circular.place_congr _ d.count_bare d.maxDiagonal_bare,
      Circular.place_length _⟩
  | planar =>
    exact ⟨fun d => Planar.place_congr _ (hlinks d).sameWays d.size_bare d.maxDiagonal_bare,
      fun d => by simp [placement, Planar.place, Diagram.indices]⟩
  | spring => simp at ha
  | fruchtermanReingold => simp at ha

theorem Placement.Afresh.boxes_moveTo {p : Placement α} (hp : p.Afresh) {d d' : Diagram α}
    (hbare : d.bare = d'.bare) :
    (d.moveTo (p.place d)).boxes = (d'.moveTo (p.place d')).boxes := by
  have hown : ∀ c : Diagram α,
      (c.moveTo (p.place c)).boxes = (c.bare.moveTo (p.place c.bare)).boxes := by
    intro c
    apply Array.ext_getElem?
    intro i
    rw [Diagram.getElem?_moveTo, Diagram.getElem?_moveTo, hp.place_bare, Diagram.bare,
      Array.getElem?_map]
    by_cases hi : i < c.boxes.size
    · have hcenter : i < (p.place c).length := by rwa [hp.place_length]
      simp [hi, hcenter, Box.unplaced]
    · simp [hi]
  rw [hown d, hown d', hbare]

def Edge.ends (e : Edge) : String × String := (e.source, e.target)

/-- The graphs have the same nodes in the same order, wherever they lie, and as many edges between
any two of them. -/
structure Graph.Alike (g h : Graph α) : Prop where
  nodes : g.nodes.map Node.unplaced = h.nodes.map Node.unplaced
  ends : (g.edges.map Edge.ends).Perm (h.edges.map Edge.ends)

theorem Graph.Alike.nodeIds {g h : Graph α} (hgh : g.Alike h) : g.nodeIds = h.nodeIds := by
  have hids := congrArg (List.map (·.id)) hgh.nodes
  rwa [List.map_map, List.map_map] at hids

theorem Diagram.bare_ofWellFormed (m : Metrics α) (g : Graph α) :
    (ofWellFormed m g).bare =
      ⟨(g.edges.map g.place).foldl joinBoxes
        ((g.nodes.map Node.unplaced).map (boxOf m)).toArray, #[]⟩ := by
  unfold bare
  rw [ofWellFormed_boxes, map_foldl_joinBoxes (fun _ _ => rfl) (fun _ _ => rfl), List.map_map,
    List.map_toArray, List.map_map]
  rfl

theorem Graph.Alike.bare_eq {g h : Graph α} (hgh : g.Alike h) (m : Metrics α) :
    (Diagram.ofWellFormed m g).bare = (Diagram.ofWellFormed m h).bare := by
  let at' (ids : List String) (ends : String × String) : Nat × Nat :=
    (ids.idxOf ends.1, ids.idxOf ends.2)
  have hplace : ∀ k : Graph α, k.edges.map k.place = (k.edges.map Edge.ends).map (at' k.nodeIds) :=
    fun k => by rw [List.map_map]; rfl
  have hperm := hgh.ends.map (at' g.nodeIds)
  rw [Diagram.bare_ofWellFormed, Diagram.bare_ofWellFormed, hplace g, hplace h, hgh.nodes,
    hperm.foldl_eq, hgh.nodeIds]

namespace Engine

def drawing (margin : α) (moved : Diagram α) : Except LayoutError (List (Point α) × Rect α) :=
  match firstNonFinite? moved with
  | some b => .error (.nonFinitePosition b.id)
  | none => .ok ((frame margin moved).1.positions, (frame margin moved).2)

theorem drawing_congr {d d' : Diagram α} (h : d.boxes = d'.boxes) (margin : α) :
    drawing margin d = drawing margin d' := by
  obtain ⟨bs, ls⟩ := d
  obtain ⟨bs', ls'⟩ := d'
  subst h
  have hbounds : (Diagram.mk bs ls).bounds? = (Diagram.mk bs ls').bounds? := rfl
  have hfirst : firstNonFinite? (Diagram.mk bs ls) = firstNonFinite? (Diagram.mk bs ls') := rfl
  unfold drawing frame
  rw [hfirst, hbounds]
  cases (Diagram.mk bs ls').bounds? <;> rfl

theorem outcome_run {g : Graph α} (hg : g.WellFormed) (e : Engine α) (p : Placement α) :
    outcome ((Edit.applyPlacement e p).run g) = drawing e.settings.margin (moved e p g) := by
  rw [run_eq hg]
  unfold drawing
  cases firstNonFinite? (moved e p g) with
  | some b => rfl
  | none =>
    have hlength : (frame e.settings.margin (moved e p g)).1.positions.length = g.nodes.length := by
      rw [positions_frame, List.length_map, Diagram.positions_length, count_moved]
    simp only [outcome, Graph.moveTo, Graph.positions_moveTo_go _ _ hlength]

theorem outcome_of_alike {g h : Graph α} (hg : g.WellFormed) (hh : h.WellFormed)
    (hgh : g.Alike h) (e : Engine α) {p : Placement α} (hp : p.Afresh) :
    outcome ((Edit.applyPlacement e p).run g) = outcome ((Edit.applyPlacement e p).run h) := by
  rw [outcome_run hg, outcome_run hh]
  exact drawing_congr (hp.boxes_moveTo (hgh.bare_eq e.metrics)) _

theorem alike_of_run {g k : Graph α} (hg : g.WellFormed) {e : Engine α} {p : Placement α}
    (hrun : (Edit.applyPlacement e p).run g = .ok () k) : g.Alike k := by
  rw [run_eq hg] at hrun
  split at hrun
  · cases hrun
  · cases hrun
    exact ⟨(Graph.unplaced_moveTo_go _ _).symm, .refl _⟩

/-- A layout that comes to the places and the canvas that the graph has leaves it as it is. -/
theorem run_of_outcome {k : Graph α} (hk : k.WellFormed) {e : Engine α} {p : Placement α}
    (h : outcome ((Edit.applyPlacement e p).run k) =
      .ok (k.nodes.map (·.position), k.canvas)) :
    (Edit.applyPlacement e p).run k = .ok () k := by
  rw [outcome_run hk] at h
  unfold drawing at h
  rw [run_eq hk]
  cases hfirst : firstNonFinite? (moved e p k) with
  | some b =>
    rw [hfirst] at h
    cases h
  | none =>
    rw [hfirst] at h
    obtain ⟨hpositions, hcanvas⟩ := Prod.mk.inj (Except.ok.inj h)
    simp only [hpositions, hcanvas, Graph.moveTo, Graph.moveTo_go_self]

end Engine

/-- The layouts that start afresh come to the same places and the same canvas, or the same error, on
graphs that are alike; and a second run of such a layout leaves the graph as it is. -/
theorem Operation.layout_independent (ops ops' : List (Operation α)) (e : Engine α) {a : Algorithm}
    (ha : a ∈ [.tree, .layered, .radialTree, .circular, .planar]) (direction : Option Direction)
    (halike : (session ops .empty).Alike (session ops' .empty)) :
    Engine.outcome ((Edit.applyLayout e a direction).run (session ops .empty)) =
        Engine.outcome ((Edit.applyLayout e a direction).run (session ops' .empty)) ∧
      ∀ k, (Edit.applyLayout e a direction).run (session ops .empty) = .ok () k →
        (Edit.applyLayout e a direction).run k = .ok () k := by
  have hp := Algorithm.afresh ha e.settings (direction.getD e.settings.direction)
  have hg := session_wellFormed ops (Graph.wellFormed_empty (α := α))
  have hh := session_wellFormed ops' (Graph.wellFormed_empty (α := α))
  generalize session ops .empty = g at hg halike
  generalize session ops' .empty = h at hh halike
  refine ⟨Engine.outcome_of_alike hg hh halike e hp, fun k hrun => ?_⟩
  have hk : k.WellFormed := (Edit.applyLayout_sound e a direction).kept hg hrun
  have hsame := Engine.outcome_of_alike hg hk (Engine.alike_of_run hg hrun) e hp
  apply Engine.run_of_outcome hk
  rw [← hsame]
  exact congrArg Engine.outcome hrun

namespace Operation

def placedPair : List (Operation Float) :=
  [.addNode ⟨"a", "", ⟨3, 4⟩, true, .rectangle⟩, .addNode ⟨"b", "", .origin, false, .rectangle⟩,
    .addEdge ⟨"ab", "a", "b", "down"⟩]

def loadedPair : List (Operation Float) :=
  [.load ⟨[⟨"a", "", .origin, true, .rectangle⟩, ⟨"b", "", ⟨1, 2⟩, false, .rectangle⟩],
    [⟨"ab", "a", "b", ""⟩], ⟨0, 0, 7, 7⟩⟩]

/-- The tree of the loaded pair is that of the placed one, and a second layout does not move it. -/
theorem layout_independent_pair :
    (session placedPair .empty).Alike (session loadedPair .empty) ∧
      Engine.outcome ((Edit.applyLayout ⟨.standard, .standard⟩ .tree none).run
        (session loadedPair .empty)) = .ok ([⟨32, 32⟩, ⟨32, 116⟩], ⟨0, 0, 64, 148⟩) ∧
      ∃ k, (Edit.applyLayout ⟨.standard, .standard⟩ .tree none).run (session placedPair .empty) =
          .ok () k ∧
        (Edit.applyLayout ⟨.standard, .standard⟩ .tree none).run k = .ok () k := by
  have halike : (session placedPair .empty).Alike (session loadedPair .empty) := ⟨rfl, .refl _⟩
  have hone : Engine.outcome ((Edit.applyLayout ⟨.standard, .standard⟩ .tree none).run
      (session placedPair .empty)) = .ok ([⟨32, 32⟩, ⟨32, 116⟩], ⟨0, 0, 64, 148⟩) := by
    decide +kernel
  obtain ⟨hboth, hagain⟩ := layout_independent placedPair loadedPair ⟨.standard, .standard⟩
    (a := .tree) (by decide) none halike
  obtain ⟨k, hrun⟩ := Engine.run_of_outcome_ok hone
  exact ⟨halike, hboth.symm.trans hone, k, hrun, hagain k hrun⟩

end Operation

end GraphScribe
