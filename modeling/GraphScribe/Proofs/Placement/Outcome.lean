import GraphScribe.Proofs.Diagram.OfGraph
import GraphScribe.Proofs.Placement.Session

/-! # How a layout ends

A layout is all or nothing. Either every box has been given a finite centre, and then every node
moves to the shifted centre of its box and nothing else about it changes; or the first node with
another centre is reported and the graph stays as it is. -/
namespace GraphScribe

variable {α : Type}

def Node.unplaced [Scalar α] (n : Node α) : Node α := { n with position := .origin }

/-- What is seen of a layout that has run: the centres and the canvas, or the error. -/
def Engine.outcome : EStateM.Result LayoutError (Graph α) Unit →
    Except LayoutError (List (Point α) × Rect α)
  | .ok _ h => .ok (h.nodes.map (·.position), h.canvas)
  | .error f _ => .error f

theorem Engine.run_of_outcome_ok {r : EStateM.Result LayoutError (Graph α) Unit}
    {x : List (Point α) × Rect α} (h : outcome r = .ok x) : ∃ k, r = .ok () k := by
  cases r with
  | ok _ k => exact ⟨k, rfl⟩
  | error _ _ => cases h

namespace Graph

theorem unplaced_moveTo_go [Scalar α] (ns : List (Node α)) (ps : List (Point α)) :
    (moveTo.go ns ps).map Node.unplaced = ns.map Node.unplaced := by
  induction ns generalizing ps with
  | nil => cases ps <;> rfl
  | cons n ns ih =>
    cases ps with
    | nil => rfl
    | cons p ps => exact congrArg (n.unplaced :: ·) (ih ps)

theorem positions_moveTo_go (ns : List (Node α)) (ps : List (Point α))
    (h : ps.length = ns.length) : (moveTo.go ns ps).map (·.position) = ps := by
  induction ns generalizing ps with
  | nil =>
    rw [List.length_eq_zero_iff.mp h]
    rfl
  | cons n ns ih =>
    cases ps with
    | nil => cases h
    | cons p ps => exact congrArg (p :: ·) (ih ps (Nat.succ.inj h))

theorem moveTo_go_self (ns : List (Node α)) :
    moveTo.go ns (ns.map (·.position)) = ns := by
  induction ns with
  | nil => rfl
  | cons n ns ih => exact congrArg (n :: ·) ih

end Graph

namespace Diagram

theorem getElem?_moveTo (d : Diagram α) (ps : List (Point α)) (i : Nat) :
    (d.moveTo ps).boxes[i]? =
      d.boxes[i]?.map fun b => { b with position := ps[i]?.getD b.position } := by
  unfold moveTo
  rw [Array.getElem?_mapIdx]
  congr
  funext b
  cases ps[i]? <;> rfl

theorem map_moveTo {β : Type} {view : Box α → β}
    (h : ∀ b p, view { b with position := p } = view b) (d : Diagram α) (ps : List (Point α)) :
    (d.moveTo ps).boxes.toList.map view = d.boxes.toList.map view := by
  apply List.ext_getElem?
  intro i
  simp [getElem?_moveTo, Function.comp_def, h]

theorem positions_length (d : Diagram α) : d.positions.length = d.count := by
  simp [positions, count]

variable [Scalar α]

theorem positions_translate (d : Diagram α) (offset : Point α) :
    (d.translate offset).positions = d.positions.map (· + offset) := by
  simp [positions, translate]

end Diagram

variable [Scalar α]

theorem Diagram.positions_of_no_bounds {d : Diagram α} (h : d.bounds? = none) : d.positions = [] := by
  unfold Diagram.bounds? at h
  cases hboxes : d.boxes.toList with
  | nil =>
    rw [Diagram.positions, hboxes]
    rfl
  | cons b bs =>
    rw [hboxes] at h
    cases h

namespace Engine

def moved (e : Engine α) (p : Placement α) (g : Graph α) : Diagram α :=
  let d := Diagram.ofWellFormed e.metrics g
  d.moveTo (p.place d)

theorem ids_moved (e : Engine α) (p : Placement α) (g : Graph α) :
    (moved e p g).boxes.toList.map (·.id) = g.nodeIds := by
  unfold moved
  rw [Diagram.map_moveTo fun _ _ => rfl, Diagram.map_ofWellFormed fun _ => rfl]
  rfl

theorem count_moved (e : Engine α) (p : Placement α) (g : Graph α) :
    (moved e p g).count = g.nodes.length := by
  simpa [Graph.nodeIds, Diagram.count] using congrArg List.length (ids_moved e p g)

def shift (margin : α) (d : Diagram α) : Point α :=
  match d.bounds? with
  | some b => ⟨margin - b.left, margin - b.top⟩
  | none => .origin

theorem positions_frame (margin : α) (d : Diagram α) :
    (frame margin d).1.positions = d.positions.map (· + shift margin d) := by
  unfold frame shift
  cases hbounds : d.bounds? with
  | some b => exact Diagram.positions_translate _ _
  | none =>
    rw [Diagram.positions_of_no_bounds hbounds]
    rfl

/-- How a layout ends whose placement puts the boxes of the nodes of `g` at `centers`. -/
inductive Ending (g : Graph α) (centers : List (Point α)) (shift : Point α) :
    EStateM.Result LayoutError (Graph α) Unit → Prop where
  | refused {i : Nat} {n : Node α} {c : Point α} :
      g.nodes[i]? = some n → centers[i]? = some c → c.isFinite = false →
      (∀ j < i, ∀ c, centers[j]? = some c → c.isFinite = true) →
      Ending g centers shift (.error (.nonFinitePosition n.id) g)
  | placed {h : Graph α} :
      (∀ c ∈ centers, c.isFinite = true) →
      h.nodes.map (·.position) = centers.map (· + shift) →
      h.nodes.map Node.unplaced = g.nodes.map Node.unplaced →
      h.edges = g.edges → h.ids = g.ids →
      Ending g centers shift (.ok () h)

theorem ending_of_nonFinite {g : Graph α} {d : Diagram α}
    (hids : d.boxes.toList.map (·.id) = g.nodeIds) {b : Box α}
    (hb : firstNonFinite? d = some b) (shift : Point α) :
    Ending g d.positions shift (.error (.nonFinitePosition b.id) g) := by
  unfold firstNonFinite? at hb
  obtain ⟨hbad, i, hi, hget, hbefore⟩ := List.find?_eq_some_iff_getElem.mp hb
  have hbox : d.boxes.toList[i]? = some b := by rw [List.getElem?_eq_getElem hi, hget]
  have hid : g.nodeIds[i]? = some b.id := by rw [← hids, List.getElem?_map, hbox]; rfl
  obtain ⟨n, hn, hnid⟩ : ∃ n, g.nodes[i]? = some n ∧ n.id = b.id := by
    simpa [Graph.nodeIds] using hid
  rw [← hnid]
  refine .refused (c := b.position) hn ?_ (by simpa using hbad) ?_
  · rw [Diagram.positions, List.getElem?_map, hbox]
    rfl
  · intro j hj c hc
    have hlt : j < d.boxes.toList.length := Nat.lt_trans hj hi
    rw [Diagram.positions, List.getElem?_map, List.getElem?_eq_getElem hlt] at hc
    cases hc
    simpa using hbefore j hj

theorem ending_of_finite {g : Graph α} {d : Diagram α} (hcount : d.count = g.nodes.length)
    (hfinite : firstNonFinite? d = none) (margin : α) (canvas : Rect α) :
    Ending g d.positions (shift margin d)
      (.ok () { g.moveTo (frame margin d).1.positions with canvas := canvas }) := by
  refine .placed ?_ ?_ ?_ rfl rfl
  · intro c hc
    obtain ⟨b, hb, rfl⟩ := List.mem_map.mp hc
    simpa using List.find?_eq_none.mp hfinite b hb
  · rw [positions_frame]
    apply Graph.positions_moveTo_go
    rw [List.length_map, Diagram.positions_length, hcount]
  · exact Graph.unplaced_moveTo_go _ _

end Engine

/-- How a layout runs on a graph that has a diagram. -/
theorem Engine.run_eq {g : Graph α} (hg : g.WellFormed) (e : Engine α) (p : Placement α) :
    (Edit.applyPlacement e p).run g =
      match firstNonFinite? (moved e p g) with
      | some b => .error (.nonFinitePosition b.id) g
      | none =>
        let (placed, canvas) := frame e.settings.margin (moved e p g)
        .ok () { g.moveTo placed.positions with canvas := canvas } := by
  have hrun : (Edit.applyPlacement e p).run g =
      Edit.settle g ((e.applyPlacement g p).map fun h => ((), h)) :=
    Edit.applyPlacement_inPlace e p g
  have hpure : e.applyPlacement g p =
      match firstNonFinite? (moved e p g) with
      | some b => .error (.nonFinitePosition b.id)
      | none =>
        let (placed, canvas) := frame e.settings.margin (moved e p g)
        .ok { g.moveTo placed.positions with canvas := canvas } := by
    rw [applyPlacement_eq, Diagram.ofGraph_eq hg e.metrics]
    rfl
  rw [hrun, hpure]
  cases firstNonFinite? (moved e p g) <;> rfl

/-- After any session, a layout ends as the centres decide that the placement gives to the boxes of
the nodes, in the order of the nodes. -/
theorem Operation.layout_ending (ops : List (Operation α)) (e : Engine α) (p : Placement α) :
    ∃ d : Diagram α, Diagram.ofGraph e.metrics (session ops .empty) = .ok d ∧
      d.boxes.toList.map Box.alone =
        (session ops .empty).nodes.map (Diagram.boxOf e.metrics) ∧
      Engine.Ending (session ops .empty) (d.moveTo (p.place d)).positions
        (Engine.shift e.settings.margin (d.moveTo (p.place d)))
        ((Edit.applyPlacement e p).run (session ops .empty)) := by
  have hwell : (session ops (.empty : Graph α)).WellFormed :=
    session_wellFormed ops Graph.wellFormed_empty
  generalize session ops .empty = g at hwell
  refine ⟨_, Diagram.ofGraph_eq hwell e.metrics, Diagram.ofWellFormed_alone e.metrics g, ?_⟩
  rw [Engine.run_eq hwell]
  cases hfirst : Engine.firstNonFinite? (Engine.moved e p g) with
  | some b => exact Engine.ending_of_nonFinite (Engine.ids_moved e p g) hfirst _
  | none => exact Engine.ending_of_finite (Engine.count_moved e p g) hfirst _ _

end GraphScribe
