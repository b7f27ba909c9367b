import GraphScribe.Proofs.Geometry.Rect
import GraphScribe.Proofs.Placement.Outcome

/-! # Framed drawings

A layout moves the drawing so that its outline begins at the margin, and makes the canvas from the
outline as it was before that move. In exact arithmetic the outline moves along with the nodes, so
the canvas fits the drawing that is stored, and a layout that moves nothing finds all in place. -/
namespace GraphScribe

section Outline

variable {α : Type} [Scalar α]

def Node.extent (m : Metrics α) (n : Node α) : Size α := m.nodeSize n.label n.shape

def Node.bounds (m : Metrics α) (n : Node α) : Rect α := .ofCenter n.position (n.extent m)

def Graph.outline? (m : Metrics α) (g : Graph α) : Option (Rect α) :=
  Rect.unionAll? (g.nodes.map (Node.bounds m))

theorem Node.map_bounds (m : Metrics α) (ns : List (Node α)) :
    ns.map (Node.bounds m) =
      List.zipWith Rect.ofCenter (ns.map (·.position)) (ns.map (Node.extent m)) := by
  rw [List.zipWith_map, List.zipWith_self]
  rfl

theorem Diagram.map_bounds (d : Diagram α) : d.boxes.toList.map Box.bounds =
    List.zipWith Rect.ofCenter d.positions (d.boxes.toList.map (·.size)) := by
  unfold Diagram.positions
  rw [List.zipWith_map, List.zipWith_self]
  rfl

theorem Diagram.sizes_ofWellFormed (m : Metrics α) (g : Graph α) :
    (ofWellFormed m g).boxes.toList.map (·.size) = g.nodes.map (Node.extent m) :=
  map_ofWellFormed (fun _ => rfl) m g

theorem Diagram.positions_ofWellFormed (m : Metrics α) (g : Graph α) :
    (ofWellFormed m g).positions = g.nodes.map (·.position) :=
  map_ofWellFormed (fun _ => rfl) m g

theorem Diagram.bounds?_ofWellFormed (m : Metrics α) (g : Graph α) :
    (ofWellFormed m g).bounds? = g.outline? m := by
  unfold Diagram.bounds? Graph.outline?
  rw [Diagram.map_bounds, Node.map_bounds, sizes_ofWellFormed, positions_ofWellFormed]

theorem Node.map_extent_congr (m : Metrics α) {ns ns' : List (Node α)}
    (h : ns.map Node.unplaced = ns'.map Node.unplaced) :
    ns.map (Node.extent m) = ns'.map (Node.extent m) := by
  have hextent := congrArg (List.map (Node.extent m)) h
  rw [List.map_map, List.map_map] at hextent
  exact hextent

end Outline

/-- The placement leaves the boxes of the diagram where they are. -/
def Placement.Rests {α : Type} (p : Placement α) (d : Diagram α) : Prop := d.moveTo (p.place d) = d

theorem Placement.fixed_nil_rests {α : Type} (d : Diagram α) :
    (Placement.fixed ([] : List (Point α))).Rests d := by
  have hboxes : (d.moveTo []).boxes = d.boxes := by
    apply Array.ext_getElem?
    intro i
    simp [Diagram.getElem?_moveTo]
  exact congrArg (Diagram.mk · d.links) hboxes

variable {K : Type} [ExactScalar K]

theorem Node.extent_large (m : Metrics K) (n : Node K) :
    24 ≤ (n.extent m).width ∧ 24 ≤ (n.extent m).height := by
  simp [Node.extent, Metrics.nodeSize, Metrics.minExtent]

namespace Engine

theorem sizes_moved (e : Engine K) (p : Placement K) (g : Graph K) :
    (moved e p g).boxes.toList.map (·.size) = g.nodes.map (Node.extent e.metrics) := by
  unfold moved
  rw [Diagram.map_moveTo fun _ _ => rfl, Diagram.sizes_ofWellFormed]

theorem outline?_shift {e : Engine K} {p : Placement K} {g h : Graph K} {offset : Point K}
    (hpositions : h.nodes.map (·.position) = (moved e p g).positions.map (· + offset))
    (hnodes : h.nodes.map Node.unplaced = g.nodes.map Node.unplaced) :
    h.outline? e.metrics = (moved e p g).bounds?.map (Rect.shift · offset) := by
  have hrects : h.nodes.map (Node.bounds e.metrics) =
      ((moved e p g).boxes.toList.map Box.bounds).map (Rect.shift · offset) := by
    rw [Node.map_bounds, Node.map_extent_congr e.metrics hnodes, hpositions, Diagram.map_bounds,
      sizes_moved, List.map_zipWith, List.zipWith_map_left]
    simp only [Rect.ofCenter_add]
  unfold Graph.outline? Diagram.bounds?
  rw [hrects, Rect.unionAll?_shift]

/-- The outline `u` of the drawing begins at the margin, and the canvas leaves the margin free
around it. -/
structure Framed (e : Engine K) (g : Graph K) (u : Rect K) : Prop where
  outline : g.outline? e.metrics = some u
  left : u.left = e.settings.margin
  top : u.top = e.settings.margin
  canvas : g.canvas =
    ⟨0, 0, u.width + 2 * e.settings.margin, u.height + 2 * e.settings.margin⟩

variable {e : Engine K} {g : Graph K} {u : Rect K}

theorem Framed.canvas_eq (h : e.Framed g u) : g.canvas = u.pad e.settings.margin := by
  have hx : u.x = e.settings.margin := h.left
  have hy : u.y = e.settings.margin := h.top
  rw [h.canvas]
  simp [Rect.pad, hx, hy]

theorem Framed.isHull (h : e.Framed g u) : u.IsHull (g.nodes.map (Node.bounds e.metrics)) :=
  Rect.isHull_unionAll? h.outline

theorem Framed.covers (h : e.Framed g u) {n : Node K} (hn : n ∈ g.nodes) :
    g.canvas.Covers ((n.bounds e.metrics).pad e.settings.margin) := by
  rw [h.canvas_eq]
  exact (h.isHull.covers _ (List.mem_map_of_mem hn)).pad _

/-- Every node lies at least half its least extent beyond the margin. -/
theorem Framed.inside (h : e.Framed g u) {n : Node K} (hn : n ∈ g.nodes) :
    e.settings.margin + 12 ≤ n.position.x ∧ e.settings.margin + 12 ≤ n.position.y := by
  have hcovers := h.isHull.covers _ (List.mem_map_of_mem hn)
  have hleft := hcovers.left
  have htop := hcovers.top
  have hcorner : (n.bounds e.metrics).left = n.position.x - (n.extent e.metrics).width / 2 ∧
      (n.bounds e.metrics).top = n.position.y - (n.extent e.metrics).height / 2 := by
    simp [Node.bounds, Rect.ofCenter, Rect.left, Rect.top]
  obtain ⟨hwidth, hheight⟩ := n.extent_large e.metrics
  rw [h.left, hcorner.1] at hleft
  rw [h.top, hcorner.2] at htop
  constructor
  · linarith
  · linarith

theorem Framed.positive (h : e.Framed g u) (hmargin : 0 ≤ e.settings.margin) {n : Node K}
    (hn : n ∈ g.nodes) : 0 < n.position.x ∧ 0 < n.position.y := by
  obtain ⟨hx, hy⟩ := h.inside hn
  constructor
  · linarith
  · linarith

theorem Framed.needsInitialLayout (h : e.Framed g u) (hmargin : 0 ≤ e.settings.margin) :
    g.needsInitialLayout = false := by
  unfold Graph.needsInitialLayout
  cases hnodes : g.nodes with
  | nil => rfl
  | cons n ns =>
    have hx := (h.positive hmargin (hnodes ▸ List.mem_cons_self : n ∈ g.nodes)).1
    simp [Point.isOrigin, Point.same, Point.origin, hx.ne']

theorem bounds?_moved (e : Engine K) (p : Placement K) (hne : g.nodes ≠ []) :
    ∃ b, (moved e p g).bounds? = some b := by
  cases hbounds : (moved e p g).bounds? with
  | some b => exact ⟨b, rfl⟩
  | none =>
    have hcount := count_moved e p g
    rw [← Diagram.positions_length, Diagram.positions_of_no_bounds hbounds] at hcount
    exact absurd (List.length_eq_zero_iff.mp hcount.symm) hne

theorem firstNonFinite?_exact (d : Diagram K) : firstNonFinite? d = none := by
  simp [firstNonFinite?]

theorem run_framed (hg : g.WellFormed) (hne : g.nodes ≠ []) (e : Engine K) (p : Placement K) :
    ∃ h u, (Edit.applyPlacement e p).run g = .ok () h ∧ e.Framed h u := by
  obtain ⟨b, hb⟩ := bounds?_moved e p hne
  have hshift : shift e.settings.margin (moved e p g) =
      ⟨e.settings.margin - b.left, e.settings.margin - b.top⟩ := by
    simp only [shift, hb]
  have hpositions := positions_frame e.settings.margin (moved e p g)
  have hcanvas : (frame e.settings.margin (moved e p g)).2 =
      (Rect.mk e.settings.margin e.settings.margin b.width b.height).pad e.settings.margin := by
    simp only [frame, hb]
  -- The centres are those after the move, the canvas is made from the outline `b` before it.
  rw [run_eq hg, firstNonFinite?_exact]
  rw [hshift] at hpositions
  generalize frame e.settings.margin (moved e p g) = framed at hpositions hcanvas ⊢
  obtain ⟨placed, canvas⟩ := framed
  dsimp only at hpositions hcanvas ⊢
  have hlength : placed.positions.length = g.nodes.length := by
    rw [hpositions, List.length_map, Diagram.positions_length, count_moved]
  refine ⟨_, b.shift ⟨e.settings.margin - b.left, e.settings.margin - b.top⟩, rfl, ?_⟩
  constructor
  · have hplaced := Graph.positions_moveTo_go g.nodes placed.positions hlength
    rw [outline?_shift (hplaced.trans hpositions) (Graph.unplaced_moveTo_go _ _), hb]
    rfl
  · simp [Rect.shift_left]
  · simp [Rect.shift_top]
  · simp [hcanvas, Rect.pad, Rect.shift]

/-- Where all is framed, a layout that moves nothing changes nothing. -/
theorem run_of_rests (hg : g.WellFormed) (h : e.Framed g u) {q : Placement K}
    (hq : q.Rests (Diagram.ofWellFormed e.metrics g)) :
    (Edit.applyPlacement e q).run g = .ok () g := by
  have hmoved : moved e q g = Diagram.ofWellFormed e.metrics g := hq
  have hbounds : (moved e q g).bounds? = some u := by
    rw [hmoved, Diagram.bounds?_ofWellFormed, h.outline]
  have hshift : shift e.settings.margin (moved e q g) = .origin := by
    simp [shift, hbounds, h.left, h.top, Point.origin]
  have hpositions : (frame e.settings.margin (moved e q g)).1.positions =
      g.nodes.map (·.position) := by
    rw [positions_frame, hshift, hmoved, Diagram.positions_ofWellFormed, List.map_map]
    simp [Function.comp_def, Point.add_origin]
  have hcanvas : (frame e.settings.margin (moved e q g)).2 = g.canvas := by
    rw [h.canvas]
    simp [frame, hbounds, Rect.pad]
  rw [run_eq hg, firstNonFinite?_exact]
  dsimp only
  rw [hcanvas, hpositions, Graph.moveTo, Graph.moveTo_go_self]

end Engine

namespace Operation

/-- After any session, a layout of a graph with nodes succeeds in exact arithmetic and frames the
drawing: the outline begins at the margin, the canvas leaves the margin free around every node, and
with a margin that is not negative all coordinates are positive, so that the graph counts as laid
out. Running any placement on it that moves nothing changes nothing. -/
theorem layout_framed (ops : List (Operation K)) (e : Engine K) (p : Placement K)
    (hne : (session ops .empty).nodes ≠ []) :
    ∃ h d u, (Edit.applyPlacement e p).run (session ops .empty) = .ok () h ∧
      Diagram.ofGraph e.metrics h = .ok d ∧ e.Framed h u ∧
      u.IsHull (h.nodes.map (Node.bounds e.metrics)) ∧
      (∀ n ∈ h.nodes, h.canvas.Covers ((n.bounds e.metrics).pad e.settings.margin) ∧
        h.canvas.contains ((n.bounds e.metrics).pad e.settings.margin) = true) ∧
      (∀ n ∈ h.nodes, 24 ≤ (n.extent e.metrics).width ∧ 24 ≤ (n.extent e.metrics).height) ∧
      (0 ≤ e.settings.margin → (∀ n ∈ h.nodes, 0 < n.position.x ∧ 0 < n.position.y) ∧
        h.needsInitialLayout = false) ∧
      ∀ q : Placement K, q.Rests d → (Edit.applyPlacement e q).run h = .ok () h := by
  have hwell : (session ops (.empty : Graph K)).WellFormed :=
    session_wellFormed ops Graph.wellFormed_empty
  obtain ⟨h, u, hrun, hframed⟩ := Engine.run_framed hwell hne e p
  have hafter : h.WellFormed := (Edit.applyPlacement_sound e p).kept hwell hrun
  refine ⟨h, _, u, hrun, Diagram.ofGraph_eq hafter e.metrics, hframed, hframed.isHull,
    ?_, ?_, ?_, ?_⟩
  · intro n hn
    have hcovers := hframed.covers hn
    exact ⟨hcovers, hcovers.contains⟩
  · intro n _
    exact n.extent_large e.metrics
  · intro hmargin
    exact ⟨fun n hn => hframed.positive hmargin hn, hframed.needsInitialLayout hmargin⟩
  · intro q hq
    exact Engine.run_of_rests hafter hframed hq

def couple : List (Operation K) :=
  [.addNode ⟨"a", "one", .origin, false, .ellipse⟩,
    .addNode ⟨"b", "another", .origin, false, .rectangle⟩]

theorem layout_framed_couple :
    ∃ (h : Graph ℝ) (u : Rect ℝ),
      (Edit.applyPlacement ⟨.standard, .standard⟩ (.fixed [⟨-70, 3⟩, ⟨40, 50⟩])).run
        (session couple .empty) = .ok () h ∧
      Engine.Framed ⟨.standard, .standard⟩ h u ∧
      u.IsHull (h.nodes.map (Node.bounds .standard)) ∧
      (∀ n ∈ h.nodes, h.canvas.contains ((n.bounds .standard).pad 20) = true) ∧
      (∀ n ∈ h.nodes, 0 < n.position.x ∧ 0 < n.position.y) ∧ h.needsInitialLayout = false ∧
      (Edit.applyPlacement ⟨.standard, .standard⟩ (.fixed [])).run h = .ok () h := by
  have hmargin : (LayoutSettings.standard : LayoutSettings ℝ).margin = 20 := by
    simp [LayoutSettings.standard]
  have hcount : (session couple (.empty : Graph ℝ)).nodes.length = 2 := rfl
  have hne : (session couple (.empty : Graph ℝ)).nodes ≠ [] := by
    intro hnil
    rw [hnil] at hcount
    cases hcount
  obtain ⟨h, d, u, hrun, -, hframed, hhull, hcanvas, -, hplaced, hrests⟩ :=
    layout_framed couple ⟨.standard, .standard⟩ (.fixed [⟨-70, 3⟩, ⟨40, 50⟩]) hne
  rw [hmargin] at hcanvas hplaced
  obtain ⟨hpositive, hinitial⟩ := hplaced (by norm_num)
  exact ⟨h, u, hrun, hframed, hhull, fun n hn => (hcanvas n hn).2, hpositive, hinitial,
    hrests _ (Placement.fixed_nil_rests d)⟩

end Operation

end GraphScribe
