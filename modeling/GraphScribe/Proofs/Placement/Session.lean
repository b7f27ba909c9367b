import GraphScribe.Placement.Session
import GraphScribe.Proofs.Graph.Edit
import GraphScribe.Scalar.Double

/-! # Sessions keep graphs well-formed

Whatever operations are run on an empty graph, in any order and whether or not they fail, the graph
is well-formed after each of them, and an operation that fails has left it as it was. -/
namespace GraphScribe

variable {α : Type} [Scalar α]

theorem Graph.WellFormed.applyPlacement {g g' : Graph α} (h : g.WellFormed) {e : Engine α}
    {p : Placement α} (hrun : e.applyPlacement g p = .ok g') : g'.WellFormed := by
  unfold Engine.applyPlacement at hrun
  rw [Graph.bind_eq_ok] at hrun
  obtain ⟨d, _, hrun⟩ := hrun
  dsimp only at hrun
  split at hrun
  · cases hrun
  · cases hrun
    exact h.placed _ _

theorem Graph.WellFormed.ensureInitialLayout {g g' : Graph α} (h : g.WellFormed) {e : Engine α}
    (hrun : e.ensureInitialLayout g = .ok (some g')) : g'.WellFormed := by
  unfold Engine.ensureInitialLayout at hrun
  split at hrun
  · rw [Graph.bind_eq_ok] at hrun
    obtain ⟨k, hlayout, hk⟩ := hrun
    cases hk
    exact h.applyPlacement hlayout
  · cases hrun

theorem Engine.applyPlacement_eq (e : Engine α) (g : Graph α) (p : Placement α) :
    e.applyPlacement g p = (Diagram.ofGraph e.metrics g).bind fun d =>
      match firstNonFinite? (d.moveTo (p.place d)) with
      | some b => .error (.nonFinitePosition b.id)
      | none =>
        let (placed, canvas) := frame e.settings.margin (d.moveTo (p.place d))
        .ok { g.moveTo placed.positions with canvas := canvas } := rfl

namespace Edit

theorem applyPlacement_inPlace (e : Engine α) (p : Placement α) :
    InPlace (applyPlacement e p) fun g => (e.applyPlacement g p).map fun h => ((), h) := by
  intro g
  simp only [Engine.applyPlacement_eq]
  unfold applyPlacement
  cases hd : Diagram.ofGraph e.metrics g with
  | error f =>
    simp [hd, ofExcept]
    rfl
  | ok d =>
    cases hfinite : Engine.firstNonFinite? (d.moveTo (p.place d)) with
    | some b =>
      simp [hd, hfinite, ofExcept, Except.bind]
      rfl
    | none =>
      simp [hd, hfinite, ofExcept, Except.bind]
      rfl

theorem applyLayout_inPlace (e : Engine α) (a : Algorithm) (direction : Option Direction) :
    InPlace (applyLayout e a direction) fun g =>
      (e.applyLayout g a direction).map fun h => ((), h) :=
  applyPlacement_inPlace e _

theorem ensureInitialLayout_inPlace (e : Engine α) :
    InPlace (ensureInitialLayout e) fun g =>
      (e.ensureInitialLayout g).map fun r => (r.isSome, r.getD g) := by
  intro g
  have hlayout : (applyLayout e .circular none).run g = _ := applyLayout_inPlace e .circular none g
  unfold ensureInitialLayout Engine.ensureInitialLayout
  cases hneeds : g.needsInitialLayout with
  | false =>
    simp [hneeds]
    rfl
  | true =>
    cases hrun : e.applyLayout g .circular none with
    | error f =>
      simp only [hrun] at hlayout
      simp [hneeds, hlayout, hrun, -bind_pure_comp]
      rfl
    | ok h =>
      simp only [hrun] at hlayout
      simp [hneeds, hlayout, hrun, -bind_pure_comp]
      rfl

theorem applyPlacement_sound (e : Engine α) (p : Placement α) : Sound (applyPlacement e p) :=
  (applyPlacement_inPlace e p).sound_of_map fun hg h => hg.applyPlacement h

theorem applyLayout_sound (e : Engine α) (a : Algorithm) (direction : Option Direction) :
    Sound (applyLayout e a direction) := applyPlacement_sound e _

theorem ensureInitialLayout_sound (e : Engine α) : Sound (ensureInitialLayout e) := by
  refine (ensureInitialLayout_inPlace e).sound ?_
  intro g b k hg hmap
  cases hrun : e.ensureInitialLayout g with
  | error f =>
    rw [hrun] at hmap
    cases hmap
  | ok r =>
    rw [hrun] at hmap
    cases r with
    | none =>
      cases hmap
      exact hg
    | some h =>
      cases hmap
      exact hg.ensureInitialLayout hrun

end Edit

namespace Operation

/-- Every operation keeps graphs well-formed, and has written nothing if it fails. -/
theorem run_sound (op : Operation α) : Edit.Sound op.run := by
  cases op with
  | addNode n => exact (Edit.addNode_sound n).adaptExcept _
  | addEdge e => exact (Edit.addEdge_sound e).adaptExcept _
  | removeNode id => exact (Edit.removeNode_sound id).discard.adaptExcept _
  | removeEdge id => exact (Edit.removeEdge_sound id).discard.adaptExcept _
  | setPosition id position => exact (Edit.setPosition_sound id position).adaptExcept _
  | setLabel id label => exact (Edit.setLabel_sound id label).adaptExcept _
  | load d => exact (Edit.load_sound d).adaptExcept _
  | applyPlacement e p => exact (Edit.applyPlacement_sound e p).adaptExcept _
  | applyLayout e a direction => exact (Edit.applyLayout_sound e a direction).adaptExcept _
  | applyDefaultLayout e =>
    exact (Edit.applyLayout_sound e e.settings.algorithm none).adaptExcept _
  | ensureInitialLayout e => exact (Edit.ensureInitialLayout_sound e).discard.adaptExcept _

theorem leave_wellFormed (op : Operation α) {g : Graph α} (h : g.WellFormed) :
    (op.leave g).WellFormed := by
  unfold leave
  cases hrun : op.run.run g with
  | ok u k => exact op.run_sound.kept h hrun
  | error e k =>
    rw [op.run_sound.unchanged hrun]
    exact h

theorem session_wellFormed (ops : List (Operation α)) {g : Graph α} (h : g.WellFormed) :
    (session ops g).WellFormed := by
  induction ops generalizing g with
  | nil => exact h
  | cons op ops ih => exact ih (op.leave_wellFormed h)

/-- After any session on an empty graph, ids are distinct, the ids in use are those of the nodes and
edges, and every edge joins nodes; and an operation that fails then leaves the graph as it is. -/
theorem session_keeps_ids (ops : List (Operation α)) :
    ((session ops .empty).nodeIds ++ (session ops .empty).edgeIds).Nodup ∧
      (∀ id, (session ops .empty).containsId id = true ↔
        id ∈ (session ops .empty).nodeIds ∨ id ∈ (session ops .empty).edgeIds) ∧
      (∀ e ∈ (session ops .empty).edges, e.source ∈ (session ops .empty).nodeIds ∧
        e.target ∈ (session ops .empty).nodeIds) ∧
      ∀ (op : Operation α) (error : OperationError) (left : Graph α),
        op.run.run (session ops .empty) = .error error left → left = session ops .empty := by
  have h := session_wellFormed ops Graph.wellFormed_empty
  refine ⟨h.distinct, fun id => ?_, h.joined, fun op error left hrun => op.run_sound.unchanged hrun⟩
  rw [h.containsId_iff, List.mem_append]

def removalSession : List (Operation Float) :=
  [.addNode ⟨"a", "", .origin, false, .ellipse⟩, .addNode ⟨"b", "", .origin, false, .ellipse⟩,
    .addEdge ⟨"ab", "a", "b", ""⟩, .addEdge ⟨"aa", "a", "a", ""⟩, .removeNode "a"]

/-- The removal takes both edges along, so the first cannot be removed again. -/
theorem session_keeps_ids_removal :
    (session removalSession .empty).nodeIds = ["b"] ∧
      (session removalSession .empty).edgeIds = [] ∧
      (session removalSession .empty).ids = ["b"] ∧
      ∃ left, (Operation.removeEdge "ab").run.run (session removalSession .empty) =
          .error (.graph (.unknownEdge "ab")) left ∧
        left = session removalSession .empty :=
  have hfail : (Operation.removeEdge "ab").run.run (session removalSession .empty) =
      .error (.graph (.unknownEdge "ab")) (session removalSession .empty) := rfl
  ⟨rfl, rfl, rfl, _, hfail, (session_keeps_ids removalSession).2.2.2 _ _ _ hfail⟩

end Operation

end GraphScribe
