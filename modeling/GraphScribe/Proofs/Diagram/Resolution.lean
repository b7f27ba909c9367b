import GraphScribe.Graph.EdgeLine
import GraphScribe.Proofs.Placement.Outcome

/-! # Resolving ids

Both a diagram and the line of an edge look up the ends of edges by id, and have an error for an end
that is missing. After any session every end is a node, so that the one never fails and the other
fails for what is no edge only. A diagram may look the ids up in an index of all nodes: since ids are
unique, an index that keeps the last node of an id gives the same places. -/
namespace GraphScribe

variable {α : Type}

namespace Graph

variable {g : Graph α}

/-- Enters the nodes with their places, the first at `i`. A later node takes the place of an earlier
one with its id. -/
def enter : Nat → List (Node α) → Std.HashMap String Nat → Std.HashMap String Nat
  | _, [], places => places
  | i, n :: ns, places => enter (i + 1) ns (places.insert n.id i)

def places (g : Graph α) : Std.HashMap String Nat := enter 0 g.nodes ∅

theorem getElem?_enter {ns : List (Node α)} (h : (ns.map (·.id)).Nodup) (i : Nat)
    (places : Std.HashMap String Nat) (id : String) : (enter i ns places)[id]? =
      if id ∈ ns.map (·.id) then some (i + (ns.map (·.id)).idxOf id) else places[id]? := by
  induction ns generalizing i places with
  | nil => rfl
  | cons n ns ih =>
    obtain ⟨hn, hns⟩ := List.nodup_cons.mp h
    rw [enter, ih hns, List.map_cons, Std.HashMap.getElem?_insert]
    by_cases hid : n.id = id
    · subst hid
      simp [hn]
    · by_cases hmem : id ∈ ns.map (·.id)
      · rw [if_pos hmem, if_pos (List.mem_cons_of_mem _ hmem), List.idxOf_cons_ne _ hid]
        congr 1
        omega
      · have hnot : id ∉ n.id :: ns.map (·.id) :=
          fun h => (List.mem_cons.mp h).elim (fun heq => hid heq.symm) hmem
        rw [if_neg hmem, if_neg hnot, if_neg (by simpa using hid)]

theorem WellFormed.getElem?_places (h : g.WellFormed) {id : String} (hid : id ∈ g.nodeIds) :
    g.places[id]? = some (g.nodeIds.idxOf id) := by
  have hnodup : g.nodeIds.Nodup := (List.nodup_append.mp h.distinct).1
  rw [places, getElem?_enter hnodup, ← nodeIds, if_pos hid, Nat.zero_add]

theorem edge?_eq_none {id : String} : g.edge? id = none ↔ id ∉ g.edgeIds := by
  simp [edge?, edgeIds]

theorem exists_endpoint (g : Graph α) (edge : String) {id : String} (h : id ∈ g.nodeIds) :
    ∃ n, g.endpoint edge id = .ok n := by
  obtain ⟨n, hn⟩ := Option.isSome_iff_exists.mp (node?_isSome.mpr h)
  refine ⟨n, ?_⟩
  rw [endpoint, hn]

variable [Scalar α]

theorem edgeLine_of_notMem (m : Metrics α) {id : String} (h : id ∉ g.edgeIds) :
    g.edgeLine m id = .error (.unknownEdge id) := by
  rw [edgeLine, edge?_eq_none.mpr h]

theorem WellFormed.exists_edgeLine (h : g.WellFormed) (m : Metrics α) {id : String}
    (hid : id ∈ g.edgeIds) : ∃ s, g.edgeLine m id = .ok s := by
  cases hedge : g.edge? id with
  | none => exact absurd hid (edge?_eq_none.mp hedge)
  | some e =>
    obtain ⟨hsource, htarget⟩ := h.joined e (List.mem_of_find?_eq_some hedge)
    obtain ⟨source, hs⟩ := g.exists_endpoint e.id hsource
    obtain ⟨target, ht⟩ := g.exists_endpoint e.id htarget
    rw [edgeLine, hedge]
    dsimp only
    rw [hs, ht]
    by_cases hloop : e.isLoop = true
    · exact ⟨_, if_pos hloop⟩
    · exact ⟨_, if_neg hloop⟩

theorem WellFormed.edgeLine_ok_iff (h : g.WellFormed) (m : Metrics α) {id : String} :
    (∃ s, g.edgeLine m id = .ok s) ↔ id ∈ g.edgeIds := by
  constructor
  · rintro ⟨s, hs⟩
    by_contra hid
    rw [edgeLine_of_notMem m hid] at hs
    cases hs
  · exact h.exists_edgeLine m

theorem WellFormed.edgeLine_error_iff (h : g.WellFormed) (m : Metrics α) {id : String}
    {f : GraphError} :
    g.edgeLine m id = .error f ↔ id ∉ g.edgeIds ∧ f = .unknownEdge id := by
  by_cases hid : id ∈ g.edgeIds
  · obtain ⟨s, hs⟩ := h.exists_edgeLine m hid
    simp [hs, hid]
  · simp [edgeLine_of_notMem m hid, hid, eq_comm]

end Graph

namespace Diagram

def indexIn (places : Std.HashMap String Nat) (edge id : String) : Except LayoutError Nat :=
  match places[id]? with
  | some i => .ok i
  | none => .error (.missingNode edge id)

def linkIn (places : Std.HashMap String Nat) (e : Edge) : Except LayoutError Link := do
  let source ← indexIn places e.id e.source
  let sink ← indexIn places e.id e.target
  return ⟨source, sink, e.label⟩

theorem linkIn_places {g : Graph α} (h : g.WellFormed) {e : Edge} (he : e ∈ g.edges) :
    linkIn g.places e = .ok (g.link e) := by
  obtain ⟨hsource, htarget⟩ := h.joined e he
  rw [linkIn, indexIn, indexIn, h.getElem?_places hsource, h.getElem?_places htarget]
  rfl

theorem foldlM_addLink {f : Edge → Except LayoutError Link} {f' : Edge → Link} {es : List Edge}
    (h : ∀ e ∈ es, f e = .ok (f' e)) (d : Diagram α) :
    es.foldlM (fun d e => d.addLink <$> f e) d = .ok ((es.map f').foldl addLink d) := by
  induction es generalizing d with
  | nil => rfl
  | cons e es ih =>
    obtain ⟨he, hes⟩ := List.forall_mem_cons.mp h
    rw [List.foldlM_cons, he]
    exact ih hes (d.addLink (f' e))

variable [Scalar α]

/-- Adds the boxes of the nodes one by one, and then the links edge by edge. -/
def ofGraphIn (m : Metrics α) (g : Graph α) : Except LayoutError (Diagram α) :=
  g.edges.foldlM (fun d e => d.addLink <$> linkIn g.places e)
    (g.nodes.foldl (fun d n => d.addBox (boxOf m n)) .empty)

theorem foldl_addBox (m : Metrics α) (ns : List (Node α)) (d : Diagram α) :
    ns.foldl (fun d n => d.addBox (boxOf m n)) d =
      ⟨d.boxes ++ (ns.map (boxOf m)).toArray, d.links⟩ := by
  induction ns generalizing d with
  | nil => simp
  | cons n ns ih =>
    rw [List.foldl_cons, ih]
    simp [addBox]

theorem ofGraphIn_eq {g : Graph α} (h : g.WellFormed) (m : Metrics α) :
    ofGraphIn m g = .ok (ofWellFormed m g) := by
  rw [ofGraphIn, foldlM_addLink fun e he => linkIn_places h he, foldl_addBox, ofWellFormed]
  simp [empty]

end Diagram

variable [Scalar α]

theorem Engine.run_ok_or_nonFinite {g : Graph α} (h : g.WellFormed) (e : Engine α)
    (p : Placement α) : (∃ k, (Edit.applyPlacement e p).run g = .ok () k) ∨
      ∃ node, (Edit.applyPlacement e p).run g = .error (.nonFinitePosition node) g := by
  rw [run_eq h]
  cases firstNonFinite? (moved e p g) with
  | some b => exact .inr ⟨b.id, rfl⟩
  | none => exact .inl ⟨_, rfl⟩

/-- All that is looked up is found. The graph has a diagram, whichever index serves to look up the
ends of edges, so that a layout comes to its end or stops at a centre that is not finite. Every edge
has a line, and to ask for another is the only error. -/
structure Graph.Resolved (m : Metrics α) (g : Graph α) : Prop where
  diagram : ∃ d, Diagram.ofGraph m g = .ok d ∧ Diagram.ofGraphIn m g = .ok d
  layout : ∀ (e : Engine α) (p : Placement α), (∃ h, (Edit.applyPlacement e p).run g = .ok () h) ∨
    ∃ node, (Edit.applyPlacement e p).run g = .error (.nonFinitePosition node) g
  line : ∀ id, (∃ s, g.edgeLine m id = .ok s) ↔ id ∈ g.edgeIds
  error : ∀ id f, g.edgeLine m id = .error f ↔ id ∉ g.edgeIds ∧ f = .unknownEdge id

/-- After any session, whatever has failed in it, all ends of edges are found. -/
theorem Operation.session_resolved (ops : List (Operation α)) (m : Metrics α) :
    (session ops .empty).Resolved m := by
  have hwell : (session ops (.empty : Graph α)).WellFormed :=
    session_wellFormed ops Graph.wellFormed_empty
  constructor
  · exact ⟨_, Diagram.ofGraph_eq hwell m, Diagram.ofGraphIn_eq hwell m⟩
  · intro e p
    exact Engine.run_ok_or_nonFinite hwell e p
  · intro id
    exact hwell.edgeLine_ok_iff m
  · intro id f
    exact hwell.edgeLine_error_iff m

end GraphScribe
