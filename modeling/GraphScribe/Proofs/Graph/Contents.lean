import GraphScribe.Proofs.Placement.Session
import Mathlib.Data.List.Induction

/-! # Graphs and their contents

Contents make a graph exactly when their ids are distinct and their edges join their nodes. The graph
then holds these contents and nothing else; contents that do not are refused for the first item at
fault, nodes before edges. -/
namespace GraphScribe

variable {α : Type}

namespace GraphData

def nodeIds (d : GraphData α) : List String := d.nodes.map (·.id)

def edgeIds (d : GraphData α) : List String := d.edges.map (·.id)

structure Consistent (d : GraphData α) : Prop where
  distinct : (d.nodeIds ++ d.edgeIds).Nodup
  joined : ∀ e ∈ d.edges, e.source ∈ d.nodeIds ∧ e.target ∈ d.nodeIds

/-- What is wrong with an edge where the ids `taken` are in use, those in `nodes` by nodes. -/
inductive EdgeFault (nodes taken : List String) (e : Edge) : GraphError → Prop where
  | duplicate : e.id ∈ taken → EdgeFault nodes taken e (.duplicateId e.id)
  | source : e.id ∉ taken → e.source ∉ nodes →
      EdgeFault nodes taken e (.missingEndpoint e.id e.source)
  | target : e.id ∉ taken → e.source ∈ nodes → e.target ∉ nodes →
      EdgeFault nodes taken e (.missingEndpoint e.id e.target)

/-- What is wrong with the first item that the contents before it cannot take in. -/
inductive FirstFault (d : GraphData α) : GraphError → Prop where
  | node {before after : List (Node α)} {n : Node α} :
      d.nodes = before ++ n :: after → Consistent ⟨before, [], d.canvas⟩ →
      n.id ∈ before.map (·.id) → FirstFault d (.duplicateId n.id)
  | edge {before after : List Edge} {e : Edge} {f : GraphError} :
      d.edges = before ++ e :: after → Consistent ⟨d.nodes, before, d.canvas⟩ →
      EdgeFault d.nodeIds (d.nodeIds ++ before.map (·.id)) e f → FirstFault d f

theorem consistent_nil (canvas : Rect α) : Consistent ⟨[], [], canvas⟩ :=
  ⟨List.nodup_nil, List.forall_mem_nil _⟩

theorem Consistent.recanvas {d : GraphData α} (h : d.Consistent) (canvas : Rect α) :
    Consistent ⟨d.nodes, d.edges, canvas⟩ := ⟨h.distinct, h.joined⟩

theorem Consistent.nodesOnly {d : GraphData α} (h : d.Consistent) (canvas : Rect α) :
    Consistent ⟨d.nodes, [], canvas⟩ := by
  constructor
  · exact h.distinct.sublist (List.Sublist.append_left (List.nil_sublist _) _)
  · exact List.forall_mem_nil _

section Growth

variable {ns : List (Node α)} {es : List Edge} {canvas : Rect α}

theorem consistent_snoc_node {n : Node α} : Consistent ⟨ns ++ [n], [], canvas⟩ ↔
    Consistent ⟨ns, [], canvas⟩ ∧ n.id ∉ ns.map (·.id) := by
  constructor
  · intro h
    have hnodup := h.distinct
    simp only [nodeIds, edgeIds, List.map_append, List.map_cons, List.map_nil, List.append_nil,
      List.nodup_append, List.mem_singleton, forall_eq] at hnodup
    refine ⟨⟨by simpa [nodeIds, edgeIds] using hnodup.1, List.forall_mem_nil _⟩, ?_⟩
    intro hmem
    exact hnodup.2.2 _ hmem rfl
  · rintro ⟨h, hn⟩
    have hnodup := h.distinct
    simp only [nodeIds, edgeIds, List.map_nil, List.append_nil] at hnodup
    refine ⟨?_, List.forall_mem_nil _⟩
    simpa [nodeIds, edgeIds, List.nodup_append, hnodup] using hn

theorem consistent_snoc_edge {e : Edge} : Consistent ⟨ns, es ++ [e], canvas⟩ ↔
    Consistent ⟨ns, es, canvas⟩ ∧ e.id ∉ ns.map (·.id) ++ es.map (·.id) ∧
      e.source ∈ ns.map (·.id) ∧ e.target ∈ ns.map (·.id) := by
  have hperm : (ns.map (·.id) ++ (es ++ [e]).map (·.id)).Perm
      (e.id :: (ns.map (·.id) ++ es.map (·.id))) := by
    rw [List.map_append, ← List.append_assoc]
    exact List.perm_append_singleton _ _
  constructor
  · intro h
    obtain ⟨hid, hnodup⟩ := List.nodup_cons.mp (hperm.nodup_iff.mp h.distinct)
    obtain ⟨hes, he⟩ := List.forall_mem_append.mp h.joined
    exact ⟨⟨hnodup, hes⟩, hid, he e List.mem_cons_self⟩
  · rintro ⟨h, hid, he⟩
    refine ⟨hperm.nodup_iff.mpr (List.nodup_cons.mpr ⟨hid, h.distinct⟩), ?_⟩
    exact List.forall_mem_append.mpr ⟨h.joined, List.forall_mem_singleton.mpr he⟩

end Growth

theorem holds_or_breaks {β : Type} {P : List β → Prop} (hnil : P []) (bs : List β) :
    P bs ∨ ∃ before b after, bs = before ++ b :: after ∧ P before ∧ ¬P (before ++ [b]) := by
  induction bs using List.reverseRecOn with
  | nil => exact Or.inl hnil
  | append_singleton bs b ih =>
    rcases ih with hbs | ⟨before, c, after, rfl, hbefore, hbreak⟩
    · by_cases hb : P (bs ++ [b])
      · exact Or.inl hb
      · exact Or.inr ⟨bs, b, [], rfl, hbs, hb⟩
    · exact Or.inr ⟨before, c, after ++ [b], by simp, hbefore, hbreak⟩

theorem consistent_or_fault (d : GraphData α) : d.Consistent ∨ ∃ f, d.FirstFault f := by
  rcases holds_or_breaks (P := fun ns => Consistent ⟨ns, [], d.canvas⟩) (consistent_nil _)
    d.nodes with hnodes | ⟨before, n, after, hsplit, hbefore, hbreak⟩
  · rcases holds_or_breaks (P := fun es => Consistent ⟨d.nodes, es, d.canvas⟩) hnodes
      d.edges with hedges | ⟨before, e, after, hsplit, hbefore, hbreak⟩
    · exact Or.inl hedges
    · right
      by_cases hid : e.id ∈ d.nodeIds ++ before.map (·.id)
      · exact ⟨_, .edge hsplit hbefore (.duplicate hid)⟩
      by_cases hsource : e.source ∈ d.nodeIds
      · have htarget : e.target ∉ d.nodeIds := fun htarget =>
          hbreak (consistent_snoc_edge.mpr ⟨hbefore, hid, hsource, htarget⟩)
        exact ⟨_, .edge hsplit hbefore (.target hid hsource htarget)⟩
      · exact ⟨_, .edge hsplit hbefore (.source hid hsource)⟩
  · right
    by_cases hid : n.id ∈ before.map (·.id)
    · exact ⟨_, .node hsplit hbefore hid⟩
    · exact absurd (consistent_snoc_node.mpr ⟨hbefore, hid⟩) hbreak

end GraphData

namespace Graph

/-- The graph that holds the contents, its ids in use in the order of loading, the last first. -/
def holding (d : GraphData α) : Graph α :=
  ⟨d.nodes, d.edges, d.canvas, (d.nodeIds ++ d.edgeIds).reverse⟩

theorem toData_holding (d : GraphData α) : (holding d).toData = d := rfl

theorem containsId_holding (d : GraphData α) (id : String) :
    (holding d).containsId id = true ↔ id ∈ d.nodeIds ++ d.edgeIds := by
  rw [containsId_iff]
  exact List.mem_reverse

section Steps

variable {ns : List (Node α)} {es : List Edge} {canvas : Rect α}

theorem addNode_holding {n : Node α} (h : n.id ∉ ns.map (·.id)) :
    (holding ⟨ns, [], canvas⟩).addNode n = .ok (holding ⟨ns ++ [n], [], canvas⟩) := by
  have hfree : (holding ⟨ns, [], canvas⟩).containsId n.id = false := by
    rw [← Bool.not_eq_true, containsId_holding]
    simpa [GraphData.nodeIds, GraphData.edgeIds] using h
  unfold addNode
  rw [hfree]
  simp [holding, GraphData.nodeIds, GraphData.edgeIds]

theorem addNode_taken {n : Node α} (h : n.id ∈ ns.map (·.id)) :
    (holding ⟨ns, [], canvas⟩).addNode n = .error (.duplicateId n.id) := by
  have htaken : (holding ⟨ns, [], canvas⟩).containsId n.id = true :=
    (containsId_holding _ _).mpr (List.mem_append_left _ h)
  unfold addNode
  rw [htaken]
  rfl

theorem node?_isNone {g : Graph α} {id : String} :
    (g.node? id).isNone = true ↔ id ∉ g.nodeIds := by
  rw [← node?_isSome, Option.isNone_iff_eq_none, Option.isSome_iff_ne_none, not_not]

theorem addEdge_holding {e : Edge} (hid : e.id ∉ ns.map (·.id) ++ es.map (·.id))
    (hsource : e.source ∈ ns.map (·.id)) (htarget : e.target ∈ ns.map (·.id)) :
    (holding ⟨ns, es, canvas⟩).addEdge e = .ok (holding ⟨ns, es ++ [e], canvas⟩) := by
  have hfree : (holding ⟨ns, es, canvas⟩).containsId e.id = false := by
    rw [← Bool.not_eq_true, containsId_holding]
    exact hid
  have hends : (holding ⟨ns, es, canvas⟩).missingEnd? e = none :=
    missingEnd?_eq_none.mpr ⟨hsource, htarget⟩
  unfold addEdge
  rw [hfree, hends]
  simp [holding, GraphData.nodeIds, GraphData.edgeIds]

theorem addEdge_fault {e : Edge} {f : GraphError}
    (h : GraphData.EdgeFault (ns.map (·.id)) (ns.map (·.id) ++ es.map (·.id)) e f) :
    (holding ⟨ns, es, canvas⟩).addEdge e = .error f := by
  have hfree : e.id ∉ ns.map (·.id) ++ es.map (·.id) →
      (holding ⟨ns, es, canvas⟩).containsId e.id = false := by
    intro hid
    rw [← Bool.not_eq_true, containsId_holding]
    exact hid
  have hnode : ∀ id, ((holding ⟨ns, es, canvas⟩).node? id).isNone = true ↔
      id ∉ ns.map (·.id) := fun _ => node?_isNone
  unfold addEdge
  cases h with
  | duplicate hid =>
    rw [(containsId_holding _ _).mpr hid]
    rfl
  | source hid hsource =>
    rw [hfree hid]
    simp [missingEnd?, (hnode _).mpr hsource]
  | target hid hsource htarget =>
    have hfound : ((holding ⟨ns, es, canvas⟩).node? e.source).isNone = false := by
      rw [← Bool.not_eq_true, hnode, not_not]
      exact hsource
    rw [hfree hid]
    simp [missingEnd?, hfound, (hnode _).mpr htarget]

end Steps

theorem loadNodes_eq {ns : List (Node α)} {canvas : Rect α}
    (h : GraphData.Consistent ⟨ns, [], canvas⟩) :
    ns.foldlM addNode (holding ⟨[], [], canvas⟩) = .ok (holding ⟨ns, [], canvas⟩) := by
  induction ns using List.reverseRecOn with
  | nil => rfl
  | append_singleton ns n ih =>
    obtain ⟨hns, hn⟩ := GraphData.consistent_snoc_node.mp h
    rw [List.foldlM_append, ih hns]
    exact congrArg (· >>= pure) (addNode_holding hn)

theorem loadEdges_eq {ns : List (Node α)} {es : List Edge} {canvas : Rect α}
    (h : GraphData.Consistent ⟨ns, es, canvas⟩) :
    es.foldlM addEdge (holding ⟨ns, [], canvas⟩) = .ok (holding ⟨ns, es, canvas⟩) := by
  induction es using List.reverseRecOn with
  | nil => rfl
  | append_singleton es e ih =>
    obtain ⟨hes, hid, hsource, htarget⟩ := GraphData.consistent_snoc_edge.mp h
    rw [List.foldlM_append, ih hes]
    exact congrArg (· >>= pure) (addEdge_holding hid hsource htarget)

theorem foldlM_error {β σ ε : Type} {step : σ → β → Except ε σ} {before after : List β} {b : β}
    {s t : σ} {f : ε} (hbefore : before.foldlM step s = .ok t) (hb : step t b = .error f) :
    (before ++ b :: after).foldlM step s = .error f := by
  rw [List.foldlM_append, hbefore]
  change (step t b >>= fun u => after.foldlM step u) = .error f
  rw [hb]
  rfl

variable [Scalar α]

theorem ofData_of_consistent {d : GraphData α} (h : d.Consistent) :
    ofData d = .ok (holding d) := by
  have hempty : (empty : Graph α) = holding ⟨[], [], .zero⟩ := rfl
  unfold ofData
  rw [hempty, loadNodes_eq (h.nodesOnly .zero)]
  change (d.edges.foldlM addEdge _ >>= _) = _
  rw [loadEdges_eq (h.recanvas .zero)]
  rfl

theorem ofData_of_fault {d : GraphData α} {f : GraphError} (h : d.FirstFault f) :
    ofData d = .error f := by
  have hempty : (empty : Graph α) = holding ⟨[], [], .zero⟩ := rfl
  unfold ofData
  rw [hempty]
  cases h with
  | @node before after n hsplit hbefore hid =>
    have hload := loadNodes_eq (hbefore.recanvas .zero)
    rw [hsplit, foldlM_error hload (addNode_taken hid)]
    rfl
  | @edge before after e f hsplit hbefore hfault =>
    have hload := loadEdges_eq (hbefore.recanvas .zero)
    rw [loadNodes_eq (hbefore.nodesOnly .zero)]
    change (d.edges.foldlM addEdge _ >>= _) = _
    rw [hsplit, foldlM_error hload (addEdge_fault hfault)]
    rfl

/-- Loading succeeds exactly on consistent contents, and gives the graph that holds them. -/
theorem ofData_eq_ok_iff {d : GraphData α} {g : Graph α} :
    ofData d = .ok g ↔ d.Consistent ∧ g = holding d := by
  constructor
  · intro h
    rcases d.consistent_or_fault with hd | ⟨f, hf⟩
    · rw [ofData_of_consistent hd] at h
      cases h
      exact ⟨hd, rfl⟩
    · rw [ofData_of_fault hf] at h
      cases h
  · rintro ⟨hd, rfl⟩
    exact ofData_of_consistent hd

theorem ofData_eq_error_iff {d : GraphData α} {f : GraphError} :
    ofData d = .error f ↔ d.FirstFault f := by
  constructor
  · intro h
    rcases d.consistent_or_fault with hd | ⟨f', hf⟩
    · rw [ofData_of_consistent hd] at h
      cases h
    · rw [ofData_of_fault hf] at h
      cases h
      exact hf
  · exact ofData_of_fault

/-- The edge has no end either, but nodes come first. -/
example : ofData ⟨[⟨"a", "", .origin, false, .ellipse⟩, ⟨"a", "", .origin, false, .ellipse⟩],
    [⟨"e", "a", "b", ""⟩], (.zero : Rect Float)⟩ = .error (.duplicateId "a") := rfl

omit [Scalar α] in
theorem WellFormed.consistent_toData {g : Graph α} (h : g.WellFormed) : g.toData.Consistent :=
  ⟨h.distinct, h.joined⟩

omit [Scalar α] in
theorem WellFormed.holding_ids {g : Graph α} (h : g.WellFormed) :
    (holding g.toData).ids.Perm g.ids :=
  (List.reverse_perm _).trans h.ids_perm.symm

/-- A graph with the contents of `g`, and the ids of `g` in use, equals `g` where `g` equals itself. -/
theorem same_of_toData {g h : Graph α} (hdata : h.toData = g.toData) (hids : h.ids.Perm g.ids) :
    h.same g = g.same g := by
  obtain ⟨hnodes, hedges, hcanvas⟩ : h.nodes = g.nodes ∧ h.edges = g.edges ∧ h.canvas = g.canvas :=
    GraphData.mk.inj hdata
  have hall : ∀ {is js : List String}, is.Perm js → is.all js.contains = true := by
    intro is js hperm
    apply List.all_eq_true.mpr
    intro id hid
    exact List.contains_iff_mem.mpr (hperm.mem_iff.mp hid)
  unfold same
  rw [hnodes, hedges, hcanvas, hall hids, hall hids.symm, hall (List.Perm.refl g.ids)]

end Graph

namespace Operation

variable [Scalar α]

/-- Contents become a graph exactly when they are consistent, and then it has these contents; else
the first fault is reported. After any session the contents of the graph give it back. -/
theorem contents_roundTrip (d : GraphData α) (ops : List (Operation α)) :
    ((∃ g, Graph.ofData d = .ok g) ↔ d.Consistent) ∧
      (∀ g, Graph.ofData d = .ok g → g.toData = d) ∧
      (∀ f, Graph.ofData d = .error f ↔ d.FirstFault f) ∧
      ∃ h, Graph.ofData (session ops .empty).toData = .ok h ∧
        h.toData = (session ops .empty).toData ∧ h.ids.Perm (session ops .empty).ids ∧
        h.same (session ops .empty) = (session ops .empty).same (session ops .empty) := by
  have hwell : (session ops (.empty : Graph α)).WellFormed :=
    session_wellFormed ops Graph.wellFormed_empty
  generalize session ops .empty = g at hwell
  refine ⟨?_, ?_, fun f => Graph.ofData_eq_error_iff, ?_⟩
  · constructor
    · rintro ⟨g, hg⟩
      exact (Graph.ofData_eq_ok_iff.mp hg).1
    · intro hd
      exact ⟨_, Graph.ofData_of_consistent hd⟩
  · intro g hg
    rw [(Graph.ofData_eq_ok_iff.mp hg).2]
    exact Graph.toData_holding d
  · refine ⟨_, Graph.ofData_of_consistent hwell.consistent_toData, rfl, hwell.holding_ids, ?_⟩
    exact Graph.same_of_toData rfl hwell.holding_ids

def linkContents : GraphData Float :=
  ⟨[⟨"a", "", .origin, true, .ellipse⟩, ⟨"b", "", ⟨3, 4⟩, false, .rectangle⟩],
    [⟨"ab", "a", "b", "link"⟩], ⟨0, 0, 8, 6⟩⟩

/-- Loading the contents after the removal of a node from another graph gives exactly them. -/
theorem contents_roundTrip_link :
    (session (removalSession ++ [.load linkContents]) .empty).toData = linkContents ∧
      (Graph.holding linkContents).toData = linkContents ∧
      ∃ h, Graph.ofData linkContents = .ok h ∧ h.toData = linkContents := by
  have hsession : (session (removalSession ++ [.load linkContents]) .empty).toData =
      linkContents := rfl
  have hload : Graph.ofData linkContents = .ok (Graph.holding linkContents) := rfl
  obtain ⟨_, hdata, _, h, hok, hback, _⟩ :=
    contents_roundTrip linkContents (removalSession ++ [.load linkContents])
  rw [hsession] at hok hback
  exact ⟨hsession, hdata _ hload, h, hok, hback⟩

end Operation

end GraphScribe
