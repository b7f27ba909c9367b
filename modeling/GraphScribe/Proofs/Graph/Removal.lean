import GraphScribe.Proofs.Placement.Session
import Mathlib.Data.List.Nodup

/-! # Removal

Removing a node takes away that node, the edges that touch it and their ids, and nothing else: what
stays keeps its order, and of the ids in use before just those given up are free again. Removing an
item that has just been added gives the item back and leaves the graph as it was before. -/
namespace GraphScribe

variable {α : Type}

namespace Edit

theorem InPlace.run_eq_ok {ε β : Type} {m : Edit α ε β} {f : Graph α → Except ε (β × Graph α)}
    (hm : InPlace m f) {g h : Graph α} {b : β} : m.run g = .ok b h ↔ f g = .ok (b, h) := by
  rw [hm g]
  cases f g with
  | ok r => simp [settle, Prod.ext_iff]
  | error e => simp [settle]

variable {g h : Graph α}

theorem addNode_run_ok {n : Node α} : (addNode n).run g = .ok () h ↔ g.addNode n = .ok h := by
  rw [(addNode_inPlace n).run_eq_ok]
  cases g.addNode n <;> simp [Except.map]

theorem addEdge_run_ok {e : Edge} : (addEdge e).run g = .ok () h ↔ g.addEdge e = .ok h := by
  rw [(addEdge_inPlace e).run_eq_ok]
  cases g.addEdge e <;> simp [Except.map]

theorem removeNode_run_ok {id : String} {n : Node α} :
    (removeNode id).run g = .ok n h ↔ g.removeNode id = .ok (n, h) :=
  (removeNode_inPlace id).run_eq_ok

theorem removeEdge_run_ok {id : String} {e : Edge} :
    (removeEdge id).run g = .ok e h ↔ g.removeEdge id = .ok (e, h) :=
  (removeEdge_inPlace id).run_eq_ok

end Edit

namespace Graph

/-- The id is given up with the node: it is the node's own, or that of an edge which touches it. -/
def GivesUp (g : Graph α) (node id : String) : Prop :=
  id = node ∨ ∃ e ∈ g.edges, (e.source = node ∨ e.target = node) ∧ e.id = id

/-- The graph `h` is `g` without the node, and without what cannot be there without it. -/
structure Without (g : Graph α) (node : String) (h : Graph α) : Prop where
  nodes : h.nodes = g.nodes.filter fun n => n.id ≠ node
  edges : h.edges = g.edges.filter fun e => e.source ≠ node ∧ e.target ≠ node
  canvas : h.canvas = g.canvas
  used : ∀ id, h.containsId id = true ↔ g.containsId id = true ∧ ¬g.GivesUp node id

/-- Of the ids that `g` uses, just those given up with the node can be given to new items of `h`. -/
structure Readmits (g : Graph α) (node : String) (h : Graph α) : Prop where
  nodes : ∀ n : Node α, g.containsId n.id = true →
    ((∃ k, (Edit.addNode n).run h = .ok () k) ↔ g.GivesUp node n.id)
  edges : ∀ e : Edge, g.containsId e.id = true → e.source ∈ h.nodeIds → e.target ∈ h.nodeIds →
    ((∃ k, (Edit.addEdge e).run h = .ok () k) ↔ g.GivesUp node e.id)

section Removals

variable {g h : Graph α}

theorem eraseP_key_eq_filter {β : Type} (key : β → String) {bs : List β}
    (hkeys : (bs.map key).Nodup) (id : String) :
    (bs.eraseP fun b => key b == id) = bs.filter fun b => key b ≠ id := by
  induction bs with
  | nil => rfl
  | cons b bs ih =>
    rw [List.map_cons, List.nodup_cons] at hkeys
    by_cases hb : key b = id
    · have hrest : ∀ c ∈ bs, key c ≠ id := fun c hc hcid =>
        hkeys.1 (hb.trans hcid.symm ▸ List.mem_map_of_mem hc)
      simpa [hb, eq_comm (a := bs), List.filter_eq_self] using hrest
    · simp [hb, ih hkeys.2]

theorem WellFormed.nodeIds_nodup (hg : g.WellFormed) : g.nodeIds.Nodup :=
  (List.nodup_append.mp hg.distinct).1

theorem WellFormed.edgeIds_nodup (hg : g.WellFormed) : g.edgeIds.Nodup :=
  (List.nodup_append.mp hg.distinct).2.1

theorem WellFormed.edge_id_ne (hg : g.WellFormed) {id : String} (hid : id ∈ g.nodeIds) {e : Edge}
    (he : e ∈ g.edges) : e.id ≠ id := fun heq =>
  (List.nodup_append.mp hg.distinct).2.2 id hid e.id (List.mem_map_of_mem he) heq.symm

theorem WellFormed.edge_unique (hg : g.WellFormed) {d e : Edge} (hd : d ∈ g.edges)
    (he : e ∈ g.edges) (hid : d.id = e.id) : d = e :=
  List.inj_on_of_nodup_map hg.edgeIds_nodup hd he hid

theorem WellFormed.used_iff (hg : g.WellFormed) {id : String} :
    g.containsId id = true ↔ (∃ n ∈ g.nodes, n.id = id) ∨ ∃ e ∈ g.edges, e.id = id := by
  simp [hg.containsId_iff, nodeIds, edgeIds]

theorem WellFormed.used_without (hg : g.WellFormed) (hh : h.WellFormed) {node : String}
    (hnode : node ∈ g.nodeIds) (hnodes : h.nodes = g.nodes.filter fun n => n.id ≠ node)
    (hedges : h.edges = g.edges.filter fun e => e.source ≠ node ∧ e.target ≠ node) (id : String) :
    h.containsId id = true ↔ g.containsId id = true ∧ ¬g.GivesUp node id := by
  rw [hh.used_iff, hg.used_iff, hnodes, hedges]
  simp only [List.mem_filter, decide_eq_true_eq]
  constructor
  · rintro (⟨n, ⟨hn, hne⟩, rfl⟩ | ⟨e, ⟨he, hapart⟩, rfl⟩)
    · refine ⟨Or.inl ⟨n, hn, rfl⟩, ?_⟩
      rintro (heq | ⟨e, he, -, heq⟩)
      · exact hne heq
      · exact hg.edge_id_ne (List.mem_map_of_mem hn) he heq
    · refine ⟨Or.inr ⟨e, he, rfl⟩, ?_⟩
      rintro (heq | ⟨d, hd, htouch, heq⟩)
      · exact hg.edge_id_ne hnode he heq
      · rw [hg.edge_unique hd he heq] at htouch
        exact htouch.elim hapart.1 hapart.2
  · rintro ⟨⟨n, hn, rfl⟩ | ⟨e, he, rfl⟩, hkept⟩
    · exact Or.inl ⟨n, ⟨hn, fun heq => hkept (Or.inl heq)⟩, rfl⟩
    · refine Or.inr ⟨e, ⟨he, ?_, ?_⟩, rfl⟩
      · exact fun heq => hkept (Or.inr ⟨e, he, Or.inl heq, rfl⟩)
      · exact fun heq => hkept (Or.inr ⟨e, he, Or.inr heq, rfl⟩)

theorem filter_apart (es : List Edge) (node : String) :
    (es.filter fun e => !e.touches node) =
      es.filter fun e => e.source ≠ node ∧ e.target ≠ node := by
  refine List.filter_congr fun e _ => ?_
  rw [Bool.eq_iff_iff]
  simp [Edge.touches]

theorem WellFormed.removeNode_without (hg : g.WellFormed) {node : String}
    (hnode : node ∈ g.nodeIds) :
    ∃ n h, g.removeNode node = .ok (n, h) ∧ n ∈ g.nodes ∧ n.id = node ∧ g.Without node h := by
  obtain ⟨n, hn⟩ := Option.isSome_iff_exists.mp (node?_isSome.mpr hnode)
  have hremove : ∃ h, g.removeNode node = .ok (n, h) ∧
      h.nodes = (g.nodes.eraseP fun n => n.id == node) ∧
      h.edges = (g.edges.filter fun e => !e.touches node) ∧ h.canvas = g.canvas := by
    unfold Graph.removeNode
    rw [hn]
    exact ⟨_, rfl, rfl, rfl, rfl⟩
  obtain ⟨h, hok, hnodes, hedges, hcanvas⟩ := hremove
  rw [eraseP_key_eq_filter Node.id hg.nodeIds_nodup] at hnodes
  rw [filter_apart] at hedges
  exact ⟨n, h, hok, List.mem_of_find?_eq_some hn, node?_id hn, hnodes, hedges, hcanvas,
    hg.used_without (hg.removeNode hok) hnode hnodes hedges⟩

end Removals

section Additions

variable {g h : Graph α}

theorem addNode_eq_ok {n : Node α} : g.addNode n = .ok h ↔
    g.containsId n.id = false ∧ h = { g with nodes := g.nodes ++ [n], ids := n.id :: g.ids } := by
  unfold addNode
  cases g.containsId n.id <;> simp [eq_comm]

theorem addEdge_eq_ok {e : Edge} : g.addEdge e = .ok h ↔
    g.containsId e.id = false ∧ g.missingEnd? e = none ∧
      h = { g with edges := g.edges ++ [e], ids := e.id :: g.ids } := by
  unfold addEdge
  cases g.containsId e.id <;> cases g.missingEnd? e <;> simp [eq_comm]

theorem WellFormed.free_iff (hg : g.WellFormed) {id : String} :
    g.containsId id = false ↔ id ∉ g.nodeIds ∧ id ∉ g.edgeIds := by
  rw [← Bool.not_eq_true, hg.containsId_iff, List.mem_append, not_or]

theorem Without.readmits {node : String} (h' : g.Without node h) : g.Readmits node h := by
  have hfree : ∀ id, g.containsId id = true →
      (h.containsId id = false ↔ g.GivesUp node id) := by
    intro id hid
    rw [← Bool.not_eq_true, h'.used id]
    simp [hid]
  constructor
  · intro n hn
    simp [Edit.addNode_run_ok, addNode_eq_ok, hfree n.id hn]
  · intro e he hsource htarget
    have hends := missingEnd?_eq_none.mpr ⟨hsource, htarget⟩
    simp [Edit.addEdge_run_ok, addEdge_eq_ok, hfree e.id he, hends]

/-- A new node is touched by no edge, so that nothing else goes with it. -/
theorem WellFormed.removeNode_addNode (hg : g.WellFormed) {n : Node α}
    (hadd : g.addNode n = .ok h) : h.removeNode n.id = .ok (n, g) := by
  obtain ⟨hfree, rfl⟩ := addNode_eq_ok.mp hadd
  have hnew : ∀ m ∈ g.nodes, m.id ≠ n.id := fun m hm heq =>
    (hg.free_iff.mp hfree).1 (heq ▸ List.mem_map_of_mem hm)
  have hapart : ∀ e ∈ g.edges, e.touches n.id = false := by
    intro e he
    obtain ⟨hsource, htarget⟩ := hg.joined e he
    have hne : ∀ id ∈ g.nodeIds, id ≠ n.id := fun id hid heq =>
      (hg.free_iff.mp hfree).1 (heq ▸ hid)
    simp [Edge.touches, hne _ hsource, hne _ htarget]
  have hfind : (g.nodes ++ [n]).find? (fun m => m.id == n.id) = some n := by
    rw [List.find?_append, List.find?_eq_none.mpr (by simpa using hnew)]
    simp
  have herase : (g.nodes ++ [n]).eraseP (fun m => m.id == n.id) = g.nodes := by
    rw [List.eraseP_append_right _ (by simpa using hnew)]
    simp
  have hnone : g.edges.filter (·.touches n.id) = [] := by
    simpa [List.filter_eq_nil_iff] using hapart
  have hall : (g.edges.filter fun e => !e.touches n.id) = g.edges := by
    simpa [List.filter_eq_self] using hapart
  unfold Graph.removeNode node?
  simp only [hfind, herase, hnone, hall, List.map_nil, List.foldl_nil, List.erase_cons_head]

theorem WellFormed.removeEdge_addEdge (hg : g.WellFormed) {e : Edge}
    (hadd : g.addEdge e = .ok h) : h.removeEdge e.id = .ok (e, g) := by
  obtain ⟨hfree, -, rfl⟩ := addEdge_eq_ok.mp hadd
  have hnew : ∀ d ∈ g.edges, d.id ≠ e.id := fun d hd heq =>
    (hg.free_iff.mp hfree).2 (heq ▸ List.mem_map_of_mem hd)
  have hfind : (g.edges ++ [e]).find? (fun d => d.id == e.id) = some e := by
    rw [List.find?_append, List.find?_eq_none.mpr (by simpa using hnew)]
    simp
  have herase : (g.edges ++ [e]).eraseP (fun d => d.id == e.id) = g.edges := by
    rw [List.eraseP_append_right _ (by simpa using hnew)]
    simp
  unfold Graph.removeEdge edge?
  simp only [hfind, herase, List.erase_cons_head]

end Additions

end Graph

namespace Operation

variable [Scalar α]

/-- In a graph that some session leads to, a node that is there is removed exactly: the other nodes
and the edges apart from it stay in order, and of the ids in use just those given up can be given
again. What has been added is removed again without a trace. -/
theorem removal_exact_undoes {g : Graph α} (ops : List (Operation α))
    (hg : session ops .empty = g) :
    (∀ id ∈ g.nodeIds, ∃ n h, (Edit.removeNode id).run g = .ok n h ∧ n ∈ g.nodes ∧ n.id = id ∧
        g.Without id h ∧ g.Readmits id h) ∧
      (∀ n h, (Edit.addNode n).run g = .ok () h → (Edit.removeNode n.id).run h = .ok n g) ∧
      ∀ e h, (Edit.addEdge e).run g = .ok () h → (Edit.removeEdge e.id).run h = .ok e g := by
  have hwell : g.WellFormed := hg ▸ session_wellFormed ops Graph.wellFormed_empty
  refine ⟨fun id hid => ?_, fun n h hadd => ?_, fun e h hadd => ?_⟩
  · obtain ⟨n, h, hremove, hn, hnid, hwithout⟩ := hwell.removeNode_without hid
    exact ⟨n, h, Edit.removeNode_run_ok.mpr hremove, hn, hnid, hwithout, hwithout.readmits⟩
  · exact Edit.removeNode_run_ok.mpr (hwell.removeNode_addNode (Edit.addNode_run_ok.mp hadd))
  · exact Edit.removeEdge_run_ok.mpr (hwell.removeEdge_addEdge (Edit.addEdge_run_ok.mp hadd))

def parallelSession : List (Operation Float) :=
  [.addNode ⟨"a", "", .origin, false, .ellipse⟩, .addNode ⟨"b", "", .origin, false, .ellipse⟩,
    .addNode ⟨"c", "", .origin, false, .ellipse⟩, .addEdge ⟨"ab", "a", "b", ""⟩,
    .addEdge ⟨"bc", "b", "c", ""⟩, .addEdge ⟨"aa", "a", "a", ""⟩, .addEdge ⟨"again", "a", "b", ""⟩]

/-- Without its first node the graph takes the id of a lost edge for a node, but not that of the
edge left; and an edge back comes and goes. -/
theorem removal_exact_undoes_parallel :
    (∃ n h, (Edit.removeNode "a").run (session parallelSession .empty) = .ok n h ∧
      h.edgeIds = ["bc"] ∧
      (∃ k, (Edit.addNode ⟨"aa", "", .origin, false, .ellipse⟩).run h = .ok () k) ∧
      ¬∃ k, (Edit.addNode ⟨"bc", "", .origin, false, .ellipse⟩).run h = .ok () k) ∧
    ∃ h, (Edit.addEdge ⟨"ba", "b", "a", ""⟩).run (session parallelSession .empty) = .ok () h ∧
      (Edit.removeEdge "ba").run h = .ok ⟨"ba", "b", "a", ""⟩ (session parallelSession .empty) := by
  obtain ⟨hremove, -, hundo⟩ := removal_exact_undoes parallelSession rfl
  constructor
  · obtain ⟨n, h, hrun, -, -, hwithout, hreadmits⟩ := hremove "a" (by decide)
    refine ⟨n, h, hrun, ?_, ?_, ?_⟩
    · rw [Graph.edgeIds, hwithout.edges]
      rfl
    · exact (hreadmits.nodes _ rfl).mpr (Or.inr ⟨⟨"aa", "a", "a", ""⟩, by decide, by decide, rfl⟩)
    · rw [hreadmits.nodes _ rfl]
      rintro (heq | ⟨e, he, htouch, heq⟩)
      · exact absurd heq (by decide)
      · revert e
        decide
  · have hadd : ∃ h, (Edit.addEdge ⟨"ba", "b", "a", ""⟩).run (session parallelSession .empty) =
        .ok () h := ⟨_, rfl⟩
    obtain ⟨h, hadd⟩ := hadd
    exact ⟨h, hadd, hundo _ h hadd⟩

end Operation

end GraphScribe
