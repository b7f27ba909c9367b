import GraphScribe.Proofs.Diagram.OfGraph
import Mathlib.Combinatorics.SimpleGraph.Connectivity.Connected
import Mathlib.Logic.Relation

/-! # Links between boxes

The links of a diagram as a relation on the indices of boxes, and what the boxes keep of it. A diagram
that has been built from boxes without links, by adding links between boxes that are there, lists
every link at both of its ends, as often as it has been added. -/
namespace GraphScribe

variable {α : Type}

theorem insertSorted_cons (v w : Nat) (ws : List Nat) : insertSorted v (w :: ws) =
    if v ≤ w then v :: w :: ws else w :: insertSorted v ws := rfl

theorem insertSorted_perm (v : Nat) (ws : List Nat) : (insertSorted v ws).Perm (v :: ws) := by
  induction ws with
  | nil => exact .refl _
  | cons w ws ih =>
    rw [insertSorted_cons]
    by_cases hvw : v ≤ w
    · rw [if_pos hvw]
    · rw [if_neg hvw]
      exact (ih.cons w).trans (.swap v w ws)

def Closed (G : SimpleGraph Nat) (vs : List Nat) : Prop := ∀ v ∈ vs, ∀ w, G.Adj v w → w ∈ vs

/-- What is left of closed boxes without one connected component is closed again. -/
theorem Closed.left {G : SimpleGraph Nat} {vs component left : List Nat} (h : Closed G vs)
    (hvs : vs.Nodup) (hperm : (component ++ left).Perm vs) {r : Nat}
    (hcomponent : ∀ v, v ∈ component ↔ G.Reachable r v) : Closed G left := by
  intro v hv w hadj
  have hw := h v (hperm.mem_iff.mp (List.mem_append_right _ hv)) w hadj
  rcases List.mem_append.mp (hperm.mem_iff.mpr hw) with hw | hw
  · have hreach := ((hcomponent w).mp hw).trans hadj.symm.reachable
    have hdisjoint := List.disjoint_of_nodup_append (hperm.nodup_iff.mpr hvs)
    exact absurd hv (hdisjoint ((hcomponent v).mpr hreach))
  · exact hw

/-- Boxes without the first of the starts are among the starts after it. -/
theorem mem_later {left starts : List Nat} {r : Nat} (hstarts : ∀ v ∈ left, v ∈ r :: starts)
    (hr : r ∉ left) : ∀ v ∈ left, v ∈ starts := by
  intro v hv
  rcases List.mem_cons.mp (hstarts v hv) with rfl | hlater
  · exact absurd hv hr
  · exact hlater

namespace Diagram

/-- The diagrams that come about: boxes come without links, links join boxes that are there, and
boxes may be moved at any time. -/
inductive Built [Scalar α] : Diagram α → Prop where
  | empty : Built .empty
  | addBox {d : Diagram α} {b : Box α} (hd : Built d) (hout : b.outgoing = [])
      (hin : b.incoming = []) : Built (d.addBox b)
  | addLink {d : Diagram α} {l : Link} (hd : Built d) (hsource : l.source < d.count)
      (hsink : l.sink < d.count) : Built (d.addLink l)
  | setPosition {d : Diagram α} (hd : Built d) (v : Nat) (p : Point α) : Built (d.setPosition v p)
  | translate {d : Diagram α} (hd : Built d) (offset : Point α) : Built (d.translate offset)

def ends (d : Diagram α) : List (Nat × Nat) := d.links.toList.map Link.ends

def Links (d : Diagram α) (v w : Nat) : Prop := (v, w) ∈ d.ends

instance (d : Diagram α) (v w : Nat) : Decidable (d.Links v w) :=
  inferInstanceAs (Decidable ((v, w) ∈ d.ends))

def Leads (d : Diagram α) (v w : Nat) : Prop := v ≠ w ∧ d.Links v w

instance (d : Diagram α) (v w : Nat) : Decidable (d.Leads v w) :=
  inferInstanceAs (Decidable (_ ∧ _))

def joined (d : Diagram α) : SimpleGraph Nat := .fromRel d.Links

/-- Every link is listed at both of its ends, as often as there are links between them. -/
structure Linked (d : Diagram α) : Prop where
  inside : ∀ e ∈ d.ends, e.1 < d.count ∧ e.2 < d.count
  count_successors : ∀ v w, (d.successors v).count w = d.ends.count (v, w)
  count_predecessors : ∀ v w, (d.predecessors w).count v = d.ends.count (v, w)

theorem ends_addLink (d : Diagram α) (l : Link) : (d.addLink l).ends = d.ends ++ [l.ends] := by
  simp [ends, addLink]

theorem links_addLinks (d : Diagram α) (ls : List Link) :
    (ls.foldl Diagram.addLink d).links.toList = d.links.toList ++ ls := by
  induction ls generalizing d with
  | nil => simp
  | cons l ls ih =>
    rw [List.foldl_cons, ih]
    simp [addLink]

theorem ends_addLinks (d : Diagram α) (ls : List Link) :
    (ls.foldl Diagram.addLink d).ends = d.ends ++ ls.map Link.ends := by
  rw [ends, links_addLinks, List.map_append]
  rfl

def wired (bs : Array (Box α)) (es : List (Nat × Nat)) : Diagram α :=
  (es.map fun e => ⟨e.1, e.2, ""⟩).foldl Diagram.addLink ⟨bs, #[]⟩

theorem ends_unlabelled (es : List (Nat × Nat)) :
    (es.map fun e => (⟨e.1, e.2, ""⟩ : Link)).map Link.ends = es := by
  simp [Link.ends, Function.comp_def]

theorem links_wired {bs : Array (Box α)} {es : List (Nat × Nat)} {v w : Nat} :
    (wired bs es).Links v w ↔ (v, w) ∈ es := by
  rw [Links, wired, ends_addLinks, ends_unlabelled]
  simp [ends]

theorem count_addLink (d : Diagram α) (l : Link) : (d.addLink l).count = d.count := by
  simp [count, addLink]

theorem modify_id {β : Type} (bs : Array β) (i : Nat) : bs.modify i id = bs := by
  apply Array.ext_getElem?
  simp [Array.getElem?_modify]

theorem getD_modify {bs : Array (List Nat)} {i : Nat} (hi : i < bs.size) (f : List Nat → List Nat)
    (v : Nat) : ((bs.modify i f)[v]?).getD [] =
      if v = i then f (bs[v]?.getD []) else bs[v]?.getD [] := by
  rw [Array.getElem?_modify]
  by_cases hv : v = i
  · subst hv
    simp [hi]
  · rw [if_neg (Ne.symm hv), if_neg hv]

theorem successors_eq (d : Diagram α) (v : Nat) :
    d.successors v = ((d.boxes.map Box.outgoing)[v]?).getD [] := by
  rw [Array.getElem?_map]
  rfl

theorem predecessors_eq (d : Diagram α) (v : Nat) :
    d.predecessors v = ((d.boxes.map Box.incoming)[v]?).getD [] := by
  rw [Array.getElem?_map]
  rfl

theorem successors_addLink (d : Diagram α) {l : Link} (hsource : l.source < d.count) (v : Nat) :
    (d.addLink l).successors v =
      if v = l.source then insertSorted l.sink (d.successors v) else d.successors v := by
  have hsink : ∀ b : Box α, (b.withSink l.sink).outgoing = insertSorted l.sink b.outgoing :=
    fun _ => rfl
  have hsource' : ∀ b : Box α, (b.withSource l.source).outgoing = id b.outgoing := fun _ => rfl
  rw [successors_eq, successors_eq, addLink_boxes, joinBoxes, Link.ends, map_modify hsource',
    map_modify hsink, modify_id]
  exact getD_modify (by rwa [Array.size_map]) _ v

theorem predecessors_addLink (d : Diagram α) {l : Link} (hsink : l.sink < d.count) (w : Nat) :
    (d.addLink l).predecessors w =
      if w = l.sink then insertSorted l.source (d.predecessors w) else d.predecessors w := by
  have hsource : ∀ b : Box α, (b.withSource l.source).incoming = insertSorted l.source b.incoming :=
    fun _ => rfl
  have hsink' : ∀ b : Box α, (b.withSink l.sink).incoming = id b.incoming := fun _ => rfl
  rw [predecessors_eq, predecessors_eq, addLink_boxes, joinBoxes, Link.ends, map_modify hsource,
    map_modify hsink', modify_id]
  exact getD_modify (by rwa [Array.size_map]) _ w

theorem successors_addBox (d : Diagram α) {b : Box α} (hout : b.outgoing = []) :
    (d.addBox b).successors = d.successors := by
  funext v
  unfold successors addBox
  rw [Array.getElem?_push]
  split
  · rename_i hv
    subst hv
    simp [hout]
  · rfl

theorem predecessors_addBox (d : Diagram α) {b : Box α} (hin : b.incoming = []) :
    (d.addBox b).predecessors = d.predecessors := by
  funext v
  unfold predecessors addBox
  rw [Array.getElem?_push]
  split
  · rename_i hv
    subst hv
    simp [hin]
  · rfl

theorem Linked.addBox {d : Diagram α} (h : d.Linked) {b : Box α} (hout : b.outgoing = [])
    (hin : b.incoming = []) : (d.addBox b).Linked := by
  have hends : (d.addBox b).ends = d.ends := rfl
  have hcount : (d.addBox b).count = d.count + 1 := by simp [count, Diagram.addBox]
  constructor
  · intro e he
    have hinside := h.inside e he
    omega
  · rw [successors_addBox d hout, hends]
    exact h.count_successors
  · rw [predecessors_addBox d hin, hends]
    exact h.count_predecessors

theorem Linked.addLink {d : Diagram α} (h : d.Linked) {l : Link} (hsource : l.source < d.count)
    (hsink : l.sink < d.count) : (d.addLink l).Linked := by
  constructor
  · intro e he
    rw [count_addLink]
    rw [ends_addLink, List.mem_append, List.mem_singleton] at he
    rcases he with he | rfl
    · exact h.inside e he
    · exact ⟨hsource, hsink⟩
  · intro v w
    rw [successors_addLink d hsource, ends_addLink, List.count_append, ← h.count_successors]
    by_cases hv : v = l.source
    · rw [if_pos hv, (insertSorted_perm _ _).count_eq, List.count_cons]
      simp [List.count_singleton, Link.ends, hv]
    · rw [if_neg hv]
      simp [Link.ends, Ne.symm hv]
  · intro v w
    rw [predecessors_addLink d hsink, ends_addLink, List.count_append, ← h.count_predecessors]
    by_cases hw : w = l.sink
    · rw [if_pos hw, (insertSorted_perm _ _).count_eq, List.count_cons]
      simp [List.count_singleton, Link.ends, hw]
    · rw [if_neg hw]
      simp [Link.ends, Ne.symm hw]

theorem Linked.moved {d e : Diagram α} (h : d.Linked) (hlinks : e.links = d.links)
    (hout : e.boxes.map Box.outgoing = d.boxes.map Box.outgoing)
    (hin : e.boxes.map Box.incoming = d.boxes.map Box.incoming) : e.Linked := by
  have hends : e.ends = d.ends := by rw [ends, ends, hlinks]
  have hcount : e.count = d.count := by
    have hsize := congrArg Array.size hout
    rwa [Array.size_map, Array.size_map] at hsize
  constructor
  · rw [hends, hcount]
    exact h.inside
  · intro v w
    rw [successors_eq, hout, ← successors_eq, hends, h.count_successors]
  · intro v w
    rw [predecessors_eq, hin, ← predecessors_eq, hends, h.count_predecessors]

theorem outgoing_setPosition (d : Diagram α) (v : Nat) (p : Point α) :
    (d.setPosition v p).boxes.map Box.outgoing = d.boxes.map Box.outgoing := by
  have hkeep : ∀ b : Box α, { b with position := p }.outgoing = id b.outgoing := fun _ => rfl
  rw [Diagram.setPosition, map_modify hkeep, modify_id]

theorem incoming_setPosition (d : Diagram α) (v : Nat) (p : Point α) :
    (d.setPosition v p).boxes.map Box.incoming = d.boxes.map Box.incoming := by
  have hkeep : ∀ b : Box α, { b with position := p }.incoming = id b.incoming := fun _ => rfl
  rw [Diagram.setPosition, map_modify hkeep, modify_id]

section Built

variable [Scalar α] {d : Diagram α}

theorem Built.linked (h : d.Built) : d.Linked := by
  induction h with
  | empty => exact ⟨by simp [ends, Diagram.empty], fun _ _ => rfl, fun _ _ => rfl⟩
  | addBox _ hout hin ih => exact ih.addBox hout hin
  | addLink _ hsource hsink ih => exact ih.addLink hsource hsink
  | setPosition _ v p ih =>
    exact ih.moved rfl (outgoing_setPosition _ v p) (incoming_setPosition _ v p)
  | translate _ offset ih =>
    refine ih.moved rfl ?_ ?_
    · exact Array.map_map
    · exact Array.map_map

theorem Built.addLinks (h : d.Built) {ls : List Link}
    (hls : ∀ l ∈ ls, l.source < d.count ∧ l.sink < d.count) : (ls.foldl Diagram.addLink d).Built := by
  induction ls generalizing d with
  | nil => exact h
  | cons l ls ih =>
    obtain ⟨hl, hls⟩ := List.forall_mem_cons.mp hls
    apply ih (h.addLink hl.1 hl.2)
    rwa [count_addLink]

theorem built_unlinked (bs : List (Box α)) (h : ∀ b ∈ bs, b.outgoing = [] ∧ b.incoming = []) :
    Built ⟨bs.toArray, #[]⟩ := by
  induction bs using List.reverseRecOn with
  | nil => exact .empty
  | append_singleton bs b ih =>
    obtain ⟨hbs, hb⟩ := List.forall_mem_append.mp h
    obtain ⟨hout, hin⟩ := hb b (List.mem_singleton_self b)
    have hpush := (ih hbs).addBox hout hin
    simpa [Diagram.addBox] using hpush

theorem built_boxes (m : Metrics α) (ns : List (Node α)) :
    Built ⟨(ns.map (boxOf m)).toArray, #[]⟩ := by
  apply built_unlinked
  intro b hb
  obtain ⟨n, -, rfl⟩ := List.mem_map.mp hb
  exact ⟨rfl, rfl⟩

/-- The diagram of a graph whose edges join its nodes comes about in this way. -/
theorem built_ofWellFormed {g : Graph α} (h : g.WellFormed) (m : Metrics α) :
    (ofWellFormed m g).Built := by
  apply (built_boxes m g.nodes).addLinks
  intro l hl
  obtain ⟨e, he, rfl⟩ := List.mem_map.mp hl
  have hcount : (Diagram.mk (g.nodes.map (boxOf m)).toArray #[]).count = g.nodeIds.length := by
    simp [count, Graph.nodeIds]
  rw [hcount]
  constructor
  · exact List.idxOf_lt_length_iff.mpr (h.joined e he).1
  · exact List.idxOf_lt_length_iff.mpr (h.joined e he).2

theorem built_wired {bs : Array (Box α)} (hbs : Built ⟨bs, #[]⟩) {es : List (Nat × Nat)}
    (h : ∀ e ∈ es, e.1 < bs.size ∧ e.2 < bs.size) : (wired bs es).Built := by
  apply hbs.addLinks
  intro l hl
  obtain ⟨e, he, rfl⟩ := List.mem_map.mp hl
  exact h e he

def sketch (n : Nat) (es : List (Nat × Nat)) : Diagram α :=
  (es.map fun e => ⟨e.1, e.2, ""⟩).foldl Diagram.addLink
    ⟨Array.replicate n (Box.fresh "" "" .zero), #[]⟩

theorem built_sketch {n : Nat} {es : List (Nat × Nat)} (h : ∀ e ∈ es, e.1 < n ∧ e.2 < n) :
    (sketch n es : Diagram α).Built := by
  have hblank : Built (⟨Array.replicate n (Box.fresh "" "" .zero), #[]⟩ : Diagram α) := by
    rw [← List.toArray_replicate]
    apply built_unlinked
    intro b hb
    rw [List.eq_of_mem_replicate hb]
    exact ⟨rfl, rfl⟩
  apply built_wired hblank
  simpa using h

theorem links_sketch {n : Nat} {es : List (Nat × Nat)} {v w : Nat} :
    (sketch n es : Diagram α).Links v w ↔ (v, w) ∈ es := links_wired

def sized (sizes : List (Size Nat)) (es : List (Nat × Nat)) : Diagram α :=
  wired (sizes.map fun s =>
    Box.fresh "" "" ⟨Scalar.ofNat s.width, Scalar.ofNat s.height⟩).toArray es

theorem links_sized {sizes : List (Size Nat)} {es : List (Nat × Nat)} {v w : Nat} :
    (sized sizes es : Diagram α).Links v w ↔ (v, w) ∈ es := links_wired

theorem built_sized {sizes : List (Size Nat)} {es : List (Nat × Nat)}
    (h : ∀ e ∈ es, e.1 < sizes.length ∧ e.2 < sizes.length) :
    (sized sizes es : Diagram α).Built := by
  apply built_wired
  · apply built_unlinked
    intro b hb
    obtain ⟨s, -, rfl⟩ := List.mem_map.mp hb
    exact ⟨rfl, rfl⟩
  · simpa using h

end Built

variable {d : Diagram α}

namespace Linked

theorem mem_successors (h : d.Linked) {v w : Nat} : w ∈ d.successors v ↔ d.Links v w := by
  rw [← List.count_pos_iff, h.count_successors, List.count_pos_iff, Links]

theorem mem_predecessors (h : d.Linked) {v w : Nat} : v ∈ d.predecessors w ↔ d.Links v w := by
  rw [← List.count_pos_iff, h.count_predecessors, List.count_pos_iff, Links]

theorem count_eq (h : d.Linked) (v w : Nat) :
    (d.successors v).count w = (d.predecessors w).count v := by
  rw [h.count_successors, h.count_predecessors]

theorem lt (h : d.Linked) {v w : Nat} (hvw : d.Links v w) : v < d.count ∧ w < d.count :=
  h.inside (v, w) hvw

theorem lt_of_leads (h : d.Linked) {v w : Nat} (hvw : d.Leads v w) : v < d.count ∧ w < d.count :=
  h.lt hvw.2

end Linked

theorem joined_adj {v w : Nat} : d.joined.Adj v w ↔ v ≠ w ∧ (d.Links v w ∨ d.Links w v) :=
  SimpleGraph.fromRel_adj d.Links v w

theorem Linked.lt_of_adj (h : d.Linked) {v w : Nat} (hadj : d.joined.Adj v w) :
    v < d.count ∧ w < d.count := by
  rcases (joined_adj.mp hadj).2 with hlink | hlink
  · exact h.lt hlink
  · exact (h.lt hlink).symm

def gather (ws : List Nat) : List Nat :=
  ws.foldr (fun w us => if us.contains w then us else insertSorted w us) []

theorem gather_cons (w : Nat) (ws : List Nat) : gather (w :: ws) =
    if w ∈ gather ws then gather ws else insertSorted w (gather ws) := by
  by_cases hw : w ∈ gather ws
  · rw [if_pos hw]
    exact if_pos (List.contains_iff_mem.mpr hw)
  · rw [if_neg hw]
    exact if_neg (mt List.contains_iff_mem.mp hw)

theorem mem_gather {x : Nat} {ws : List Nat} : x ∈ gather ws ↔ x ∈ ws := by
  induction ws with
  | nil => rfl
  | cons w ws ih =>
    rw [gather_cons, List.mem_cons]
    by_cases hw : w ∈ gather ws
    · rw [if_pos hw]
      constructor
      · intro hx
        exact .inr (ih.mp hx)
      · rintro (rfl | hx)
        · exact hw
        · exact ih.mpr hx
    · rw [if_neg hw, (insertSorted_perm _ _).mem_iff, List.mem_cons, ih]

theorem nodup_gather (ws : List Nat) : (gather ws).Nodup := by
  induction ws with
  | nil => exact .nil
  | cons w ws ih =>
    rw [gather_cons]
    by_cases hw : w ∈ gather ws
    · rw [if_pos hw]
      exact ih
    · rw [if_neg hw]
      exact (insertSorted_perm _ _).nodup_iff.mpr (List.nodup_cons.mpr ⟨hw, ih⟩)

theorem neighbors_eq (d : Diagram α) (v : Nat) :
    d.neighbors v = gather ((d.successors v ++ d.predecessors v).filter (· != v)) := rfl

theorem nodup_neighbors (d : Diagram α) (v : Nat) : (d.neighbors v).Nodup := by
  rw [neighbors_eq]
  exact nodup_gather _

theorem Linked.mem_neighbors (h : d.Linked) {v w : Nat} :
    w ∈ d.neighbors v ↔ d.joined.Adj v w := by
  rw [neighbors_eq, mem_gather, List.mem_filter, List.mem_append, h.mem_successors,
    h.mem_predecessors, joined_adj, and_comm, bne_iff_ne, ne_comm]

end Diagram

end GraphScribe
