import GraphScribe.Proofs.Diagram.Ascending
import GraphScribe.Proofs.Placement.Session
import GraphScribe.Proofs.Token.Lookup

/-! # Adjacency

What a box lists are the ends of its links in ascending order, one entry a link; its neighbours are
the other boxes that share a link with it, each once. So it is in every diagram that has been built
and in the diagram of every graph that a session leaves. Places in the lists may be found by binary
search, whichever one of several equal entries the search comes upon. -/
namespace GraphScribe

inductive Spot where
  | held (i : Nat)
  | free (i : Nat)
  deriving DecidableEq, Repr

namespace Spot

def index : Spot → Nat
  | held i => i
  | free i => i

def isHeld : Spot → Bool
  | held _ => true
  | free _ => false

/-- The answer is right: any place that holds the element or, where none does, the place between the
smaller entries and the larger ones. -/
inductive Answers (v : Nat) (ws : List Nat) : Spot → Prop where
  | held {i : Nat} (h : ws[i]? = some v) : Answers v ws (.held i)
  | free {i : Nat} (hi : i ≤ ws.length) (hbelow : ∀ w ∈ ws.take i, w < v)
      (habove : ∀ w ∈ ws.drop i, v < w) : Answers v ws (.free i)

end Spot

variable {v : Nat} {ws : List Nat} {s : Spot}

theorem insertSorted_of_le (h : ∀ w ∈ ws, v ≤ w) : insertSorted v ws = v :: ws := by
  cases ws with
  | nil => rfl
  | cons w ws => exact if_pos (h w List.mem_cons_self)

/-- Between the entries that are not larger and those that are not smaller, one place is as good as
another. -/
theorem insertIdx_eq_insertSorted (hws : ws.Pairwise (· ≤ ·)) {i : Nat} (hi : i ≤ ws.length)
    (hbelow : ∀ w ∈ ws.take i, w ≤ v) (habove : ∀ w ∈ ws.drop i, v ≤ w) :
    ws.insertIdx i v = insertSorted v ws := by
  induction ws generalizing i with
  | nil =>
    obtain rfl : i = 0 := Nat.le_zero.mp hi
    rfl
  | cons w ws ih =>
    obtain ⟨hw, hws⟩ := List.pairwise_cons.mp hws
    cases i with
    | zero => exact (insertSorted_of_le habove).symm
    | succ i =>
      rw [List.take_succ_cons, List.forall_mem_cons] at hbelow
      rw [List.insertIdx_succ_cons, ih hws (Nat.le_of_succ_le_succ hi) hbelow.2 habove,
        insertSorted_cons]
      by_cases hvw : v ≤ w
      · obtain rfl : v = w := le_antisymm hvw hbelow.1
        rw [if_pos hvw, insertSorted_of_le hw]
      · rw [if_neg hvw]

theorem getElem_le_getElem (hws : ws.Pairwise (· ≤ ·)) {i j : Nat} (hij : i ≤ j)
    (hj : j < ws.length) : ws[i] ≤ ws[j] := by
  rcases Nat.eq_or_lt_of_le hij with rfl | hlt
  · exact le_rfl
  · exact List.pairwise_iff_getElem.mp hws i j _ hj hlt

theorem Spot.Answers.insertIdx_eq (h : s.Answers v ws) (hws : ws.Pairwise (· ≤ ·)) :
    ws.insertIdx s.index v = insertSorted v ws := by
  cases h with
  | @held i hi =>
    obtain ⟨hlt, hv⟩ := List.getElem?_eq_some_iff.mp hi
    apply insertIdx_eq_insertSorted hws hlt.le
    · intro w hw
      obtain ⟨j, hj, rfl⟩ := List.mem_take_iff_getElem.mp hw
      rw [← hv]
      exact getElem_le_getElem hws (by omega) hlt
    · intro w hw
      obtain ⟨j, hj, rfl⟩ := List.mem_drop_iff_getElem.mp hw
      rw [← hv]
      exact getElem_le_getElem hws (Nat.le_add_right i j) (by omega)
  | free hi hbelow habove =>
    exact insertIdx_eq_insertSorted hws hi (fun w hw => (hbelow w hw).le)
      fun w hw => (habove w hw).le

theorem Spot.Answers.isHeld_eq (h : s.Answers v ws) : s.isHeld = ws.contains v := by
  cases h with
  | held h => exact (List.contains_iff_mem.mpr (List.mem_of_getElem? h)).symm
  | @free i hi hbelow habove =>
    have hv : v ∉ ws := by
      intro hv
      rw [← List.take_append_drop i ws, List.mem_append] at hv
      rcases hv with hv | hv
      · exact (hbelow v hv).false
      · exact (habove v hv).false
    rw [Spot.isHeld, eq_comm, Bool.eq_false_iff, ne_eq, List.contains_iff_mem]
    exact hv

def Locates (locate : Nat → List Nat → Spot) : Prop :=
  ∀ v ws, ws.Pairwise (· ≤ ·) → (locate v ws).Answers v ws

def halving (v : Nat) (ws : List Nat) : Spot :=
  let i := frontCount ws.toArray fun w => w < v
  if ws[i]? = some v then .held i else .free i

theorem locates_halving : Locates halving := by
  intro v ws hws
  have hfront : FrontLoaded (fun w => w < v) ws.toArray.toList := by
    apply hws.imp
    intro a b hab hb
    simp only [decide_eq_true_eq] at hb ⊢
    exact lt_of_le_of_lt hab hb
  have hsize := (frontCount_splits hfront).1
  obtain ⟨hbelow, habove⟩ := frontCount_border hfront
  rw [halving]
  generalize (frontCount ws.toArray fun w => w < v) = i at hsize hbelow habove
  by_cases hi : ws[i]? = some v
  · rw [if_pos hi]
    exact .held hi
  · rw [if_neg hi]
    refine .free hsize (by simpa using hbelow) ?_
    intro w hw
    -- an entry equal to `v` further on would make the one at `i` equal to it, too
    obtain ⟨j, hj, rfl⟩ := List.mem_drop_iff_getElem.mp hw
    have hlt : i < ws.length := by omega
    have hge : v ≤ ws[i] := by
      have hnot := habove ws[i] (List.mem_drop_iff_getElem.mpr ⟨0, by simpa using hlt, rfl⟩)
      simpa using hnot
    have hne : v ≠ ws[i] := fun heq => hi (List.getElem?_eq_some_iff.mpr ⟨hlt, heq.symm⟩)
    exact lt_of_lt_of_le (lt_of_le_of_ne hge hne)
      (getElem_le_getElem hws (Nat.le_add_right i j) (by omega))

namespace Diagram

variable {α : Type} {d : Diagram α}

def addLinkBy (locate : Nat → List Nat → Spot) (d : Diagram α) (l : Link) : Diagram α where
  boxes := (d.boxes.modify l.source fun b =>
      { b with outgoing := b.outgoing.insertIdx (locate l.sink b.outgoing).index l.sink }
    ).modify l.sink fun b =>
      { b with incoming := b.incoming.insertIdx (locate l.source b.incoming).index l.source }
  links := d.links.push l

def hasLinkBy (locate : Nat → List Nat → Spot) (d : Diagram α) (source sink : Nat) : Bool :=
  (locate sink (d.successors source)).isHeld

theorem modify_congr {β : Type} {bs : Array β} {i : Nat} {f g : β → β}
    (h : ∀ b, bs[i]? = some b → f b = g b) : bs.modify i f = bs.modify i g := by
  apply Array.ext_getElem?
  intro j
  rw [Array.getElem?_modify, Array.getElem?_modify]
  by_cases hij : i = j
  · subst hij
    rw [if_pos rfl, if_pos rfl]
    exact Option.map_congr h
  · rw [if_neg hij, if_neg hij]

theorem addLinkBy_eq {locate : Nat → List Nat → Spot} (hlocate : Locates locate)
    (hd : d.Ascending) (l : Link) : d.addLinkBy locate l = d.addLink l := by
  have hsinks : (d.boxes.modify l.source fun b =>
      { b with outgoing := b.outgoing.insertIdx (locate l.sink b.outgoing).index l.sink }) =
        d.boxes.modify l.source (.withSink l.sink) := by
    apply modify_congr
    intro b hb
    have hlist : d.successors l.source = b.outgoing := by rw [successors, hb]; rfl
    have hascending := hlist ▸ hd.successors l.source
    rw [(hlocate _ _ hascending).insertIdx_eq hascending]
    rfl
  have hsources : ((d.boxes.modify l.source (.withSink l.sink)).modify l.sink fun b =>
      { b with incoming := b.incoming.insertIdx (locate l.source b.incoming).index l.source }) =
        joinBoxes d.boxes l.ends := by
    apply modify_congr
    intro b hb
    -- the box may be the source as well, whose incoming links are as they were
    have hkeep : ∀ b : Box α, (b.withSink l.sink).incoming = id b.incoming := fun _ => rfl
    have hlist : d.predecessors l.sink = b.incoming := by
      rw [predecessors_eq, ← modify_id (d.boxes.map Box.incoming) l.source, ← map_modify hkeep,
        Array.getElem?_map, hb]
      rfl
    have hascending := hlist ▸ hd.predecessors l.sink
    rw [(hlocate _ _ hascending).insertIdx_eq hascending]
    rfl
  rw [addLinkBy, hsinks, hsources]
  rfl

theorem hasLinkBy_eq {locate : Nat → List Nat → Spot} (hlocate : Locates locate)
    (hd : d.Ascending) (v w : Nat) : d.hasLinkBy locate v w = d.hasLink v w :=
  (hlocate w _ (hd.successors v)).isHeld_eq

def sinksFrom (d : Diagram α) (v : Nat) : List Nat :=
  (d.links.toList.filter fun l => l.source == v).map Link.sink

def sourcesInto (d : Diagram α) (w : Nat) : List Nat :=
  (d.links.toList.filter fun l => l.sink == w).map Link.source

theorem count_sinksFrom (d : Diagram α) (v w : Nat) :
    (d.sinksFrom v).count w = d.ends.count (v, w) := by
  rw [sinksFrom, ends, List.count, List.count, List.countP_map, List.countP_filter,
    List.countP_map]
  apply List.countP_congr
  intro l _
  simp [Link.ends, and_comm]

theorem count_sourcesInto (d : Diagram α) (v w : Nat) :
    (d.sourcesInto w).count v = d.ends.count (v, w) := by
  rw [sourcesInto, ends, List.count, List.count, List.countP_map, List.countP_filter,
    List.countP_map]
  apply List.countP_congr
  intro l _
  simp [Link.ends]

theorem links_iff {v w : Nat} : d.Links v w ↔ ∃ l ∈ d.links, l.source = v ∧ l.sink = w := by
  simp [Links, ends, Link.ends]

/-- The lists of the boxes are the links, read in ascending order. -/
structure Adjacency (d : Diagram α) : Prop where
  successors_perm : ∀ v, (d.successors v).Perm (d.sinksFrom v)
  successors_ascending : ∀ v, (d.successors v).Pairwise (· ≤ ·)
  predecessors_perm : ∀ v, (d.predecessors v).Perm (d.sourcesInto v)
  predecessors_ascending : ∀ v, (d.predecessors v).Pairwise (· ≤ ·)
  hasLink_iff : ∀ v w, d.hasLink v w = true ↔ ∃ l ∈ d.links, l.source = v ∧ l.sink = w
  neighbors_ascending : ∀ v, (d.neighbors v).Pairwise (· < ·)
  neighbors_irrefl : ∀ v, v ∉ d.neighbors v
  neighbors_symm : ∀ v w, w ∈ d.neighbors v ↔ v ∈ d.neighbors w
  mem_neighbors : ∀ v w, w ∈ d.neighbors v ↔ v ≠ w ∧
    ∃ l ∈ d.links, l.source = v ∧ l.sink = w ∨ l.source = w ∧ l.sink = v

theorem Linked.adjacency (h : d.Linked) (hascending : d.Ascending) : d.Adjacency where
  successors_perm v := by
    rw [List.perm_iff_count]
    intro w
    rw [h.count_successors, count_sinksFrom]
  successors_ascending := hascending.successors
  predecessors_perm w := by
    rw [List.perm_iff_count]
    intro v
    rw [h.count_predecessors, count_sourcesInto]
  predecessors_ascending := hascending.predecessors
  hasLink_iff v w := by
    rw [hasLink, List.contains_iff_mem, h.mem_successors, links_iff]
  neighbors_ascending v := gather_ascending _
  neighbors_irrefl v hv := (h.mem_neighbors.mp hv).ne rfl
  neighbors_symm v w := by
    rw [h.mem_neighbors, h.mem_neighbors, d.joined.adj_comm]
  mem_neighbors v w := by
    rw [h.mem_neighbors, joined_adj, links_iff, links_iff]
    simp only [and_or_left, exists_or]

theorem Built.adjacency [Scalar α] (h : d.Built) : d.Adjacency := h.linked.adjacency h.ascending

section Graphs

variable [Scalar α] {g : Graph α}

/-- Box `i` shows node `i`, and link `j` runs as edge `j` does. -/
structure Mirrors (m : Metrics α) (g : Graph α) (d : Diagram α) : Prop where
  boxes : d.boxes.toList.map Box.alone = g.nodes.map (boxOf m)
  ids_nodup : (d.boxes.toList.map (·.id)).Nodup
  links_size : d.links.size = g.edges.length
  link : ∀ (j : Nat) (e : Edge), g.edges[j]? = some e → ∃ (l : Link) (b c : Box α),
    d.links[j]? = some l ∧ l.label = e.label ∧ d.boxes[l.source]? = some b ∧ b.id = e.source ∧
      d.boxes[l.sink]? = some c ∧ c.id = e.target

theorem links_ofWellFormed (m : Metrics α) (g : Graph α) :
    (ofWellFormed m g).links.toList = g.edges.map g.link := by
  rw [ofWellFormed, links_addLinks]
  rfl

theorem box_of_node (m : Metrics α) {id : String} (h : id ∈ g.nodeIds) :
    ∃ b, (ofWellFormed m g).boxes[g.nodeIds.idxOf id]? = some b ∧ b.id = id := by
  have hids : (ofWellFormed m g).boxes.toList.map (·.id) = g.nodeIds :=
    map_ofWellFormed (fun _ => rfl) m g
  have hid := List.getElem?_idxOf h
  rw [← hids, List.getElem?_map, Option.map_eq_some_iff, hids] at hid
  simpa using hid

theorem mirrors_ofWellFormed (h : g.WellFormed) (m : Metrics α) :
    (ofWellFormed m g).Mirrors m g := by
  constructor
  · exact ofWellFormed_alone m g
  · rw [map_ofWellFormed (fun _ => rfl)]
    exact (List.nodup_append.mp h.distinct).1
  · rw [← Array.length_toList, links_ofWellFormed, List.length_map]
  · intro j e he
    obtain ⟨hsource, htarget⟩ := h.joined e (List.mem_of_getElem? he)
    obtain ⟨b, hb, hbid⟩ := box_of_node m hsource
    obtain ⟨c, hc, hcid⟩ := box_of_node m htarget
    refine ⟨g.link e, b, c, ?_, rfl, hb, hbid, hc, hcid⟩
    rw [← Array.getElem?_toList, links_ofWellFormed, List.getElem?_map, he]
    rfl

open Operation (session)

/-- In every diagram that is built by adding boxes and links the lists of the boxes are the links,
read in ascending order, and it makes no difference if their places are found by binary search. The
diagram of the graph after any session is such a diagram: its boxes are the nodes and its links the
edges, in the same order and with the same ends. -/
theorem adjacency_of_links (α : Type) [Scalar α] :
    (∀ d : Diagram α, d.Built → d.Adjacency ∧ ∀ locate, Locates locate →
      (∀ l, d.addLinkBy locate l = d.addLink l) ∧
        ∀ v w, d.hasLinkBy locate v w = d.hasLink v w) ∧
      ∀ (ops : List (Operation α)) (m : Metrics α), ∃ d : Diagram α,
        ofGraph m (session ops .empty) = .ok d ∧ d.Built ∧ d.Adjacency ∧
          d.Mirrors m (session ops .empty) := by
  constructor
  · intro d hd
    refine ⟨hd.adjacency, ?_⟩
    intro locate hlocate
    exact ⟨addLinkBy_eq hlocate hd.ascending, hasLinkBy_eq hlocate hd.ascending⟩
  · intro ops m
    have hwell : (session ops (.empty : Graph α)).WellFormed :=
      Operation.session_wellFormed ops Graph.wellFormed_empty
    have hbuilt := built_ofWellFormed hwell m
    exact ⟨_, ofGraph_eq hwell m, hbuilt, hbuilt.adjacency, mirrors_ofWellFormed hwell m⟩

def parallel : Diagram Float := sketch 3 [(0, 2), (0, 1), (0, 2), (1, 1)]

def rewired : List (Operation Float) :=
  [.addNode ⟨"a", "", .origin, false, .ellipse⟩, .addNode ⟨"b", "", .origin, false, .ellipse⟩,
    .addNode ⟨"c", "", .origin, false, .ellipse⟩, .addEdge ⟨"cb", "c", "b", ""⟩,
    .addEdge ⟨"ab", "a", "b", ""⟩, .removeNode "a", .addEdge ⟨"bb", "b", "b", ""⟩,
    .addEdge ⟨"bc", "c", "b", "again"⟩]

theorem adjacency_of_links_parallel :
    parallel.Built ∧ Locates halving ∧ parallel.Adjacency ∧
      parallel.successors 0 = [1, 2, 2] ∧ parallel.neighbors 1 = [0] ∧
      parallel.addLinkBy halving ⟨0, 2, ""⟩ = parallel.addLink ⟨0, 2, ""⟩ ∧
      parallel.hasLinkBy halving 2 0 = parallel.hasLink 2 0 ∧
      ∃ d : Diagram Float, ofGraph .standard (session rewired .empty) = .ok d ∧ d.Adjacency ∧
        d.Mirrors .standard (session rewired .empty) ∧ d.successors 1 = [0, 0] := by
  have hbuilt : parallel.Built := built_sketch (by decide)
  obtain ⟨hadjacency, hsearch⟩ := (adjacency_of_links Float).1 parallel hbuilt
  obtain ⟨hadd, hhas⟩ := hsearch halving locates_halving
  obtain ⟨d, hd, -, hlists, hmirrors⟩ := (adjacency_of_links Float).2 rewired .standard
  have hsuccessors : (ofGraph .standard (session rewired .empty)).map (·.successors 1) =
      .ok [0, 0] := by decide +kernel
  rw [hd] at hsuccessors
  exact ⟨hbuilt, locates_halving, hadjacency, by decide +kernel, by decide +kernel, hadd _, hhas 2 0,
    d, hd, hlists, hmirrors, Except.ok.inj hsuccessors⟩

end Graphs

end Diagram

end GraphScribe
