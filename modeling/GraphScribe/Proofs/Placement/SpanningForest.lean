import GraphScribe.Proofs.Placement.BreadthFirst
import GraphScribe.Scalar.Double

/-! # Spanning forests

Every tree of a forest takes the whole connected component of the box it starts at, so what is left
for the trees after it is closed under links again. The forest of a diagram thus seats every box
once, below a neighbour and at its distance from the only root of its component. -/
namespace GraphScribe.Forest

variable {G : SimpleGraph Nat} {next : Nat → List Nat}

theorem roots_append (f g : Forest) : roots (f ++ g) = f.roots ++ g.roots := by
  simp [roots]

theorem mem_roots {f : Forest} {v : Nat} : v ∈ f.roots ↔ ∃ s ∈ f, s.parent = none ∧ s.node = v := by
  simp [roots, and_assoc]

theorem mem_children {f : Forest} {u v : Nat} :
    v ∈ f.children u ↔ ∃ s ∈ f, s.parent = some u ∧ s.node = v := by
  simp [children, and_assoc]

/-- The forest `f` over the boxes `vs` has one tree for each connected component, which reaches its
boxes by the shortest way. -/
structure Planted (G : SimpleGraph Nat) (vs : List Nat) (f : Forest) : Prop where
  perm : f.order.Perm vs
  parents : ParentsFirst G f
  depth : ∀ s ∈ f, ∃ r ∈ f.roots, G.Reachable r s.node ∧ s.depth = G.dist r s.node
  apart : ∀ r ∈ f.roots, ∀ t ∈ f.roots, G.Reachable r t → r = t

theorem Planted.after {r : Nat} {vs unseen : List Nat} {tree : List Seat} {f : Forest}
    (hvs : vs.Nodup) (h : Growing G r vs tree [] unseen) (hf : Planted G unseen f) :
    Planted G vs (tree ++ f) := by
  have hperm := h.perm
  have hroot := h.root
  have hdepth := h.depth
  have hlone := h.lone
  have hparents := h.parents
  rw [List.append_nil] at hperm hroot hdepth hlone hparents
  have hapart : ∀ v ∈ order tree, v ∉ f.order := by
    intro v hv hf'
    exact List.disjoint_of_nodup_append (hperm.nodup_iff.mpr hvs) hv (hf.perm.mem_iff.mp hf')
  have hfar : ∀ t ∈ f.roots, ¬G.Reachable r t := by
    intro t ht hreach
    obtain ⟨s, hs, -, rfl⟩ := mem_roots.mp ht
    exact hapart _ (h.mem_order_iff.mpr hreach) (List.mem_map_of_mem hs)
  have hroots : ∀ t ∈ roots (tree ++ f), t = r ∨ t ∈ f.roots := by
    intro t ht
    rw [roots_append] at ht
    rcases List.mem_append.mp ht with ht | ht
    · obtain ⟨s, hs, hnone, rfl⟩ := mem_roots.mp ht
      exact .inl (hlone s hs hnone)
    · exact .inr ht
  constructor
  · rw [order_append]
    exact (hf.perm.append_left _).trans hperm
  · apply hparents.append
    intro before s after hsplit p hp
    obtain ⟨hbefore, hadj⟩ := hf.parents before s after hsplit p hp
    rw [order_append]
    exact ⟨List.mem_append_right _ hbefore, hadj⟩
  · intro s hs
    rw [roots_append]
    rcases List.mem_append.mp hs with hs | hs
    · exact ⟨r, List.mem_append_left _ (mem_roots.mpr ⟨_, hroot, rfl, rfl⟩), hdepth s hs⟩
    · obtain ⟨t, ht, hseat⟩ := hf.depth s hs
      exact ⟨t, List.mem_append_right _ ht, hseat⟩
  · intro t ht u hu hreach
    rcases hroots t ht with rfl | ht <;> rcases hroots u hu with rfl | hu
    · rfl
    · exact absurd hreach (hfar u hu)
    · exact absurd hreach.symm (hfar t ht)
    · exact hf.apart t ht u hu hreach

/-- A start that is in no tree yet has one planted: the tree takes the component of the start, and
what it leaves is closed under links again. -/
theorem plant_of_mem (hG : Explores next G) {s : Nat} (starts : List Nat) {vs : List Nat}
    (hvs : vs.Nodup) (hclosed : Closed G vs) (hs : s ∈ vs) :
    ∃ tree left, plant next (s :: starts) vs = tree ++ plant next starts left ∧
      Growing G s vs tree [] left ∧ (order tree ++ left).Perm vs ∧ left.Nodup ∧ Closed G left := by
  have htree := (growing_first hs (G := G)).run hG hvs hclosed
  rw [List.nil_append] at htree
  have hplant : plant next (s :: starts) vs = (grow next [⟨s, none, 0⟩] (vs.erase s)).1 ++
      plant next starts (grow next [⟨s, none, 0⟩] (vs.erase s)).2 :=
    if_pos (by simpa using hs)
  generalize grow next [⟨s, none, 0⟩] (vs.erase s) = tree at htree hplant
  have hperm := htree.perm
  rw [List.append_nil] at hperm
  have hleft : tree.2.Nodup := (hperm.nodup_iff.mpr hvs).sublist (List.sublist_append_right _ _)
  exact ⟨tree.1, tree.2, hplant, htree, hperm, hleft,
    hclosed.left hvs hperm fun _ => htree.mem_order_iff⟩

theorem plant_of_notMem {s : Nat} (starts : List Nat) {vs : List Nat} (hs : s ∉ vs) :
    plant next (s :: starts) vs = plant next starts vs :=
  if_neg (by simpa using hs)

theorem planted (hG : Explores next G) (starts : List Nat) {vs : List Nat} (hvs : vs.Nodup)
    (hclosed : Closed G vs) (hstarts : ∀ v ∈ vs, v ∈ starts) :
    Planted G vs (plant next starts vs) := by
  induction starts generalizing vs with
  | nil =>
    obtain rfl : vs = [] := by
      apply List.eq_nil_iff_forall_not_mem.mpr
      intro v hv
      simpa using hstarts v hv
    constructor
    · exact .refl _
    · intro before s after hsplit
      simp [plant] at hsplit
    · simp [plant]
    · simp [plant, roots]
  | cons s starts ih =>
    -- the start has no tree yet, or it is in one and nothing is planted
    by_cases hs : s ∈ vs
    · obtain ⟨tree, left, hplant, htree, hperm, hleft, hclosed'⟩ :=
        plant_of_mem hG starts hvs hclosed hs
      rw [hplant]
      have hroot : s ∉ left :=
        List.disjoint_of_nodup_append (hperm.nodup_iff.mpr hvs) (htree.mem_order_iff.mpr (.refl s))
      apply Planted.after hvs htree
      apply ih hleft hclosed'
      apply mem_later _ hroot
      intro v hv
      exact hstarts v (hperm.mem_iff.mp (List.mem_append_right _ hv))
    · rw [plant_of_notMem starts hs]
      exact ih hvs hclosed (mem_later hstarts hs)

section Planted

variable {vs : List Nat} {f : Forest}

theorem seat_unique (h : f.order.Nodup) {s t : Seat} (hs : s ∈ f) (ht : t ∈ f)
    (hst : s.node = t.node) : s = t :=
  List.inj_on_of_nodup_map h hs ht hst

theorem depth_eq (h : f.order.Nodup) {s : Seat} (hs : s ∈ f) : f.depth s.node = s.depth := by
  have hfound : (f.find? (·.node == s.node)).isSome := by
    rw [List.find?_isSome]
    exact ⟨s, hs, by simp⟩
  obtain ⟨t, ht⟩ := Option.isSome_iff_exists.mp hfound
  have hnode : t.node = s.node := by simpa using List.find?_some ht
  have hseat : t = s := seat_unique h (List.mem_of_find?_eq_some ht) hs hnode
  rw [depth, ht, hseat]
  rfl

theorem nodup_roots (h : f.order.Nodup) : f.roots.Nodup :=
  h.sublist (List.filter_sublist.map _)

theorem nodup_children (h : f.order.Nodup) (u : Nat) : (f.children u).Nodup :=
  h.sublist (List.filter_sublist.map _)

theorem root_or_child (h : f.order.Nodup) {v : Nat} (hv : v ∈ f.order) :
    (v ∈ f.roots ∧ ∀ u, v ∉ f.children u) ∨ (v ∉ f.roots ∧ ∃! u, v ∈ f.children u) := by
  obtain ⟨s, hs, rfl⟩ := mem_order.mp hv
  have hroot : s.node ∈ f.roots ↔ s.parent = none := by
    rw [mem_roots]
    constructor
    · rintro ⟨t, ht, hnone, hnode⟩
      rwa [← seat_unique h ht hs hnode]
    · intro hnone
      exact ⟨s, hs, hnone, rfl⟩
  have hchild : ∀ u, s.node ∈ f.children u ↔ s.parent = some u := by
    intro u
    rw [mem_children]
    constructor
    · rintro ⟨t, ht, hsome, hnode⟩
      rwa [← seat_unique h ht hs hnode]
    · intro hsome
      exact ⟨s, hs, hsome, rfl⟩
  cases hparent : s.parent with
  | none =>
    left
    refine ⟨hroot.mpr hparent, ?_⟩
    intro u hu
    rw [hchild, hparent] at hu
    cases hu
  | some p =>
    right
    constructor
    · rw [hroot, hparent]
      exact Option.some_ne_none p
    · refine ⟨p, (hchild p).mpr hparent, ?_⟩
      intro u hu
      rw [hchild, hparent] at hu
      exact (Option.some.inj hu).symm

theorem ParentsFirst.child (hf : ParentsFirst G f) (h : f.order.Nodup) {u c : Nat}
    (hc : c ∈ f.children u) : f.order.idxOf u < f.order.idxOf c ∧ G.Adj u c := by
  obtain ⟨s, hs, hparent, rfl⟩ := mem_children.mp hc
  obtain ⟨before, after, rfl⟩ := List.append_of_mem hs
  obtain ⟨hu, hadj⟩ := hf before s after rfl u hparent
  refine ⟨?_, hadj⟩
  rw [order_append] at h ⊢
  have hfresh : s.node ∉ order before := fun hmem =>
    List.disjoint_of_nodup_append h hmem List.mem_cons_self
  rw [List.idxOf_append_of_mem hu, List.idxOf_append_of_notMem hfresh]
  have hlt := List.idxOf_lt_length_of_mem hu
  omega

theorem Planted.root_unique (h : Planted G vs f) {v : Nat} (hv : v ∈ vs) :
    ∃! r, r ∈ f.roots ∧ G.Reachable r v := by
  obtain ⟨s, hs, rfl⟩ := mem_order.mp (h.perm.mem_iff.mpr hv)
  obtain ⟨r, hr, hreach, -⟩ := h.depth s hs
  refine ⟨r, ⟨hr, hreach⟩, ?_⟩
  rintro t ⟨ht, htreach⟩
  exact h.apart t ht r hr (htreach.trans hreach.symm)

theorem Planted.depth_eq_dist (h : Planted G vs f) (hvs : vs.Nodup) {r v : Nat}
    (hr : r ∈ f.roots) (hv : v ∈ vs) (hreach : G.Reachable r v) : f.depth v = G.dist r v := by
  obtain ⟨s, hs, rfl⟩ := mem_order.mp (h.perm.mem_iff.mpr hv)
  obtain ⟨t, ht, htreach, hdepth⟩ := h.depth s hs
  rw [h.apart r hr t ht (hreach.trans htreach.symm), ← hdepth]
  exact Forest.depth_eq (h.perm.nodup_iff.mpr hvs) hs

end Planted

end Forest

namespace Diagram

variable {α : Type} {d : Diagram α}

theorem Linked.explores (h : d.Linked) : Forest.Explores d.reachable d.joined := by
  constructor
  · intro v w hw
    rw [reachable, List.mem_append, h.mem_successors, h.mem_predecessors] at hw
    by_cases heq : w = v
    · exact .inl heq
    · exact .inr (joined_adj.mpr ⟨Ne.symm heq, hw⟩)
  · intro v w hadj
    rw [reachable, List.mem_append, h.mem_successors, h.mem_predecessors]
    exact (joined_adj.mp hadj).2

theorem Linked.closed_indices (h : d.Linked) : Closed d.joined d.indices := by
  intro v _ w hadj
  exact List.mem_range.mpr (h.lt_of_adj hadj).2

theorem Linked.planted (h : d.Linked) : Forest.Planted d.joined d.indices d.forest := by
  apply Forest.planted h.explores _ List.nodup_range h.closed_indices
  intro v hv
  exact List.mem_append_right _ hv

/-- The forest spans the diagram: its seats are the boxes, each once and after the box it hangs
from, and every component has one root, from which its boxes hang by shortest paths. -/
structure Spanned (d : Diagram α) (f : Forest) : Prop where
  order_perm : f.order.Perm d.indices
  parent_first : ∀ u, ∀ c ∈ f.children u, f.order.idxOf u < f.order.idxOf c
  root_or_child : ∀ v < d.count,
    (v ∈ f.roots ∧ ∀ u, v ∉ f.children u) ∨ (v ∉ f.roots ∧ ∃! u, v ∈ f.children u)
  roots_nodup : f.roots.Nodup
  children_nodup : ∀ u, (f.children u).Nodup
  root_unique : ∀ v < d.count, ∃! r, r ∈ f.roots ∧ d.joined.Reachable r v
  child_linked : ∀ u, ∀ c ∈ f.children u, d.Links u c ∨ d.Links c u
  depth_eq : ∀ r ∈ f.roots, ∀ v < d.count, d.joined.Reachable r v → f.depth v = d.joined.dist r v

variable [Scalar α]

theorem forest_spans (hd : d.Built) : d.Spanned d.forest := by
  have h := hd.linked.planted
  have hnodup : d.forest.order.Nodup := h.perm.nodup_iff.mpr List.nodup_range
  constructor
  · exact h.perm
  · intro u c hc
    exact (h.parents.child hnodup hc).1
  · intro v hv
    exact Forest.root_or_child hnodup (h.perm.mem_iff.mpr (List.mem_range.mpr hv))
  · exact Forest.nodup_roots hnodup
  · exact Forest.nodup_children hnodup
  · intro v hv
    exact h.root_unique (List.mem_range.mpr hv)
  · intro u c hc
    exact (joined_adj.mp (h.parents.child hnodup hc).2).2
  · intro r hr v hv hreach
    exact h.depth_eq_dist List.nodup_range hr (List.mem_range.mpr hv) hreach

/-- Box 0 can only be reached against a link, a parallel link and a loop are there, and box 4 stands
alone. -/
def offshoot : Diagram Float := sketch 5 [(1, 2), (1, 2), (2, 3), (0, 3), (1, 1)]

theorem forest_spans_offshoot :
    offshoot.Built ∧ offshoot.forest.order = [0, 3, 2, 1, 4] ∧ offshoot.forest.roots = [0, 4] ∧
      offshoot.forest.depth 1 = 3 ∧ offshoot.Spanned offshoot.forest := by
  have hbuilt : offshoot.Built := built_sketch (by decide)
  refine ⟨hbuilt, ?_, ?_, ?_, forest_spans hbuilt⟩ <;> decide +kernel

end Diagram

end GraphScribe
