import GraphScribe.Placement.Radial
import GraphScribe.Placement.Tree
import GraphScribe.Proofs.Placement.SpanningForest

/-! # Roots of a diagram in its forest

A tree takes the whole component of the box it starts at, links being followed against their
direction too. So of the roots of a diagram that are connected with one another only the first
starts a tree, and the others hang in that tree. -/
namespace GraphScribe

theorem Forest.root_earliest {G : SimpleGraph Nat} {next : Nat → List Nat} (hG : Explores next G)
    (starts : List Nat) {vs : List Nat} (hvs : vs.Nodup) (hclosed : Closed G vs) {r : Nat}
    (hr : r ∈ (plant next starts vs).roots) :
    r ∈ vs ∧ ∀ t ∈ vs, G.Reachable r t → starts.idxOf r ≤ starts.idxOf t := by
  induction starts generalizing vs with
  | nil => simp [plant, roots] at hr
  | cons s starts ih =>
    by_cases hs : s ∈ vs
    · obtain ⟨tree, left, hplant, htree, hperm, hleft, hclosed'⟩ :=
        plant_of_mem hG starts hvs hclosed hs
      rw [hplant, roots_append] at hr
      rcases List.mem_append.mp hr with hr | hr
      · obtain ⟨seat, hseat, hnone, rfl⟩ := mem_roots.mp hr
        have hfirst := htree.lone seat (List.mem_append_left _ hseat) hnone
        rw [hfirst]
        refine ⟨hs, ?_⟩
        intro t _ _
        rw [List.idxOf_cons_self]
        exact Nat.zero_le _
      · obtain ⟨hmem, hle⟩ := ih hleft hclosed' hr
        have hdisjoint := List.disjoint_of_nodup_append (hperm.nodup_iff.mpr hvs)
        -- neither the later root nor what is connected with it is in the tree of the start
        have hapart : ∀ t, G.Reachable r t → ¬G.Reachable s t := by
          intro t hreach hst
          exact hdisjoint (htree.mem_order_iff.mpr (hst.trans hreach.symm)) hmem
        have hne : ∀ t, G.Reachable r t → s ≠ t := by
          rintro t hreach rfl
          exact hapart s hreach (.refl s)
        refine ⟨hperm.mem_iff.mp (List.mem_append_right _ hmem), ?_⟩
        intro t ht hreach
        rw [List.idxOf_cons_ne _ (hne r (.refl r)), List.idxOf_cons_ne _ (hne t hreach)]
        apply Nat.succ_le_succ
        apply hle t _ hreach
        rcases List.mem_append.mp (hperm.mem_iff.mpr ht) with ht | ht
        · exact absurd (htree.mem_order_iff.mp ht) (hapart t hreach)
        · exact ht
    · rw [plant_of_notMem starts hs] at hr
      obtain ⟨hmem, hle⟩ := ih hvs hclosed hr
      refine ⟨hmem, ?_⟩
      intro t ht hreach
      have hsr : s ≠ r := fun h => hs (h ▸ hmem)
      have hst : s ≠ t := fun h => hs (h ▸ ht)
      rw [List.idxOf_cons_ne _ hsr, List.idxOf_cons_ne _ hst]
      exact Nat.succ_le_succ (hle t ht hreach)

theorem le_of_idxOf_le {vs : List Nat} (h : vs.Pairwise (· < ·)) {v w : Nat} (hv : v ∈ vs)
    (hw : w ∈ vs) (hle : vs.idxOf v ≤ vs.idxOf w) : v ≤ w := by
  have hv' := List.idxOf_lt_length_of_mem hv
  have hw' := List.idxOf_lt_length_of_mem hw
  rw [← List.getElem_idxOf hv', ← List.getElem_idxOf hw']
  rcases hle.eq_or_lt with heq | hlt
  · simp only [heq, le_refl]
  · exact (List.pairwise_iff_getElem.mp h _ _ hv' hw' hlt).le

namespace Diagram

variable {α : Type} {d : Diagram α}

theorem roots_sublist (d : Diagram α) : d.roots.Sublist d.indices := by
  unfold roots
  split
  · rename_i hmarked
    rw [← hmarked]
    exact List.filter_sublist
  · split
    · rename_i hsources
      rw [← hsources]
      exact List.filter_sublist
    · exact List.take_sublist _ _

theorem lt_of_mem_roots {v : Nat} (hv : v ∈ d.roots) : v < d.count :=
  List.mem_range.mp (d.roots_sublist.subset hv)

/-- The tree that a root of the diagram is in starts at the first root it is connected with. -/
theorem Linked.first_root (h : d.Linked) {v : Nat} (hv : v ∈ d.roots) :
    ∃ r ∈ d.roots, r ∈ d.forest.roots ∧ d.joined.Reachable r v ∧
      ∀ t ∈ d.roots, d.joined.Reachable r t → r ≤ t := by
  have hascending : d.roots.Pairwise (· < ·) := List.pairwise_lt_range.sublist d.roots_sublist
  obtain ⟨r, ⟨hroot, hreach⟩, -⟩ := h.planted.root_unique (List.mem_range.mpr (lt_of_mem_roots hv))
  obtain ⟨-, hfirst⟩ :=
    Forest.root_earliest h.explores (d.roots ++ d.indices) List.nodup_range h.closed_indices hroot
  have hmem : r ∈ d.roots := by
    have hle := hfirst v (d.roots_sublist.subset hv) hreach
    rw [List.idxOf_append_of_mem hv] at hle
    have hlt := List.idxOf_lt_length_of_mem hv
    by_contra hr
    rw [List.idxOf_append_of_notMem hr] at hle
    omega
  refine ⟨r, hmem, hroot, hreach, ?_⟩
  intro t ht hconnected
  apply le_of_idxOf_le hascending hmem ht
  have hle := hfirst t (d.roots_sublist.subset ht) hconnected
  rwa [List.idxOf_append_of_mem hmem, List.idxOf_append_of_mem ht] at hle

end Diagram

section Drawing

variable {α : Type} [Scalar α] {d : Diagram α}

open Scalar (ofNat half)

def Tree.firstLevel (direction : Direction) (d : Diagram α) : α :=
  ofNat 0 + half (Scalar.largest
    ((d.indices.filter fun v => d.forest.depth v == 0).map fun v => direction.main (d.size v)))

theorem Tree.place_first_level (settings : TreeSettings α) (direction : Direction) {v : Nat}
    (hv : v < d.count) (hdepth : d.forest.depth v = 0) :
    ∃ x, (place settings direction d)[v]? =
      some (direction.orient x (firstLevel direction d)) := by
  have hlevel : (levelCenters settings.levelDistance (ofNat 0)
      (levelExtents d.forest (fun v => direction.main (d.size v)) d.indices)).getD 0 (ofNat 0) =
        firstLevel direction d := by
    rw [levelExtents, List.range_succ_eq_map]
    rfl
  simp only [place, Diagram.indices, List.getElem?_map, List.getElem?_range hv, Option.map_some,
    hdepth]
  rw [← hlevel]
  exact ⟨_, rfl⟩

namespace Radial

/-- The ring that a box is drawn on, the centre being ring 0. -/
def ring (d : Diagram α) (v : Nat) : Nat :=
  d.forest.depth v + if d.forest.roots.length > 1 then 1 else 0

def radius (settings : RadialSettings α) (d : Diagram α) : Nat → α :=
  let counts := leafCounts d.forest
  ringRadius settings (d.forest.roots.foldl (fun n r => n + counts.get r 0) 0) d.maxDiagonal

theorem place_ring (settings : RadialSettings α) {v : Nat} (hv : v < d.count) :
    ∃ angle, (place settings d)[v]? = some (.polar (radius settings d (ring d v)) angle) := by
  simp only [place, Diagram.indices, List.getElem?_map, List.getElem?_range hv, Option.map_some]
  exact ⟨_, rfl⟩

end Radial

namespace Diagram

/-- The box starts a tree and is drawn as the start of one: on the first level of a tree placement,
and of a radial one on the innermost ring that has boxes. -/
structure StartsTree (d : Diagram α) (v : Nat) : Prop where
  root : v ∈ d.forest.roots
  no_child : ∀ u, v ∉ d.forest.children u
  depth : d.forest.depth v = 0
  first_level : ∀ settings direction, ∃ x, (Tree.place settings direction d)[v]? =
    some (direction.orient x (Tree.firstLevel direction d))
  on_ring : ∀ settings, ∃ angle, (Radial.place settings d)[v]? =
    some (.polar (Radial.radius settings d (Radial.ring d v)) angle)
  innermost : ∀ settings, ∀ w < d.count, Radial.ring d v ≤ Radial.ring d w ∧
    ∃ angle, (Radial.place settings d)[w]? =
      some (.polar (Radial.radius settings d (Radial.ring d w)) angle)

/-- The box hangs in the tree that starts at box `r`. -/
structure HangsBelow (d : Diagram α) (r v : Nat) : Prop where
  not_root : v ∉ d.forest.roots
  child : ∃! u, v ∈ d.forest.children u
  depth : d.forest.depth v = d.joined.dist r v
  depth_pos : 0 < d.forest.depth v

theorem starts_tree (hd : d.Built) {r : Nat} (hr : r ∈ d.forest.roots) (hlt : r < d.count) :
    d.StartsTree r := by
  have hnodup : d.forest.order.Nodup := hd.linked.planted.perm.nodup_iff.mpr List.nodup_range
  have hdepth : d.forest.depth r = 0 := by
    rw [hd.linked.planted.depth_eq_dist List.nodup_range hr (List.mem_range.mpr hlt) (.refl r),
      SimpleGraph.dist_self]
  constructor
  · exact hr
  · have hmem := hd.linked.planted.perm.mem_iff.mpr (List.mem_range.mpr hlt)
    rcases Forest.root_or_child hnodup hmem with ⟨-, hchild⟩ | ⟨hroot, -⟩
    · exact hchild
    · exact absurd hr hroot
  · exact hdepth
  · intro settings direction
    exact Tree.place_first_level settings direction hlt hdepth
  · intro settings
    exact Radial.place_ring settings hlt
  · intro settings w hw
    refine ⟨?_, Radial.place_ring settings hw⟩
    apply Nat.add_le_add_right
    rw [hdepth]
    exact Nat.zero_le _

theorem hangs_below (hd : d.Built) {r v : Nat} (hr : r ∈ d.forest.roots) (hv : v < d.count)
    (hreach : d.joined.Reachable r v) (hne : r ≠ v) : d.HangsBelow r v := by
  have hplanted := hd.linked.planted
  have hmem := List.mem_range.mpr hv
  have hnodup : d.forest.order.Nodup := hplanted.perm.nodup_iff.mpr List.nodup_range
  have hdepth := hplanted.depth_eq_dist List.nodup_range hr hmem hreach
  rcases Forest.root_or_child hnodup (hplanted.perm.mem_iff.mpr hmem) with
    ⟨hroot, -⟩ | ⟨hroot, hchild⟩
  · exact absurd (hplanted.apart r hr v hroot hreach) hne
  · constructor
    · exact hroot
    · exact hchild
    · exact hdepth
    · rw [hdepth]
      exact hreach.pos_dist_of_ne hne

/-- What becomes of the roots of a diagram: the first of those that are connected with one another
starts a tree, and the others hang in that tree. -/
structure RootsSeated (d : Diagram α) : Prop where
  first : ∀ v ∈ d.roots, (∀ r ∈ d.roots, r < v → ¬d.joined.Reachable r v) → d.StartsTree v
  later : ∀ v ∈ d.roots, (∃ r ∈ d.roots, r < v ∧ d.joined.Reachable r v) →
    ∃ r ∈ d.roots, r < v ∧ d.StartsTree r ∧ d.HangsBelow r v

theorem roots_seated (hd : d.Built) : d.RootsSeated := by
  constructor
  · intro v hv hfirst
    obtain ⟨r, hr, hroot, hreach, hle⟩ := hd.linked.first_root hv
    have heq : r = v := by
      by_contra hne
      exact hfirst r hr (lt_of_le_of_ne (hle v hv hreach) hne) hreach
    subst heq
    exact starts_tree hd hroot (lt_of_mem_roots hr)
  · rintro v hv ⟨t, ht, hlt, htv⟩
    obtain ⟨r, hr, hroot, hreach, hle⟩ := hd.linked.first_root hv
    have hrv : r < v := (hle t ht (hreach.trans htv.symm)).trans_lt hlt
    refine ⟨r, hr, hrv, ?_, ?_⟩
    · exact starts_tree hd hroot (lt_of_mem_roots hr)
    · exact hangs_below hd hroot (lt_of_mem_roots hv) hreach hrv.ne

def converging : Diagram Float := sketch 3 [(0, 2), (1, 2)]

theorem roots_seated_converging :
    converging.Built ∧ converging.roots = [0, 1] ∧ converging.forest.roots = [0] ∧
      converging.RootsSeated ∧ converging.StartsTree 0 := by
  have hbuilt : converging.Built := built_sketch (by decide)
  have hseated := roots_seated hbuilt
  refine ⟨hbuilt, by decide +kernel, by decide +kernel, hseated, ?_⟩
  apply hseated.first 0 (by decide +kernel)
  intro r _ hlt
  exact absurd hlt (Nat.not_lt_zero r)

/-- Box 1 is a root of the diagram and hangs two levels below the other root. -/
theorem root_hangs_converging :
    converging.Built ∧ 1 ∈ converging.roots ∧ ¬converging.StartsTree 1 ∧
      1 ∉ converging.forest.roots ∧ 1 ∈ converging.forest.children 2 ∧
      converging.forest.depth 1 = 2 := by
  have hroot : 1 ∉ converging.forest.roots := by decide +kernel
  refine ⟨built_sketch (by decide), by decide +kernel, ?_, hroot, ?_, ?_⟩
  · intro h
    exact hroot h.root
  · decide +kernel
  · decide +kernel

end Diagram

end Drawing

end GraphScribe
