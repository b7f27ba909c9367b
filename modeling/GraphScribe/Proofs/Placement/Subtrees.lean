import GraphScribe.Proofs.Placement.Generations
import GraphScribe.Proofs.Placement.Rows

/-! # Subtrees

The span of a subtree is worked out from the leaves up, and its place from the roots down. A subtree
stays inside the span of its root, which stays inside that of the box it hangs from, and spans side
by side keep their gap; so boxes of a level keep it too. -/
namespace GraphScribe.Tree

open Scalar (ofNat half)

section Tables

variable {α : Type} [Scalar α] {f : Forest} {G : SimpleGraph Nat}

def spanOf (gap : α) (cross : Nat → α) (f : Forest) (v : Nat) : α :=
  (spans gap cross f).get v (ofNat 0)

/-- A span is wide enough for its box and for the spans of all that hangs from it. -/
theorem spanOf_eq (gap : α) (cross : Nat → α) (hf : Forest.Hanging f) (h : f.order.Nodup) {v : Nat}
    (hv : v ∈ f.order) :
    spanOf gap cross f v =
      Scalar.max (cross v) (rowExtent gap ((f.children v).map (spanOf gap cross f))) := by
  induction f with
  | nil => cases hv
  | cons s f ih =>
    obtain ⟨hfresh, hnodup⟩ := List.nodup_cons.mp h
    have hlater : ∀ c ∈ Forest.order f, spanOf gap cross (s :: f) c = spanOf gap cross f c := by
      intro c hc
      exact Table.get_cons_of_ne (ne_of_mem_of_not_mem hc hfresh) _ _ _
    have hbelow : (Forest.children (s :: f) v).map (spanOf gap cross (s :: f)) =
        (Forest.children f v).map (spanOf gap cross f) := by
      rw [hf.children_cons hv]
      exact List.map_congr_left fun c hc => hlater c (Forest.mem_order_of_child hc)
    rw [hbelow]
    rcases List.mem_cons.mp hv with rfl | hv
    · exact Table.get_cons_self _ _ _ _
    · rw [hlater v hv]
      exact ih hf.tail hnodup hv

def centerOf (gap : α) (span : Nat → α) (f : Forest) (v : Nat) : α :=
  (crossCenters gap span f).get v (ofNat 0)

variable {gap : α} {span : Nat → α}

theorem keys_underneath (placed : Table α) (v : Nat) :
    (underneath gap span f placed v).keys = f.children v := keys_row _ _

theorem underneath_congr {placed placed' : Table α} {v : Nat}
    (h : placed.get v (ofNat 0) = placed'.get v (ofNat 0)) :
    underneath gap span f placed v = underneath gap span f placed' v := by
  rw [underneath, underneath, h]

/-- What hangs from a box may as well be placed from the finished table. -/
theorem foldl_underneath (seats : List Seat) (placed : Table α)
    (h : ∀ before s after, seats = before ++ s :: after →
      s.node ∈ placed.keys ∨ ∃ t ∈ before, s.node ∈ f.children t.node) {finished : Table α}
    (hfinished : finished =
      seats.foldl (fun placed s => placed ++ underneath gap span f placed s.node) placed) :
    finished = placed ++ seats.flatMap fun s => underneath gap span f finished s.node := by
  induction seats generalizing placed with
  | nil => rw [hfinished, List.flatMap_nil, List.append_nil, List.foldl_nil]
  | cons s seats ih =>
    have hrest := ih (placed ++ underneath gap span f placed s.node) ?_ hfinished
    · have hs : s.node ∈ placed.keys := by
        rcases h [] s seats rfl with hs | ⟨t, ht, -⟩
        · exact hs
        · cases ht
      have hsame : underneath gap span f placed s.node = underneath gap span f finished s.node := by
        apply underneath_congr
        rw [hrest, List.append_assoc, Table.get_append_of_mem_keys hs]
      rwa [hsame, List.append_assoc] at hrest
    · intro before t after hsplit
      rw [Table.mem_keys_append, keys_underneath]
      rcases h (s :: before) t after (congrArg (s :: ·) hsplit) with hold | ⟨u, hu, hchild⟩
      · exact .inl (.inl hold)
      · rcases List.mem_cons.mp hu with rfl | hu
        · exact .inl (.inr hchild)
        · exact .inr ⟨u, hu, hchild⟩

theorem crossCenters_eq (hf : Forest.ParentsFirst G f) :
    crossCenters gap span f = row gap span (ofNat 0) f.roots ++
      f.flatMap fun s => underneath gap span f (crossCenters gap span f) s.node := by
  apply foldl_underneath f _ _ rfl
  intro before s after hsplit
  rw [keys_row]
  exact hf.root_or_later hsplit

theorem nodup_keys_crossCenters (hf : Forest.ParentsFirst G f) (h : f.order.Nodup) :
    (crossCenters gap span f).keys.Nodup := by
  have hkeys : (crossCenters gap span f).keys =
      f.roots ++ f.flatMap fun s => f.children s.node := by
    rw [crossCenters_eq hf, Table.keys, List.map_append, List.map_flatMap]
    congr 1
    · exact keys_row _ _
    · congr 1
      funext s
      exact keys_underneath _ s.node
  rw [hkeys]
  exact Forest.nodup_roots_children h

theorem root_placed (hf : Forest.ParentsFirst G f) (h : f.order.Nodup) :
    ∀ v ∈ f.roots, (v, centerOf gap span f v) ∈ row gap span (ofNat 0) f.roots := by
  intro v hv
  apply Table.mem_of_subset (nodup_keys_crossCenters hf h)
  · rw [crossCenters_eq hf]
    exact List.subset_append_left _ _
  · rwa [keys_row]

theorem child_placed (hf : Forest.ParentsFirst G f) (h : f.order.Nodup) {u : Nat}
    (hu : u ∈ f.order) :
    ∀ v ∈ f.children u, (v, centerOf gap span f v) ∈
      row gap span (centerOf gap span f u - half (rowExtent gap ((f.children u).map span)))
        (f.children u) := by
  intro v hv
  obtain ⟨s, hs, rfl⟩ := Forest.mem_order.mp hu
  apply Table.mem_of_subset (nodup_keys_crossCenters hf h)
  · rw [crossCenters_eq hf]
    apply List.subset_append_of_subset_right
    intro entry hentry
    exact List.mem_flatMap.mpr ⟨s, hs, hentry⟩
  · rwa [keys_row]

end Tables

section Exact

open Stretch (around Apart)

variable {K : Type} [ExactScalar K] {f : Forest} {G : SimpleGraph Nat} {gap : K} {cross : Nat → K}

/-- What the subtree of a box takes up across the levels. -/
def territory (gap : K) (cross : Nat → K) (f : Forest) (v : Nat) : Stretch K :=
  around (centerOf gap (spanOf gap cross f) f v) (spanOf gap cross f v)

theorem spanOf_ge (gap : K) (cross : Nat → K) (hf : f.Grown G) {v : Nat} (hv : v ∈ f.order) :
    cross v ≤ spanOf gap cross f v ∧
      rowExtent gap ((f.children v).map (spanOf gap cross f)) ≤ spanOf gap cross f v := by
  rw [spanOf_eq gap cross (hf.parents.hanging hf.nodup) hf.nodup hv, Scalar.max_exact]
  exact ⟨le_sup_left, le_sup_right⟩

theorem spanOf_nonneg (hf : f.Grown G) (hcross : ∀ v, 0 ≤ cross v) :
    ∀ v ∈ f.order, 0 ≤ spanOf gap cross f v := by
  intro v hv
  exact (hcross v).trans (spanOf_ge gap cross hf hv).1

theorem territory_child (hf : f.Grown G) (hgap : 0 ≤ gap) (hcross : ∀ v, 0 ≤ cross v) {u v : Nat}
    (hu : u ∈ f.order) (hv : v ∈ f.children u) :
    (territory gap cross f v).Within (territory gap cross f u) := by
  have hspan : ∀ c ∈ f.children u, 0 ≤ spanOf gap cross f c := fun c hc =>
    spanOf_nonneg hf hcross c (Forest.mem_order_of_child hc)
  have hrow := row_within hgap hspan _ _ (child_placed hf.parents hf.nodup hu v hv)
  rw [← Stretch.around_eq] at hrow
  exact hrow.trans (Stretch.around_within _ (spanOf_ge gap cross hf hu).2)

theorem territories_apart (hf : f.Grown G) (hgap : 0 ≤ gap) (hcross : ∀ v, 0 ≤ cross v) {v w : Nat}
    (hv : v ∈ f.order) (hw : w ∈ f.order) (hdepth : f.depth v = f.depth w) (hne : v ≠ w) :
    Apart gap (territory gap cross f v) (territory gap cross f w) := by
  have hspan : ∀ c ∈ f.order, 0 ≤ spanOf gap cross f c := spanOf_nonneg hf hcross
  apply hf.levelled.same_level hf.nodup _ _ _ hv hw hdepth hne
  · intro v hv w hw hne
    apply row_apart hgap _ (root_placed hf.parents hf.nodup) hv hw hne
    exact fun r hr => hspan r (Forest.mem_order_of_root hr)
  · intro u hu v hv w hw hne
    apply row_apart hgap _ (child_placed hf.parents hf.nodup hu) hv hw hne
    exact fun c hc => hspan c (Forest.mem_order_of_child hc)
  · intro t u hapart v hv w hw
    exact hapart.within
      (territory_child hf hgap hcross (Forest.depth_child hf.levelled hf.nodup hv).1 hv)
      (territory_child hf hgap hcross (Forest.depth_child hf.levelled hf.nodup hw).1 hw)

end Exact

end GraphScribe.Tree
