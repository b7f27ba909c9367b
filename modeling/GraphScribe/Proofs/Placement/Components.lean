import GraphScribe.Placement.Planar
import GraphScribe.Proofs.Placement.Layers

/-! # Components hold every box

A search moves boxes from those not met to those met and loses none on the way. So the components
hold every box between them, the drawing of each has a centre for all of its boxes, and packing the
drawings side by side keeps them all. -/
namespace GraphScribe

namespace Component

section Search

variable (adjacent : Nat → List Nat)

theorem mem_met_search {path : Path} {s : Search} {v : Nat} (hv : v ∈ s.met) :
    v ∈ (search adjacent path s).met := by
  fun_induction search adjacent path s with
  | case1 => exact hv
  | case2 _ _ _ ih => exact ih hv
  | case3 _ _ _ _ _ _ ih => exact ih (List.mem_cons_of_mem _ hv)
  | case4 _ _ _ _ _ _ _ ih => exact ih hv

/-- A box that is still to be met before a search is met by it or still to be met after it. -/
theorem mem_unseen_search (path : Path) {s : Search} {v : Nat} (hv : v ∈ s.unseen) :
    v ∈ (search adjacent path s).unseen ∨ v ∈ (search adjacent path s).met := by
  fun_induction search adjacent path s with
  | case1 => exact .inl hv
  | case2 _ _ _ ih => exact ih hv
  | case3 _ w _ _ s _ ih =>
    by_cases hw : v = w
    · exact .inr (mem_met_search adjacent (hw ▸ List.mem_cons_self))
    · exact ih ((List.mem_erase_of_ne hw).mpr hv)
  | case4 _ _ _ _ _ _ _ ih => exact ih hv

theorem mem_frame_or_interior {nodes : List Nat} {v : Nat} (hv : v ∈ nodes) (frame : List Nat) :
    v ∈ (Component.mk frame (nodes.filter fun v => !frame.contains v)).nodes := by
  unfold Component.nodes
  by_cases hframe : v ∈ frame
  · exact List.mem_append_left _ hframe
  · apply List.mem_append_right
    exact List.mem_filter.mpr ⟨hv, by simpa using hframe⟩

theorem mem_ofSearch {s : Search} {v : Nat} (hv : v ∈ s.met) :
    v ∈ (ofSearch adjacent s).nodes :=
  mem_frame_or_interior (List.mem_reverse.mpr hv) _

theorem mem_collect {starts unseen : List Nat} {v : Nat} (hstart : v ∈ starts)
    (hunseen : v ∈ unseen) : ∃ c ∈ collect adjacent starts unseen, v ∈ c.nodes := by
  induction starts generalizing unseen with
  | nil => cases hstart
  | cons w ws ih =>
    unfold collect
    by_cases hw : w ∈ unseen
    · rw [if_pos (by simpa using hw)]
      by_cases hvw : v = w
      · exact ⟨_, List.mem_cons_self,
          mem_ofSearch adjacent (mem_met_search adjacent (by simp [hvw]))⟩
      · have hrest : v ∈ unseen.erase w := (List.mem_erase_of_ne hvw).mpr hunseen
        let start : Search := ⟨unseen.erase w, [w], none⟩
        have hsearch := mem_unseen_search adjacent [(w, adjacent w)] (s := start) hrest
        rcases hsearch with hleft | hmet
        · obtain ⟨c, hc, hvc⟩ := ih ((List.mem_cons.mp hstart).resolve_left hvw) hleft
          exact ⟨c, List.mem_cons_of_mem _ hc, hvc⟩
        · exact ⟨_, List.mem_cons_self, mem_ofSearch adjacent hmet⟩
    · rw [if_neg (by simpa using hw)]
      have hvw : v ≠ w := fun h => hw (h ▸ hunseen)
      exact ih ((List.mem_cons.mp hstart).resolve_left hvw) hunseen

theorem mem_all {count v : Nat} (hv : v < count) : ∃ c ∈ all adjacent count, v ∈ c.nodes :=
  mem_collect adjacent (List.mem_range.mpr hv) (List.mem_range.mpr hv)

end Search

end Component

variable {α : Type} [Scalar α]

theorem Grid.keys_snap (pitch : α) (point : Nat → Point α) (vs : List Nat) (taken : List Cell) :
    (snap pitch point vs taken).keys = vs := by
  induction vs generalizing taken with
  | nil => rfl
  | cons v vs ih => exact congrArg (v :: ·) (ih _)

namespace Planar

theorem keys_snapped (pitch : α) (ps : Points α) (c : Component) :
    (snapped pitch ps c).keys = c.nodes := by
  have hsnap := Grid.keys_snap pitch (pointAt ps) c.nodes []
  unfold Table.keys at hsnap ⊢
  rw [snapped, List.map_map]
  exact hsnap

theorem mem_keys_pack (spacing : α) (size : Nat → Size α) {drawings : List (Table (Point α))}
    {drawing : Table (Point α)} {v : Nat} (hdrawing : drawing ∈ drawings) (hv : v ∈ drawing.keys)
    (cursor : α) : v ∈ (pack spacing size cursor drawings).keys := by
  induction drawings generalizing cursor with
  | nil => cases hdrawing
  | cons first drawings ih =>
    unfold pack
    split
    · rename_i hnone
      rcases List.mem_cons.mp hdrawing with rfl | hlater
      · -- only an empty drawing has no bounds
        cases drawing with
        | nil => cases hv
        | cons _ _ => cases hnone
      · exact ih hlater cursor
    · unfold Table.keys at hv ih ⊢
      rw [List.map_append, List.mem_append]
      rcases List.mem_cons.mp hdrawing with rfl | hlater
      · left
        rw [List.map_map]
        exact hv
      · right
        exact ih hlater _

theorem mem_keys_table (settings : PlanarSettings α) (d : Diagram α) {v : Nat}
    (hv : v ∈ d.indices) : v ∈ (table settings d).keys := by
  unfold table
  obtain ⟨c, hc, hvc⟩ := Component.mem_all
    (fun v => ((d.indices.map d.neighbors).toArray).getD v []) (List.mem_range.mp hv)
  apply mem_keys_pack settings.componentSpacing d.size (List.mem_map_of_mem hc)
  rwa [keys_snapped]

theorem place_eq (settings : PlanarSettings α) (d : Diagram α) :
    place settings d = d.indices.map fun v => (table settings d).get v .origin := by
  apply List.map_congr_left
  intro v hv
  exact Table.get_of_mem_keys (mem_keys_table settings d hv) _ _

end Planar

end GraphScribe
