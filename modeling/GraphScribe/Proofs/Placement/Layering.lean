import GraphScribe.Proofs.Placement.Layers
import Mathlib.Data.List.Nodup

/-! # Layers hold every box once

The boxes of each rank make a layer, and a rank without boxes makes none. So the layers hold every box
once, by rank, and since ordering moves no box to another layer this is so after any number of sweeps.
The layered placement therefore puts every box in one place. -/
namespace GraphScribe.Layered

/-- The layers hold the boxes `indices` once each: one layer for each rank that occurs, in order of
rank. -/
structure Layering (ranks indices : List Nat) (ls : Layers) : Prop where
  nonempty : ∀ layer ∈ ls, layer ≠ []
  perm : ls.flatten.Perm indices
  level : ∀ layer ∈ ls, ∀ v ∈ layer, ∀ w ∈ layer, ranks.getD v 0 = ranks.getD w 0
  ascending : ls.Pairwise fun upper lower => ∀ v ∈ upper, ∀ w ∈ lower,
    ranks.getD v 0 < ranks.getD w 0

variable {ranks indices : List Nat} {ls ls' : Layers}

theorem Layering.sorted (h : Layering ranks indices ls) :
    ls.flatten.Pairwise fun v w => ranks.getD v 0 ≤ ranks.getD w 0 := by
  rw [List.pairwise_flatten]
  constructor
  · intro layer hlayer
    apply List.pairwise_of_forall_mem_list
    intro v hv w hw
    exact Nat.le_of_eq (h.level layer hlayer v hv w hw)
  · apply h.ascending.imp
    intro upper lower hlt v hv w hw
    exact Nat.le_of_lt (hlt v hv w hw)

theorem mem_layer {layer : List Nat} (h : layer ∈ layers indices ranks) : layer ≠ [] ∧
    ∃ r, layer = indices.filter fun v => ranks.getD v 0 == r := by
  obtain ⟨hmem, hne⟩ := List.mem_filter.mp h
  obtain ⟨r, -, rfl⟩ := List.mem_map.mp hmem
  exact ⟨by simpa using hne, r, rfl⟩

theorem layers_ascending (indices ranks : List Nat) : (layers indices ranks).Pairwise
    fun upper lower => ∀ v ∈ upper, ∀ w ∈ lower, ranks.getD v 0 < ranks.getD w 0 := by
  unfold layers
  apply List.Pairwise.filter
  rw [List.pairwise_map]
  apply List.pairwise_lt_range.imp
  intro r s hrs v hv w hw
  have hv' : ranks.getD v 0 = r := by simpa using (List.mem_filter.mp hv).2
  have hw' : ranks.getD w 0 = s := by simpa using (List.mem_filter.mp hw).2
  rwa [hv', hw']

theorem nodup_layers (hindices : indices.Nodup) : (layers indices ranks).flatten.Nodup := by
  rw [List.nodup_flatten]
  constructor
  · intro layer hlayer
    obtain ⟨-, r, rfl⟩ := mem_layer hlayer
    exact hindices.filter _
  · apply (layers_ascending indices ranks).imp
    intro upper lower hlt v hv hw
    exact Nat.lt_irrefl _ (hlt v hv v hw)

theorem layering_layers (hindices : indices.Nodup) :
    Layering ranks indices (layers indices ranks) := by
  constructor
  · intro layer hlayer
    exact (mem_layer hlayer).1
  · apply (List.perm_ext_iff_of_nodup (nodup_layers hindices) hindices).mpr
    intro v
    constructor
    · intro hv
      obtain ⟨layer, hlayer, hv⟩ := List.mem_flatten.mp hv
      obtain ⟨-, r, rfl⟩ := mem_layer hlayer
      exact (List.mem_filter.mp hv).1
    · exact mem_layers
  · intro layer hlayer v hv w hw
    obtain ⟨-, r, rfl⟩ := mem_layer hlayer
    have hv' : ranks.getD v 0 = r := by simpa using (List.mem_filter.mp hv).2
    have hw' : ranks.getD w 0 = r := by simpa using (List.mem_filter.mp hw).2
    rw [hv', hw']
  · exact layers_ascending indices ranks

theorem Shuffles.exists_perm (h : Shuffles ls' ls) :
    ∀ layer' ∈ ls', ∃ layer ∈ ls, layer'.Perm layer := by
  induction h with
  | nil => simp
  | cons hperm _ ih =>
    rw [List.forall_mem_cons]
    refine ⟨⟨_, List.mem_cons_self, hperm⟩, ?_⟩
    intro layer' hlayer'
    obtain ⟨layer, hlayer, hperm'⟩ := ih layer' hlayer'
    exact ⟨layer, List.mem_cons_of_mem _ hlayer, hperm'⟩

/-- What holds between the boxes of any two layers holds between those of the shuffled ones. -/
theorem Shuffles.pairwise {R : Nat → Nat → Prop} (h : Shuffles ls' ls)
    (hls : ls.Pairwise fun upper lower => ∀ v ∈ upper, ∀ w ∈ lower, R v w) :
    ls'.Pairwise fun upper lower => ∀ v ∈ upper, ∀ w ∈ lower, R v w := by
  induction h with
  | nil => exact .nil
  | cons hperm htail ih =>
    obtain ⟨hhead, hrest⟩ := List.pairwise_cons.mp hls
    apply List.pairwise_cons.mpr ⟨_, ih hrest⟩
    intro lower' hlower' v hv w hw
    obtain ⟨lower, hlower, hperm'⟩ := Shuffles.exists_perm htail lower' hlower'
    exact hhead lower hlower v (hperm.mem_iff.mp hv) w (hperm'.mem_iff.mp hw)

theorem Layering.shuffled (h : Layering ranks indices ls) (hs : Shuffles ls' ls) :
    Layering ranks indices ls' := by
  constructor
  · intro layer' hlayer' hnil
    obtain ⟨layer, hlayer, hperm⟩ := hs.exists_perm layer' hlayer'
    exact h.nonempty layer hlayer (List.nil_perm.mp (hnil ▸ hperm))
  · exact (List.Perm.flatten_congr hs).trans h.perm
  · intro layer' hlayer' v hv w hw
    obtain ⟨layer, hlayer, hperm⟩ := hs.exists_perm layer' hlayer'
    exact h.level layer hlayer v (hperm.mem_iff.mp hv) w (hperm.mem_iff.mp hw)
  · exact hs.pairwise h.ascending

variable {α : Type} [Scalar α] (settings : LayeredSettings α) (direction : Direction)
  (d : Diagram α)

theorem layering_ordered : Layering d.ranks d.indices (ordered settings d) :=
  (layering_layers List.nodup_range).shuffled (sweeps_shuffles d settings.sweeps _)

theorem keys_table_perm : (table settings direction d).keys.Perm d.indices := by
  unfold table
  rw [keys_stack]
  exact (layering_ordered settings d).perm

theorem getElem?_place {v : Nat} (hv : v < d.count) :
    (place settings direction d)[v]? = some ((table settings direction d).get v .origin) := by
  rw [place_eq, List.getElem?_map, Diagram.indices, List.getElem?_range hv]
  rfl

/-- After any number of sweeps the layers are not empty, hold every box once and list the boxes by
rank; a sweep moves boxes within their layers only. So every box is given a place, and only one. -/
theorem layers_hold_each_once :
    Layering d.ranks d.indices (ordered settings d) ∧
      ((ordered settings d).flatten.Pairwise fun v w => d.ranks.getD v 0 ≤ d.ranks.getD w 0) ∧
      (∀ ls, Shuffles (sweep α d ls) ls) ∧
      (table settings direction d).keys.Perm d.indices ∧
      ∀ v < d.count, ∃ p, (place settings direction d)[v]? = some p ∧
        ∀ q, (v, q) ∈ table settings direction d ↔ q = p := by
  have hlayering := layering_ordered settings d
  have hkeys := keys_table_perm settings direction d
  refine ⟨hlayering, hlayering.sorted, sweep_shuffles d, hkeys, ?_⟩
  intro v hv
  refine ⟨_, getElem?_place settings direction d hv, ?_⟩
  intro q
  apply Table.mem_iff_get
  · exact hkeys.nodup_iff.mpr List.nodup_range
  · exact hkeys.mem_iff.mpr (List.mem_range.mpr hv)

end GraphScribe.Layered
