import GraphScribe.Placement.Layered
import GraphScribe.Proofs.Placement.Tables
import Mathlib.Data.List.GetD
import Mathlib.Data.List.Perm.Basic

/-! # Layers hold every box

The layers begin as the boxes of each rank, and ordering only shuffles boxes within their layer. So
every box is in a layer at the end, and the layered placement gives it a centre. -/
namespace GraphScribe

namespace Layered

theorem rank_le (ranks : List Nat) (v : Nat) : ranks.getD v 0 ≤ ranks.foldl max 0 := by
  by_cases hv : v < ranks.length
  · rw [List.getD_eq_getElem ranks 0 hv]
    -- the fold is the maximum of the ranks and zero
    apply (List.max?_eq_some_iff.mp List.max?_cons').2
    exact List.mem_cons_of_mem 0 (List.getElem_mem hv)
  · rw [List.getD_eq_default _ _ (by omega)]
    exact Nat.zero_le _

theorem mem_layers {indices ranks : List Nat} {v : Nat} (hv : v ∈ indices) :
    v ∈ (layers indices ranks).flatten := by
  let own := indices.filter fun w => ranks.getD w 0 == ranks.getD v 0
  have hown : v ∈ own := List.mem_filter.mpr ⟨hv, by simp⟩
  apply List.mem_flatten.mpr
  refine ⟨own, ?_, hown⟩
  unfold layers
  apply List.mem_filter.mpr
  constructor
  · apply List.mem_map.mpr
    exact ⟨ranks.getD v 0, List.mem_range.mpr (Nat.lt_succ_of_le (rank_le ranks v)), rfl⟩
  · simp [List.ne_nil_of_mem hown]

variable {α : Type} [Scalar α]

theorem sortLayer_perm (neighbors : Nat → List Nat) (place : Nat → Nat) (layer : List Nat) :
    (sortLayer α neighbors place layer).Perm layer := by
  unfold sortLayer
  refine ((List.mergeSort_perm _ _).map _).trans ?_
  rw [List.map_map]
  apply List.Perm.of_eq
  exact List.zipIdx_map_fst 0 layer

/-- The same layers, each in any order. -/
abbrev Shuffles (ls ls' : Layers) : Prop := List.Forall₂ List.Perm ls ls'

theorem Shuffles.refl (ls : Layers) : Shuffles ls ls := by
  induction ls with
  | nil => exact .nil
  | cons layer ls ih => exact .cons (.refl layer) ih

theorem Shuffles.trans {ls ls' ls'' : Layers} (h : Shuffles ls ls') (h' : Shuffles ls' ls'') :
    Shuffles ls ls'' := by
  induction h generalizing ls'' with
  | nil =>
    cases h'
    exact .nil
  | cons hperm _ ih =>
    cases h' with
    | cons hperm' htail => exact .cons (hperm.trans hperm') (ih htail)

theorem modify_shuffles {f : List Nat → List Nat} (hf : ∀ layer, (f layer).Perm layer)
    (ls : Layers) (r : Nat) : Shuffles (ls.modify r f) ls := by
  induction ls generalizing r with
  | nil =>
    cases r <;> exact .nil
  | cons layer ls ih =>
    cases r with
    | zero => exact .cons (hf layer) (Shuffles.refl ls)
    | succ r => exact .cons (.refl layer) (ih r)

theorem sortAt_shuffles (neighbors : Nat → List Nat) (ls : Layers) (r : Nat) :
    Shuffles (sortAt α neighbors ls r) ls :=
  modify_shuffles (sortLayer_perm neighbors (placeOf ls)) ls r

theorem foldl_sortAt_shuffles (neighbors : Nat → List Nat) (rs : List Nat) (ls : Layers) :
    Shuffles (rs.foldl (sortAt α neighbors) ls) ls := by
  induction rs generalizing ls with
  | nil => exact Shuffles.refl ls
  | cons r rs ih => exact (ih _).trans (sortAt_shuffles neighbors ls r)

theorem sweep_shuffles (d : Diagram α) (ls : Layers) : Shuffles (sweep α d ls) ls :=
  (foldl_sortAt_shuffles d.successors _ _).trans (foldl_sortAt_shuffles d.predecessors _ ls)

theorem sweeps_shuffles (d : Diagram α) (n : Nat) (ls : Layers) :
    Shuffles (sweeps d n ls) ls := by
  induction n generalizing ls with
  | zero => exact Shuffles.refl ls
  | succ n ih => exact (ih _).trans (sweep_shuffles d ls)

theorem mem_ordered (settings : LayeredSettings α) (d : Diagram α) {v : Nat}
    (hv : v ∈ d.indices) : v ∈ (ordered settings d).flatten := by
  have hshuffles := sweeps_shuffles d settings.sweeps (layers d.indices d.ranks)
  exact (List.Perm.flatten_congr hshuffles).mem_iff.mpr (mem_layers hv)

theorem keys_placeLayer (direction : Direction) (spacing : α) (cross : Nat → α) (main cursor : α)
    (layer : List Nat) :
    (placeLayer direction spacing cross main cursor layer).keys = layer := by
  induction layer generalizing cursor with
  | nil => rfl
  | cons v vs ih => exact congrArg (v :: ·) (ih _)

theorem keys_stack (settings : LayeredSettings α) (direction : Direction) (d : Diagram α)
    (widest cursor : α) (ls : Layers) :
    (stack settings direction d widest cursor ls).keys = ls.flatten := by
  induction ls generalizing cursor with
  | nil => rfl
  | cons layer ls ih =>
    unfold stack
    have hlayer := keys_placeLayer direction settings.nodeSpacing
      (fun v => direction.cross (d.size v))
    unfold Table.keys at ih hlayer ⊢
    rw [List.map_append, ih, hlayer, List.flatten_cons]

theorem mem_keys_table (settings : LayeredSettings α) (direction : Direction) (d : Diagram α)
    {v : Nat} (hv : v ∈ d.indices) : v ∈ (table settings direction d).keys := by
  unfold table
  rw [keys_stack]
  exact mem_ordered settings d hv

theorem place_eq (settings : LayeredSettings α) (direction : Direction) (d : Diagram α) :
    place settings direction d =
      d.indices.map fun v => (table settings direction d).get v .origin := by
  apply List.map_congr_left
  intro v hv
  exact Table.get_of_mem_keys (mem_keys_table settings direction d hv) _ _

end Layered

end GraphScribe
