import GraphScribe.Proofs.Diagram.Links
import Mathlib.Data.List.Sort

/-! # Ascending neighbour lists

The boxes of a diagram that has been built list the ends of their links in ascending order, and so do
their neighbours, where each comes once. -/
namespace GraphScribe

variable {α : Type}

theorem insertSorted_ascending (v : Nat) {ws : List Nat} (h : ws.Pairwise (· ≤ ·)) :
    (insertSorted v ws).Pairwise (· ≤ ·) := by
  induction ws with
  | nil => exact List.pairwise_singleton _ v
  | cons w ws ih =>
    obtain ⟨hw, hws⟩ := List.pairwise_cons.mp h
    rw [insertSorted_cons]
    by_cases hvw : v ≤ w
    · rw [if_pos hvw]
      apply List.pairwise_cons.mpr ⟨_, h⟩
      rw [List.forall_mem_cons]
      exact ⟨hvw, fun u hu => hvw.trans (hw u hu)⟩
    · rw [if_neg hvw]
      apply List.pairwise_cons.mpr ⟨_, ih hws⟩
      intro u hu
      rcases List.mem_cons.mp ((insertSorted_perm v ws).mem_iff.mp hu) with rfl | hu
      · exact (not_le.mp hvw).le
      · exact hw u hu

namespace Diagram

theorem gather_ascending (ws : List Nat) : (gather ws).Pairwise (· < ·) := by
  have hle : (gather ws).Pairwise (· ≤ ·) := by
    induction ws with
    | nil => exact .nil
    | cons w ws ih =>
      rw [gather_cons]
      by_cases hw : w ∈ gather ws
      · rw [if_pos hw]
        exact ih
      · rw [if_neg hw]
        exact insertSorted_ascending w ih
  exact (hle.and (nodup_gather ws)).imp fun h => lt_of_le_of_ne h.1 h.2

theorem gather_congr {us ws : List Nat} (h : ∀ x, x ∈ us ↔ x ∈ ws) : gather us = gather ws := by
  apply (gather_ascending us).eq_of_mem_iff (gather_ascending ws)
  intro x
  rw [mem_gather, mem_gather, h]

/-- Every box lists the ends of its links in ascending order. -/
structure Ascending (d : Diagram α) : Prop where
  successors : ∀ v, (d.successors v).Pairwise (· ≤ ·)
  predecessors : ∀ v, (d.predecessors v).Pairwise (· ≤ ·)

variable {d : Diagram α}

theorem Ascending.addLink (h : d.Ascending) {l : Link} (hsource : l.source < d.count)
    (hsink : l.sink < d.count) : (d.addLink l).Ascending := by
  constructor
  · intro v
    rw [successors_addLink d hsource]
    by_cases hv : v = l.source
    · rw [if_pos hv]
      exact insertSorted_ascending _ (h.successors v)
    · rw [if_neg hv]
      exact h.successors v
  · intro v
    rw [predecessors_addLink d hsink]
    by_cases hv : v = l.sink
    · rw [if_pos hv]
      exact insertSorted_ascending _ (h.predecessors v)
    · rw [if_neg hv]
      exact h.predecessors v

theorem Ascending.moved {e : Diagram α} (h : d.Ascending)
    (hout : e.boxes.map Box.outgoing = d.boxes.map Box.outgoing)
    (hin : e.boxes.map Box.incoming = d.boxes.map Box.incoming) : e.Ascending := by
  constructor
  · intro v
    rw [successors_eq, hout, ← successors_eq]
    exact h.successors v
  · intro v
    rw [predecessors_eq, hin, ← predecessors_eq]
    exact h.predecessors v

theorem Built.ascending [Scalar α] (h : d.Built) : d.Ascending := by
  induction h with
  | empty => exact ⟨fun _ => .nil, fun _ => .nil⟩
  | addBox _ hout hin ih =>
    constructor
    · rw [successors_addBox _ hout]
      exact ih.successors
    · rw [predecessors_addBox _ hin]
      exact ih.predecessors
  | addLink _ hsource hsink ih => exact ih.addLink hsource hsink
  | setPosition _ v p ih =>
    exact ih.moved (outgoing_setPosition _ v p) (incoming_setPosition _ v p)
  | translate _ offset ih => exact ih.moved Array.map_map Array.map_map

end Diagram

end GraphScribe
